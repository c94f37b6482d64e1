import Mathlib.Data.List.Induction
import Mathlib.Data.Prod.Lex
import Mathlib.Order.Interval.Set.Defs
import WellSorted.Text.Position

/-!
# Cutting a text by positions

A span is only rows and columns. It determines a part of the text all the same, since positions
grow from character to character: the span from the first to the last character of a part cuts out
that part (`Span.cut_after`).
-/

namespace WellSorted

namespace Position

/-! ### The order of positions -/

/-- Positions are ordered by row, and within a row by column. -/
instance : LinearOrder Position :=
  LinearOrder.lift' (fun p => toLex (p.row, p.column)) fun p q h => by
    cases p
    cases q
    simpa using h

theorem lt_iff {p q : Position} : p < q ↔ p.row < q.row ∨ p.row = q.row ∧ p.column < q.column :=
  Prod.Lex.toLex_lt_toLex

theorem after_concat_newline (cs : List Char) :
    after (cs ++ ['\n']) = ⟨(after cs).row + 1, 1⟩ := by
  simp [after]

theorem after_concat {c : Char} (hc : c ≠ '\n') (cs : List Char) :
    after (cs ++ [c]) = ⟨(after cs).row, (after cs).column + 1⟩ := by
  simp [after, hc]

theorem after_lt_concat (cs : List Char) (c : Char) : after cs < after (cs ++ [c]) := by
  rw [lt_iff]
  by_cases hc : c = '\n'
  · rw [hc, after_concat_newline]
    exact .inl (Nat.lt_succ_self _)
  · rw [after_concat hc]
    exact .inr ⟨rfl, Nat.lt_succ_self _⟩

theorem after_lt_append (cs : List Char) {ds : List Char} (h : ds ≠ []) :
    after cs < after (cs ++ ds) := by
  induction ds using List.reverseRecOn with
  | nil => exact absurd rfl h
  | append_singleton ds d ih =>
    by_cases hds : ds = []
    · subst hds
      exact after_lt_concat cs d
    · rw [← List.append_assoc]
      exact (ih hds).trans (after_lt_concat _ d)

/-- The position of the character with the number `i`, counted from 0. -/
def counted (text : List Char) (i : Nat) : Position := after (text.take i)

theorem strictMonoOn_counted (text : List Char) :
    StrictMonoOn (counted text) (Set.Iic text.length) := by
  intro i hi j hj hlt
  obtain ⟨k, rfl⟩ := Nat.exists_eq_add_of_lt hlt
  have hbetween : (text.drop i).take (k + 1) ≠ [] := by
    rw [Ne, List.take_eq_nil_iff, List.drop_eq_nil_iff]
    rw [Set.mem_Iic] at hj
    omega
  rw [counted, counted, Nat.add_assoc, List.take_add]
  exact after_lt_append _ hbetween

theorem counted_le_counted {text : List Char} {i j : Nat} (hi : i ≤ text.length)
    (hj : j ≤ text.length) : counted text i ≤ counted text j ↔ i ≤ j :=
  (strictMonoOn_counted text).le_iff_le hi hj

theorem after_eq_counted (before rest : List Char) :
    after before = counted (before ++ rest) before.length := by
  rw [counted, List.take_left]

end Position

namespace Span

/-- Whether a position lies between the first and the last one of a span, these included. -/
def Covers (s : Span) (p : Position) : Prop := s.first ≤ p ∧ p ≤ s.last

instance (s : Span) (p : Position) : Decidable (s.Covers p) := inferInstanceAs (Decidable (_ ∧ _))

/-- The characters of a text whose positions a span covers. -/
def cut (s : Span) (text : List Char) : List Char :=
  (text.zipIdx.filter fun x => s.Covers (.counted text x.2)).map Prod.fst

theorem covers_iff {text : List Char} {first last i : Nat} (hfirst : first ≤ text.length)
    (hlast : last ≤ text.length) (hi : i ≤ text.length) :
    (⟨.counted text first, .counted text last⟩ : Span).Covers (.counted text i) ↔
      first ≤ i ∧ i ≤ last :=
  and_congr (Position.counted_le_counted hfirst hi) (Position.counted_le_counted hi hlast)

/-- The span from the first to the last character of a part cuts out the part. -/
theorem cut_after (before init : List Char) (c : Char) (rest : List Char) :
    (⟨.after before, .after (before ++ init)⟩ : Span).cut (before ++ (init ++ c :: rest)) =
      init ++ [c] := by
  have hsplit : (before ++ (init ++ c :: rest)).zipIdx = before.zipIdx ++
      ((init ++ [c]).zipIdx before.length ++ rest.zipIdx (before.length + (init.length + 1))) := by
    simp [List.zipIdx_append, Nat.add_assoc]
  have hfirst := Position.after_eq_counted before (init ++ c :: rest)
  have hlast := Position.after_eq_counted (before ++ init) (c :: rest)
  rw [List.append_assoc, List.length_append] at hlast
  rw [hfirst, hlast, cut, hsplit]
  generalize htext : before ++ (init ++ c :: rest) = text
  have hlength : text.length = before.length + (init.length + 1) + rest.length := by
    rw [← htext, List.length_append, List.length_append, List.length_cons]
    omega
  have hcovers : ∀ i < text.length,
      (⟨.counted text before.length, .counted text (before.length + init.length)⟩ : Span).Covers
        (.counted text i) ↔ before.length ≤ i ∧ i ≤ before.length + init.length :=
    fun i hi => covers_iff (by omega) (by omega) hi.le
  rw [List.filter_append, List.filter_append, List.filter_eq_nil_iff.mpr,
    List.filter_eq_self.mpr, List.filter_eq_nil_iff.mpr, List.nil_append, List.append_nil,
    List.zipIdx_map_fst]
  · intro x hx
    have hle := List.le_snd_of_mem_zipIdx hx
    have hlt := List.snd_lt_add_of_mem_zipIdx hx
    rw [decide_eq_true_iff, hcovers x.2 (by omega)]
    omega
  · intro x hx
    have hle := List.le_snd_of_mem_zipIdx hx
    have hlt := List.snd_lt_add_of_mem_zipIdx hx
    rw [List.length_append, List.length_singleton] at hlt
    rw [decide_eq_true_iff, hcovers x.2 (by omega)]
    omega
  · intro x hx
    have hlt := List.snd_lt_add_of_mem_zipIdx hx
    rw [decide_eq_true_iff, hcovers x.2 (by omega)]
    omega

end Span

end WellSorted
