import Mathlib.Data.List.DropRight
import WellSorted.Proofs.Positions
import WellSorted.Text.LineIndex

/-!
# The index of lines

The search among the line starts finds the line of an offset, and so the position of a boundary is
the one that is counted from the characters before it (`LineIndex.position_ofText`). The span of a
part goes from its first character to its last one (`LineIndex.span_ofText`), and so it cuts the
part out of the text (`LineIndex.cut_span`).
-/

namespace WellSorted

open Text (byteLength byteLength_nil byteLength_cons byteLength_append)

/-! ### Searching -/

section

variable {α : Type} {p : α → Bool} {passing failing : List α}

theorem any_getElem?_append (hpassing : ∀ x ∈ passing, p x) (hfailing : ∀ x ∈ failing, ¬ p x)
    (i : Nat) : (passing ++ failing).toArray[i]?.any p ↔ i < passing.length := by
  rw [List.getElem?_toArray]
  by_cases hi : i < passing.length
  · rw [List.getElem?_append_left hi, List.getElem?_eq_getElem hi, Option.any_some]
    exact iff_of_true (hpassing _ (List.getElem_mem hi)) hi
  · rw [List.getElem?_append_right (Nat.le_of_not_lt hi)]
    refine iff_of_false ?_ hi
    cases hx : failing[i - passing.length]? with
    | none => exact Bool.false_ne_true
    | some x => exact hfailing x (List.mem_of_getElem? hx)

/-- The search goes on in the half that holds the point. -/
theorem search_append (hpassing : ∀ x ∈ passing, p x) (hfailing : ∀ x ∈ failing, ¬ p x)
    {low high : Nat} (hlow : low ≤ passing.length) (hhigh : passing.length ≤ high) :
    partitionPoint.search p (passing ++ failing).toArray low high = passing.length := by
  fun_induction partitionPoint.search p (passing ++ failing).toArray low high with
  | case1 low high hlt mid hany ih =>
    rw [any_getElem?_append hpassing hfailing] at hany
    exact ih hany hhigh
  | case2 low high hlt mid hany ih =>
    rw [any_getElem?_append hpassing hfailing] at hany
    exact ih hlow (Nat.le_of_not_lt hany)
  | case3 low high hlt => exact Nat.le_antisymm hlow (hhigh.trans (Nat.le_of_not_lt hlt))

theorem partitionPoint_append (hpassing : ∀ x ∈ passing, p x) (hfailing : ∀ x ∈ failing, ¬ p x) :
    partitionPoint p (passing ++ failing).toArray = passing.length := by
  refine search_append hpassing hfailing (Nat.zero_le _) ?_
  rw [List.size_toArray, List.length_append]
  exact Nat.le_add_right _ _

end

namespace LineIndex

/-! ### The starts of lines -/

theorem newlineEnds_append (offset : Nat) (cs ds : List Char) :
    newlineEnds offset (cs ++ ds) =
      newlineEnds offset cs ++ newlineEnds (offset + byteLength cs) ds := by
  rw [newlineEnds, Text.charIndices_append, List.filter_append, List.map_append]
  rfl

theorem newlineEnds_newline (offset : Nat) : newlineEnds offset ['\n'] = [offset + 1] := rfl

theorem newlineEnds_singleton {c : Char} (hc : c ≠ '\n') (offset : Nat) :
    newlineEnds offset [c] = [] := by
  simp [newlineEnds, Text.charIndices, hc]

theorem length_newlineEnds (offset : Nat) (cs : List Char) :
    (newlineEnds offset cs).length = cs.count '\n' := by
  induction cs using List.reverseRecOn with
  | nil => rfl
  | append_singleton cs c ih =>
    rw [newlineEnds_append, List.length_append, List.count_append, ih]
    by_cases hc : c = '\n'
    · rw [hc, newlineEnds_newline]
      rfl
    · have hcount : [c].count '\n' = 0 := List.count_eq_zero.mpr (by simpa using Ne.symm hc)
      rw [newlineEnds_singleton hc, hcount, List.length_nil]

/-- A newline ends within the text. -/
theorem bounds_of_mem_newlineEnds {offset n : Nat} {cs : List Char}
    (h : n ∈ newlineEnds offset cs) : offset < n ∧ n ≤ offset + byteLength cs := by
  induction cs using List.reverseRecOn with
  | nil => exact absurd h List.not_mem_nil
  | append_singleton cs c ih =>
    rw [newlineEnds_append, List.mem_append] at h
    rw [byteLength_append]
    rcases h with h | h
    · have hbounds := ih h
      omega
    · by_cases hc : c = '\n'
      · rw [hc, newlineEnds_newline, List.mem_singleton] at h
        rw [hc, h]
        have hsize : byteLength ['\n'] = 1 := rfl
        omega
      · rw [newlineEnds_singleton hc] at h
        exact absurd h List.not_mem_nil

/-- The last line of a text starts behind its last newline. -/
theorem getLast?_lineStarts (cs : List Char) :
    (0 :: newlineEnds 0 cs).getLast? = some (byteLength (cs.rdropWhile (· != '\n'))) := by
  induction cs using List.reverseRecOn with
  | nil => rfl
  | append_singleton cs c ih =>
    rw [newlineEnds_append, Nat.zero_add, ← List.cons_append]
    by_cases hc : c = '\n'
    · rw [hc, newlineEnds_newline, List.getLast?_concat, List.rdropWhile_concat_neg _ _ _ (by simp),
        byteLength_append]
      rfl
    · rw [newlineEnds_singleton hc, List.append_nil, ih,
        List.rdropWhile_concat_pos _ _ _ (by simpa using hc)]

/-! ### Positions and spans -/

/-- The lines that start up to a boundary are those of the text before it. -/
theorem lineStarts_ofText (before rest : List Char) :
    (ofText (before ++ rest)).lineStarts =
      ((0 :: newlineEnds 0 before) ++ newlineEnds (byteLength before) rest).toArray := by
  rw [ofText, newlineEnds_append, Nat.zero_add, List.cons_append]

theorem partitionPoint_lineStarts (before rest : List Char) :
    partitionPoint (· ≤ byteLength before) (ofText (before ++ rest)).lineStarts =
      before.count '\n' + 1 := by
  rw [lineStarts_ofText, partitionPoint_append, List.length_cons, length_newlineEnds]
  · intro n hn
    rw [decide_eq_true_iff]
    rcases List.mem_cons.mp hn with rfl | hn
    · exact Nat.zero_le _
    · simpa using (bounds_of_mem_newlineEnds hn).2
  · intro n hn
    rw [decide_eq_true_iff, Nat.not_le]
    exact (bounds_of_mem_newlineEnds hn).1

theorem getD_lineStarts (before rest : List Char) :
    (ofText (before ++ rest)).lineStarts.getD (before.count '\n') 0 =
      byteLength (before.rdropWhile (· != '\n')) := by
  have hlast := getLast?_lineStarts before
  have hlt : before.count '\n' < (0 :: newlineEnds 0 before).length := by
    rw [List.length_cons, length_newlineEnds]
    exact Nat.lt_succ_self _
  rw [List.getLast?_eq_getElem?, List.length_cons, length_newlineEnds, Nat.add_sub_cancel] at hlast
  rw [lineStarts_ofText, Array.getD_eq_getD_getElem?, List.getElem?_toArray,
    List.getElem?_append_left hlt, hlast, Option.getD_some]

/-- The position of a boundary is the one that is counted. -/
theorem position_ofText (before rest : List Char) :
    (ofText (before ++ rest)).position (byteLength before) = .after before := by
  have hline : before.rdropWhile (· != '\n') ++ before.rtakeWhile (· != '\n') = before :=
    List.rdropWhile_append_rtakeWhile
  have hslice := Text.slice?_append (before.rdropWhile (· != '\n'))
    (before.rtakeWhile (· != '\n')) rest
  rw [← List.append_assoc, hline] at hslice
  rw [position, partitionPoint_lineStarts, Nat.add_sub_cancel, getD_lineStarts, Position.after]
  simp only [ofText, hslice, Option.map_some, Option.getD_some, List.rtakeWhile,
    List.length_reverse]

theorem lastBefore?_ofText (init : List Char) (c : Char) (rest : List Char) :
    (ofText (init ++ [c] ++ rest)).lastBefore? (byteLength (init ++ [c])) =
      some (byteLength init) := by
  have hindices : Text.charIndices 0 (init ++ [c]) =
      Text.charIndices 0 init ++ [(byteLength init, c)] := by
    rw [Text.charIndices_append, Nat.zero_add]
    rfl
  simp only [lastBefore?, ofText, Text.slice?_zero_append, hindices, List.getLast?_concat,
    Option.bind_eq_bind, Option.bind_some, Option.pure_def]

/-- The span of a part that is not empty goes from its first character to its last one. -/
theorem span_ofText (before init : List Char) (c : Char) (rest : List Char) :
    (ofText (before ++ (init ++ c :: rest))).span (byteLength before)
        (byteLength (before ++ (init ++ [c]))) =
      ⟨.after before, .after (before ++ init)⟩ := by
  have hlt : byteLength before < byteLength (before ++ (init ++ [c])) := by
    have hpos := c.utf8Size_pos
    rw [byteLength_append, byteLength_append, byteLength_cons]
    omega
  have hlast := lastBefore?_ofText (before ++ init) c rest
  have hfirst := position_ofText before (init ++ c :: rest)
  have hposition := position_ofText (before ++ init) (c :: rest)
  simp only [List.append_assoc, List.cons_append, List.nil_append] at hlast hposition
  rw [span, if_pos hlt, hlast, Option.getD_some, hfirst, hposition]

/-- The span of a part that is not empty cuts out the part. -/
theorem cut_span (before : List Char) {mid : List Char} (rest : List Char) (h : mid ≠ []) :
    ((ofText (before ++ (mid ++ rest))).span (byteLength before) (byteLength (before ++ mid))).cut
      (before ++ (mid ++ rest)) = mid := by
  obtain ⟨init, c, rfl⟩ := (List.eq_nil_or_concat' mid).resolve_left h
  rw [List.append_assoc init, List.singleton_append, span_ofText, Span.cut_after]

end LineIndex

/-! ### Boundaries of a string -/

theorem utf8ByteSize_eq_byteLength (s : String) : s.utf8ByteSize = byteLength s.toList := by
  rw [← String.ofList_toList (s := s), String.toList_ofList]
  induction s.toList with
  | nil => rfl
  | cons c cs ih =>
    rw [String.ofList_cons, String.utf8ByteSize_append, String.utf8ByteSize_singleton, ih,
      byteLength_cons]

theorem byteIdx_of_splits {text before after : String} {p : text.Pos}
    (h : p.Splits before after) : p.offset.byteIdx = byteLength before.toList := by
  rw [h.offset_eq_rawEndPos, String.byteIdx_rawEndPos, utf8ByteSize_eq_byteLength]

theorem position_of_splits {text before after : String} {p : text.Pos}
    (h : p.Splits before after) :
    (LineIndex.ofText text.toList).position p.offset.byteIdx = .after before.toList := by
  rw [byteIdx_of_splits h, h.eq_append, String.toList_append, LineIndex.position_ofText]

theorem span_of_splits {text before init rest after : String} {c : Char} {p q : text.Pos}
    (hp : p.Splits before rest) (hq : q.Splits (before ++ init ++ String.singleton c) after) :
    (LineIndex.ofText text.toList).span p.offset.byteIdx q.offset.byteIdx =
      ⟨.after before.toList, .after (before ++ init).toList⟩ := by
  have hspan := LineIndex.span_ofText before.toList init.toList c after.toList
  rw [byteIdx_of_splits hp, byteIdx_of_splits hq, hq.eq_append]
  simpa only [String.toList_append, String.toList_singleton, List.append_assoc, List.cons_append,
    List.nil_append] using hspan

/-- Whether a line is what a text ends with after its last newline, or all of a text without one. -/
structure EndsInLine (text line : String) : Prop where
  unbroken : '\n' ∉ line.toList
  follows : ∃ lines, text = lines ++ line ∧ (lines = "" ∨ ∃ rest, lines = rest ++ "\n")

/-- The last line, counted from the end. -/
theorem endsInLine_rtakeWhile (text : String) :
    EndsInLine text (String.ofList (text.toList.rtakeWhile (· != '\n'))) := by
  refine ⟨fun hmem => ?_, String.ofList (text.toList.rdropWhile (· != '\n')), ?_, ?_⟩
  · rw [String.toList_ofList] at hmem
    simpa using List.mem_rtakeWhile_imp hmem
  · rw [← String.ofList_append, List.rdropWhile_append_rtakeWhile, String.ofList_toList]
  · by_cases hlines : text.toList.rdropWhile (· != '\n') = []
    · exact .inl (by rw [hlines])
    · have hlast : (text.toList.rdropWhile (· != '\n')).getLast hlines = '\n' := by
        simpa using List.rdropWhile_last_not _ _ hlines
      refine .inr ⟨String.ofList (text.toList.rdropWhile (· != '\n')).dropLast, ?_⟩
      nth_rewrite 1 [← List.dropLast_append_getLast hlines]
      rw [String.ofList_append, hlast]

namespace LineIndex

/-- The position of a boundary has the number of newlines before it and the length of what stands
before it in its line, both counted from 1. Positions grow with boundaries, row by row and within a
row by column. The span between two boundaries goes from the first one to the one in front of the
last character. -/
theorem position_at_boundary (text : String) :
    let index := ofText text.toList
    (∀ (p : text.Pos) (before after : String), p.Splits before after →
      ∃ line, EndsInLine before line ∧
        index.position p.offset.byteIdx = ⟨1 + before.toList.count '\n', 1 + line.length⟩) ∧
    (∀ p q : text.Pos, p < q →
      let a := index.position p.offset.byteIdx
      let b := index.position q.offset.byteIdx
      a.row < b.row ∨ a.row = b.row ∧ a.column < b.column) ∧
    ∀ (p q : text.Pos) (h : p < q),
      index.span p.offset.byteIdx q.offset.byteIdx =
        ⟨index.position p.offset.byteIdx,
          index.position (q.prev (String.Pos.ne_startPos_of_lt h)).offset.byteIdx⟩ := by
  intro index
  refine ⟨fun p before after h => ⟨_, endsInLine_rtakeWhile before, ?_⟩, fun p q h => ?_,
    fun p q h => ?_⟩
  · rw [position_of_splits h, Position.after, String.length_ofList, List.rtakeWhile,
      List.length_reverse, Nat.add_comm 1, Nat.add_comm 1]
  · obtain ⟨mid, hmid, hq, -⟩ := (p.splits.lt_iff_exists_eq_append q.splits).mp h
    have hlt := Position.after_lt_append (text.sliceTo p).copy.toList
      (mt String.toList_eq_nil_iff.mp hmid)
    rw [← String.toList_append, ← hq, ← position_of_splits p.splits,
      ← position_of_splits q.splits] at hlt
    exact Position.lt_iff.mp hlt
  · have hprev := q.splits_prev (String.Pos.ne_startPos_of_lt h)
    obtain ⟨init, hinit, -⟩ :=
      (p.splits.le_iff_exists_eq_append hprev).mp (String.Pos.le_prev_iff_lt.mpr h)
    rw [position_of_splits p.splits, position_of_splits hprev, hinit]
    rw [hinit] at hprev
    exact span_of_splits p.splits hprev.of_prev

/-- A text of two characters and three bytes that ends in a newline. -/
theorem position_at_boundary_newline :
    let text := "é\n"
    let index := ofText text.toList
    text.endPos.offset.byteIdx = 3 ∧
    (∃ line, EndsInLine text line ∧ index.position 3 = ⟨2, 1 + line.length⟩) ∧
    ∃ h : text.endPos ≠ text.startPos,
      index.span 0 3 = ⟨index.position 0, index.position (text.endPos.prev h).offset.byteIdx⟩ := by
  intro text
  obtain ⟨hposition, -, hspan⟩ := position_at_boundary text
  have hlt : text.startPos < text.endPos := String.Pos.lt_iff.mpr (by decide)
  have hrows : 1 + text.toList.count '\n' = 2 := by decide
  exact ⟨by decide, hrows ▸ hposition text.endPos text "" (String.splits_endPos text), _,
    hspan text.startPos text.endPos hlt⟩

end LineIndex

end WellSorted
