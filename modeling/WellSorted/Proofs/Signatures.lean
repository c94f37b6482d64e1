import Mathlib
import WellSorted.Symbols.Stack

/-!
# Signatures and overloads

Having the same signature is reflexive and symmetric: a renaming is found from a signature to
itself, and the opposite one between the same two the other way round. Hence the overloads of a name
are listed once each, and all of them are if no two have the same signature.
-/

namespace WellSorted

namespace Renaming

/-- The renaming read backwards. -/
def swap (ρ : Renaming) : Renaming := ρ.map Prod.swap

theorem find?_swap_fst (ρ : Renaming) (q : String) :
    ρ.swap.find? (·.1 == q) = (ρ.find? (·.2 == q)).map Prod.swap := by
  rw [swap, List.find?_map]
  rfl

theorem find?_swap_snd (ρ : Renaming) (p : String) :
    ρ.swap.find? (·.2 == p) = (ρ.find? (·.1 == p)).map Prod.swap := by
  rw [swap, List.find?_map]
  rfl

theorem pair?_swap (ρ : Renaming) (p q : String) : ρ.swap.pair? q p = (ρ.pair? p q).map swap := by
  unfold pair?
  rw [find?_swap_fst, find?_swap_snd]
  cases ρ.find? (·.1 == p) with
  | none => cases ρ.find? (·.2 == q) <;> rfl
  | some pq =>
    cases ρ.find? (·.2 == q) with
    | none => rfl
    | some pq' =>
      simp only [Option.map_some, Prod.swap]
      by_cases h : pq.2 = q ∧ pq'.1 = p
      · rw [if_pos h, if_pos ⟨h.2, h.1⟩]; rfl
      · rw [if_neg h, if_neg fun h' => h ⟨h'.2, h'.1⟩]; rfl

/-- Whether every parameter stands for itself. -/
def IsIdentity (ρ : Renaming) : Prop := ∀ pq ∈ ρ, pq.1 = pq.2

theorem IsIdentity.find?_eq {ρ : Renaming} (h : ρ.IsIdentity) (p : String) :
    ρ.find? (·.2 == p) = ρ.find? (·.1 == p) := by
  induction ρ with
  | nil => rfl
  | cons pq ρ ih =>
    rw [List.find?_cons, List.find?_cons, h pq List.mem_cons_self,
      ih fun pq hpq => h pq (List.mem_cons_of_mem _ hpq)]

theorem IsIdentity.pair? {ρ : Renaming} (h : ρ.IsIdentity) (p : String) :
    ∃ ρ', ρ.pair? p p = some ρ' ∧ ρ'.IsIdentity := by
  unfold Renaming.pair?
  rw [h.find?_eq p]
  cases hfind : ρ.find? (·.1 == p) with
  | none =>
    refine ⟨_, rfl, fun pq hpq => ?_⟩
    rcases List.mem_cons.mp hpq with rfl | hpq
    · rfl
    · exact h pq hpq
  | some pq =>
    have hfst : pq.1 = p := by simpa using List.find?_some hfind
    have hsnd : pq.2 = p := by rw [← h pq (List.mem_of_find?_eq_some hfind), hfst]
    exact ⟨ρ, if_pos ⟨hsnd, hfst⟩, h⟩

end Renaming

namespace SmtSort

mutual

theorem rename?_self (ps : List String) : ∀ {ρ : Renaming} (s : SmtSort), ρ.IsIdentity →
    ∃ ρ', rename? ps ps ρ s s = some ρ' ∧ ρ'.IsIdentity
  | ρ, mk head args, h => by
    rw [rename?]
    cases asParam ps (mk head args) with
    | some p => exact h.pair? p
    | none =>
      simp only [SmtSort.head, SmtSort.args, ↓reduceIte]
      exact renameAll?_self ps args h

theorem renameAll?_self (ps : List String) : ∀ {ρ : Renaming} (ss : List SmtSort), ρ.IsIdentity →
    ∃ ρ', renameAll? ps ps ρ ss ss = some ρ' ∧ ρ'.IsIdentity
  | ρ, [], h => ⟨ρ, rfl, h⟩
  | ρ, s :: ss, h => by
    obtain ⟨ρ', hs, h'⟩ := rename?_self ps s h
    obtain ⟨ρ'', hss, h''⟩ := renameAll?_self ps ss h'
    exact ⟨ρ'', by rw [renameAll?, hs]; exact hss, h''⟩

end

mutual

theorem rename?_swap (ps qs : List String) : ∀ (ρ : Renaming) (s t : SmtSort),
    rename? qs ps ρ.swap t s = (rename? ps qs ρ s t).map Renaming.swap
  | ρ, mk head args, mk head' args' => by
    rw [rename?, rename?]
    cases asParam ps (mk head args) with
    | some p =>
      cases asParam qs (mk head' args') with
      | some q => exact ρ.pair?_swap p q
      | none => rfl
    | none =>
      cases asParam qs (mk head' args') with
      | some q => rfl
      | none =>
        by_cases h : head = head'
        · have hs : head = (mk head' args').head := h
          have ht : head' = (mk head args).head := h.symm
          simp only [if_pos hs, if_pos ht]
          exact renameAll?_swap ps qs ρ args args'
        · have hs : head ≠ (mk head' args').head := h
          have ht : head' ≠ (mk head args).head := Ne.symm h
          simp only [if_neg hs, if_neg ht]
          rfl

theorem renameAll?_swap (ps qs : List String) : ∀ (ρ : Renaming) (ss ts : List SmtSort),
    renameAll? qs ps ρ.swap ts ss = (renameAll? ps qs ρ ss ts).map Renaming.swap
  | ρ, [], [] => rfl
  | ρ, [], _ :: _ => rfl
  | ρ, _ :: _, [] => rfl
  | ρ, s :: ss, t :: ts => by
    rw [renameAll?, renameAll?, rename?_swap ps qs ρ s t]
    cases rename? ps qs ρ s t with
    | none => rfl
    | some ρ' => exact renameAll?_swap ps qs ρ' ss ts

end

end SmtSort

namespace FunDecl

theorem sameSignature_refl (f : FunDecl) : f.sameSignature f = true := by
  unfold sameSignature
  rw [if_neg (by simp)]
  split
  · simp
  · obtain ⟨ρ, hρ, -⟩ := SmtSort.renameAll?_self f.params (ρ := []) f.signature nofun
    rw [hρ]
    rfl

theorem sameSignature_comm (f g : FunDecl) : f.sameSignature g = g.sameSignature f := by
  by_cases h : f.args.length ≠ g.args.length ∨ f.params.length ≠ g.params.length
  · have h' : g.args.length ≠ f.args.length ∨ g.params.length ≠ f.params.length :=
      h.imp Ne.symm Ne.symm
    rw [sameSignature, sameSignature, if_pos h, if_pos h']
  · have h' : ¬ (g.args.length ≠ f.args.length ∨ g.params.length ≠ f.params.length) :=
      fun h' => h (h'.imp Ne.symm Ne.symm)
    have hparams : g.params.isEmpty = f.params.isEmpty := by
      rw [Bool.eq_iff_iff, List.isEmpty_iff_length_eq_zero, List.isEmpty_iff_length_eq_zero]
      omega
    have hrename := SmtSort.renameAll?_swap f.params g.params [] f.signature g.signature
    rw [sameSignature, sameSignature, if_neg h, if_neg h', hparams, BEq.comm (a := f.args),
      BEq.comm (a := f.result)]
    rw [show Renaming.swap [] = [] from rfl] at hrename
    rw [hrename, Option.isSome_map]

theorem sameSignature_of_no_params {f g : FunDecl} (hf : f.params = []) (hg : g.params = []) :
    f.sameSignature g = true ↔ f.args = g.args ∧ f.result = g.result := by
  rw [sameSignature, hf, hg]
  by_cases hlength : f.args.length = g.args.length
  · simp [hlength]
  · have hargs : f.args ≠ g.args := fun h => hlength (congrArg List.length h)
    simp [hlength, hargs]

end FunDecl

namespace Stack

/-! ### Overloads -/

theorem nodup_addOverload {fs : List FunDecl} (h : fs.Nodup) (f : FunDecl) :
    (addOverload fs f).Nodup := by
  unfold addOverload
  split
  · exact h
  · next hany =>
    refine List.nodup_append.mpr ⟨h, by simp, fun g hg f' hf' hgf => hany ?_⟩
    rw [List.mem_singleton.mp hf'] at hgf
    exact List.any_eq_true.mpr ⟨g, hg, by rw [hgf]; exact f.sameSignature_refl⟩

theorem nodup_overloads (G : Stack) (name : String) : (G.overloads name).Nodup := by
  suffices h : ∀ fs gs : List FunDecl, gs.Nodup → (fs.foldl addOverload gs).Nodup from
    h _ [] List.nodup_nil
  intro fs
  induction fs with
  | nil => exact fun gs h => h
  | cons f fs ih => exact fun gs h => ih _ (nodup_addOverload h f)

end Stack

end WellSorted
