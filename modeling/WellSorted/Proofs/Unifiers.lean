import WellSorted.Proofs.Matching

/-!
# Least unifiers

`ρ` solves some pairs of patterns and sorts (`Subst.Solves`) if it is a substitution of the
parameters that extends what is bound already and turns each pattern into its sort. Unification
succeeds if and only if there is a solution, and what it returns is the least one
(`SmtSort.unify_least`). A solution may leave a parameter of the patterns unbound if a sort has its
name: the parameter then stays as it is. Unification binds such a parameter to itself, so it is among
the solutions that bind the parameters of the patterns that its result is the least.
-/

namespace WellSorted

namespace Subst

/-- Bind the parameters that are unbound to themselves. -/
def completed (ρ : Subst) (params : List String) : Subst := ρ ++ params.map fun p => (p, .simple p)

variable {ρ σ τ : Subst} {params : List String}

theorem get?_completed (ρ : Subst) (params : List String) (p : String) :
    (ρ.completed params).get? p =
      (ρ.get? p).or (if p ∈ params then some (.simple p) else none) := by
  rw [← get?_graph, get?, completed, List.lookup_append]
  rfl

theorem completed_extends (ρ : Subst) (params : List String) : (ρ.completed params).Extends ρ := by
  intro p s hs
  rw [get?_completed, hs]
  rfl

theorem Within.total_completed (h : ρ.Within params) : (ρ.completed params).Total params := by
  intro p
  rw [get?_completed]
  by_cases hp : p ∈ params
  · simp [hp]
  · have hnone : ρ.get? p = none := by
      rw [Option.eq_none_iff_forall_ne_some]
      exact fun s hs => hp (h p s hs)
    simp [hp, hnone]

end Subst

namespace SmtSort

theorem replace_completed (ρ : Subst) (params : List String) (s : SmtSort) :
    s.replace (ρ.completed params) = s.replace ρ := by
  refine replace_eq_replace_iff.mpr fun p _ => ?_
  rw [replace_simple, replace_simple, Subst.get?_completed]
  cases ρ.get? p with
  | some t => rfl
  | none => by_cases hp : p ∈ params <;> simp [hp]

theorem replaceAll_completed (ρ : Subst) (params : List String) (ss : List SmtSort) :
    replaceAll (ρ.completed params) ss = replaceAll ρ ss := by
  rw [replaceAll_eq_map, replaceAll_eq_map]
  exact List.map_congr_left fun s _ => replace_completed ρ params s

end SmtSort

/-! ### Solutions -/

namespace Subst

/-- Whether a substitution of the parameters extends another one and turns each pattern into the
sort that it is paired with. -/
structure Solves (ρ : Subst) (params : List String) (σ : Subst)
    (pairs : List (SmtSort × SmtSort)) : Prop where
  within : ρ.Within params
  extended : ρ.Extends σ
  replaced : ∀ pair ∈ pairs, pair.1.replace ρ = pair.2

/-- Whether a name occurs as a sort in one of the patterns. -/
def OccursIn (p : String) (pairs : List (SmtSort × SmtSort)) : Prop :=
  ∃ pair ∈ pairs, pair.1.mentions p = true

/-- What it is to be the least solution: nothing is bound beyond what was bound already and the
parameters of the patterns, every solution agrees with it where an unbound parameter stands for
itself, and every solution that binds the parameters of the patterns extends it. -/
structure LeastSolution (τ : Subst) (params : List String) (σ : Subst)
    (pairs : List (SmtSort × SmtSort)) : Prop where
  solves : τ.Solves params σ pairs
  bound : ∀ p, (τ.get? p).isSome = true ↔
    (σ.get? p).isSome = true ∨ (p ∈ params ∧ OccursIn p pairs)
  agrees : ∀ ρ : Subst, ρ.Solves params σ pairs →
    ∀ p s, τ.get? p = some s → (ρ.get? p).getD (.simple p) = s
  least : ∀ ρ : Subst, ρ.Solves params σ pairs →
    (∀ p ∈ params, OccursIn p pairs → (ρ.get? p).isSome = true) → ρ.Extends τ

variable {σ τ ρ : Subst} {params : List String} {pairs : List (SmtSort × SmtSort)}

theorem anyMentions_patterns {p : String} :
    SmtSort.anyMentions p (pairs.map Prod.fst) = true ↔ OccursIn p pairs := by
  simp only [SmtSort.anyMentions_iff, List.mem_map, OccursIn, exists_exists_and_eq_and]

theorem replaceAll_patterns :
    SmtSort.replaceAll ρ (pairs.map Prod.fst) = pairs.map Prod.snd ↔
      ∀ pair ∈ pairs, pair.1.replace ρ = pair.2 := by
  rw [SmtSort.replaceAll_eq_map, List.map_map]
  exact List.map_inj_left

end Subst

namespace SmtSort

open Subst (OccursIn)

variable {params : List String} {σ : Subst}

/-- Whatever solution there is, unification finds one that its completion extends. -/
theorem exists_unifyAll_of_solves {pairs : List (SmtSort × SmtSort)} {ρ : Subst}
    (h : ρ.Solves params σ pairs) :
    ∃ τ, unifyAll params σ (pairs.map Prod.fst) (pairs.map Prod.snd) = some τ ∧
      (ρ.completed params).Extends τ := by
  have hext : (ρ.completed params).Extends σ := (ρ.completed_extends params).trans h.extended
  obtain ⟨τ, hτ, hτ'⟩ := unifyAll_complete h.within.total_completed (pairs.map Prod.fst) hext
  rw [replaceAll_completed, Subst.replaceAll_patterns.mpr h.replaced] at hτ
  exact ⟨τ, hτ, hτ'⟩

/-- A solution has the sorts of the result, where an unbound parameter stands for itself. -/
theorem get?_getD_of_solves {pairs : List (SmtSort × SmtSort)} {ρ τ : Subst}
    (h : unifyAll params σ (pairs.map Prod.fst) (pairs.map Prod.snd) = some τ)
    (hρ : ρ.Solves params σ pairs) {p : String} {s : SmtSort} (hs : τ.get? p = some s) :
    (ρ.get? p).getD (simple p) = s := by
  obtain ⟨τ', hτ', hext⟩ := exists_unifyAll_of_solves hρ
  rw [h] at hτ'
  cases hτ'
  have hcompleted : (ρ.completed params).get? p = some s := hext p s hs
  rw [Subst.get?_completed] at hcompleted
  cases hget : ρ.get? p with
  | some t =>
    rw [hget] at hcompleted
    exact Option.some.inj hcompleted
  | none =>
    rw [hget, Option.none_or] at hcompleted
    split at hcompleted
    · exact Option.some.inj hcompleted
    · cases hcompleted

theorem leastSolution_of_unifyAll (hσ : σ.Within params) {pairs : List (SmtSort × SmtSort)}
    {τ : Subst} (h : unifyAll params σ (pairs.map Prod.fst) (pairs.map Prod.snd) = some τ) :
    τ.LeastSolution params σ pairs := by
  obtain ⟨hmatched, hreplace⟩ := unifyAll_sound h
  have hbound (p : String) : (τ.get? p).isSome = true ↔
      (σ.get? p).isSome = true ∨ (p ∈ params ∧ OccursIn p pairs) := by
    rw [hmatched.bound p, Subst.anyMentions_patterns]
  -- What holds of a bound parameter: it was bound already, or the patterns bind it.
  have hbinds {p : String} {s : SmtSort} (hs : τ.get? p = some s) :
      (∃ t, σ.get? p = some t) ∨ (p ∈ params ∧ OccursIn p pairs) := by
    rw [← Option.isSome_iff_exists, ← hbound p, hs]
    rfl
  have hwithin : τ.Within params := by
    intro p s hs
    rcases hbinds hs with ⟨t, ht⟩ | hp
    · exact hσ p t ht
    · exact hp.1
  refine ⟨⟨hwithin, hmatched.extended, ?_⟩, hbound, ?_, fun ρ hρ hcovers p s hs => ?_⟩
  · exact Subst.replaceAll_patterns.mp (hreplace τ τ.extends_refl hwithin)
  · exact fun ρ hρ p s hs => get?_getD_of_solves h hρ hs
  · have hρp : ∃ t, ρ.get? p = some t := by
      rcases hbinds hs with ⟨t, ht⟩ | hp
      · exact ⟨t, hρ.extended p t ht⟩
      · exact Option.isSome_iff_exists.mp (hcovers p hp.1 hp.2)
    obtain ⟨t, ht⟩ := hρp
    rw [← get?_getD_of_solves h hρ hs, ht]
    rfl

theorem isSome_unifyAll_iff (hσ : σ.Within params) (pairs : List (SmtSort × SmtSort)) :
    (unifyAll params σ (pairs.map Prod.fst) (pairs.map Prod.snd)).isSome = true ↔
      ∃ ρ : Subst, ρ.Solves params σ pairs := by
  constructor
  · intro h
    obtain ⟨τ, hτ⟩ := Option.isSome_iff_exists.mp h
    exact ⟨τ, (leastSolution_of_unifyAll hσ hτ).solves⟩
  · rintro ⟨ρ, hρ⟩
    obtain ⟨τ, hτ, -⟩ := exists_unifyAll_of_solves hρ
    rw [hτ]
    rfl

theorem unify_eq_unifyAll (params : List String) (σ : Subst) (s t : SmtSort) :
    unify params σ s t = unifyAll params σ [s] [t] := by
  rw [unifyAll]
  cases unify params σ s t <;> rfl

/-- Matching a pattern against a sort, or several patterns against as many sorts one after another,
succeeds if and only if a substitution of the parameters solves the pairs, and then returns the
least solution. -/
theorem unify_least (hσ : σ.Within params) :
    (∀ s t : SmtSort,
      ((unify params σ s t).isSome = true ↔ ∃ ρ : Subst, ρ.Solves params σ [(s, t)]) ∧
      ∀ τ, unify params σ s t = some τ → τ.LeastSolution params σ [(s, t)]) ∧
    ∀ pairs : List (SmtSort × SmtSort),
      let matched := unifyAll params σ (pairs.map Prod.fst) (pairs.map Prod.snd)
      (matched.isSome = true ↔ ∃ ρ : Subst, ρ.Solves params σ pairs) ∧
      ∀ τ, matched = some τ → τ.LeastSolution params σ pairs := by
  refine ⟨fun s t => ?_, fun pairs => ?_⟩
  · rw [unify_eq_unifyAll]
    exact ⟨isSome_unifyAll_iff hσ [(s, t)], fun τ hτ => leastSolution_of_unifyAll hσ hτ⟩
  · exact ⟨isSome_unifyAll_iff hσ pairs, fun τ hτ => leastSolution_of_unifyAll hσ hτ⟩

/-- The pairs of an array sort whose index sort is bound to `Int` already. -/
def arrayPairs (element : String) : List (SmtSort × SmtSort) :=
  [(.mk (.simple "Array") [.simple "X", .simple "Y"],
    .mk (.simple "Array") [.simple "Int", .simple "Bool"]), (.simple "Y", .simple element)]

/-- The element sort is found in the first pair, and the second one has to agree with it. -/
theorem unify_least_array :
    let σ : Subst := [("X", .simple "Int")]
    σ.Within ["X", "Y"] ∧
      Subst.LeastSolution [("Y", .simple "Bool"), ("X", .simple "Int")] ["X", "Y"] σ
        (arrayPairs "Bool") ∧
      ¬ ∃ ρ : Subst, ρ.Solves ["X", "Y"] σ (arrayPairs "Int") := by
  intro σ
  have hσ : σ.Within ["X", "Y"] := by
    intro p s hs
    by_cases hp : p = "X"
    · exact hp ▸ List.mem_cons_self
    · rw [Subst.get?_cons_of_ne [] _ hp] at hs
      cases hs
  refine ⟨hσ, ((unify_least hσ).2 (arrayPairs "Bool")).2 _ (by decide +kernel), fun hsolved => ?_⟩
  have hsome := ((unify_least hσ).2 (arrayPairs "Int")).1.mpr hsolved
  revert hsome
  decide +kernel

end SmtSort

end WellSorted
