import Mathlib
import WellSorted.Sorts.Substitution

/-!
# Substitution in sorts

A substitution is known by what it binds, and what it makes of a sort by what it makes of the names
that the sort mentions as atoms (`SmtSort.replace_replace_eq_iff`). A sort is an atom, or a node with
arguments or indices that a substitution leaves standing; proofs go by induction along this
(`SmtSort.atomInd`).
-/

namespace WellSorted

namespace Subst

def Extends (τ σ : Subst) : Prop := ∀ p s, σ.get? p = some s → τ.get? p = some s

/-- Whether only parameters are bound. -/
def Within (σ : Subst) (params : List String) : Prop := ∀ p s, σ.get? p = some s → p ∈ params

/-- Whether the parameters are what is bound. -/
def Total (σ : Subst) (params : List String) : Prop := ∀ p, p ∈ params ↔ (σ.get? p).isSome = true

theorem extends_refl (σ : Subst) : σ.Extends σ := fun _ _ h => h

theorem Extends.trans {ρ τ σ : Subst} (h : ρ.Extends τ) (h' : τ.Extends σ) : ρ.Extends σ :=
  fun p s hs => h p s (h' p s hs)

theorem extends_nil (σ : Subst) : σ.Extends [] := nofun

theorem get?_cons_self (σ : Subst) (p : String) (s : SmtSort) : get? ((p, s) :: σ) p = some s := by
  simp [get?]

theorem get?_cons_of_ne (σ : Subst) {p q : String} (s : SmtSort) (h : q ≠ p) :
    get? ((p, s) :: σ) q = σ.get? q := by
  have : (q == p) = false := by simpa using h
  simp [get?, List.lookup, this]

theorem extends_cons {σ : Subst} {p : String} (s : SmtSort) (h : σ.get? p = none) :
    Extends ((p, s) :: σ) σ := by
  intro q t ht
  have hne : q ≠ p := by
    rintro rfl
    rw [h] at ht
    cases ht
  rw [get?_cons_of_ne σ s hne]
  exact ht

theorem Total.within {σ : Subst} {params : List String} (h : σ.Total params) : σ.Within params :=
  fun p s hs => (h p).mpr (by rw [hs]; rfl)

theorem missing_isEmpty {σ : Subst} {params : List String} :
    (σ.missing params).isEmpty = true ↔ ∀ p ∈ params, (σ.get? p).isSome = true := by
  simp [missing, Option.isSome_iff_ne_none]

/-- What is bound if each parameter is bound to what a function makes of it. -/
theorem get?_graph (params : List String) (f : String → SmtSort) (p : String) :
    get? (params.map fun p => (p, f p)) p = if p ∈ params then some (f p) else none := by
  split
  · next hp => exact List.lookup_graph f hp
  · next hp =>
    refine List.lookup_eq_none_iff.mpr fun x hx => ?_
    obtain ⟨q, hq, rfl⟩ := List.mem_map.mp hx
    refine bne_iff_ne.mpr ?_
    rintro rfl
    exact hp hq

/-- Apply a function to the sorts that are bound. -/
def mapSorts (f : SmtSort → SmtSort) (σ : Subst) : Subst := σ.map fun x => (x.1, f x.2)

theorem get?_mapSorts (f : SmtSort → SmtSort) (σ : Subst) (p : String) :
    (σ.mapSorts f).get? p = (σ.get? p).map f := by
  induction σ with
  | nil => rfl
  | cons x σ ih =>
    obtain ⟨q, s⟩ := x
    rw [mapSorts, List.map_cons]
    by_cases h : p = q
    · rw [h, get?_cons_self, get?_cons_self]
      rfl
    · rw [get?_cons_of_ne _ _ h, get?_cons_of_ne _ _ h]
      exact ih

end Subst

namespace SmtSort

/-! ### Induction over sorts -/

mutual

theorem ind {P : SmtSort → Prop} (h : ∀ head args, (∀ s ∈ args, P s) → P (mk head args)) :
    ∀ s, P s
  | mk head args => h head args (indAll h args)

theorem indAll {P : SmtSort → Prop} (h : ∀ head args, (∀ s ∈ args, P s) → P (mk head args)) :
    ∀ ss : List SmtSort, ∀ s ∈ ss, P s
  | [] => fun _ hs => absurd hs List.not_mem_nil
  | s :: ss => List.forall_mem_cons.mpr ⟨ind h s, indAll h ss⟩

end

theorem mk_eq_simple {head : Identifier} {args : List SmtSort} {p : String} :
    mk head args = simple p ↔ head = .simple p ∧ args = [] := by
  rw [simple, mk.injEq]

theorem simple_inj {p q : String} : simple p = simple q ↔ p = q := by
  rw [simple, simple, mk.injEq, Identifier.simple, Identifier.simple, Identifier.mk.injEq]
  simp only [and_true]

/-- Atoms and nodes that are no atoms. -/
theorem atomInd {P : SmtSort → Prop} (atom : ∀ p, P (simple p))
    (node : ∀ head args, (∀ p, mk head args ≠ simple p) → (∀ s ∈ args, P s) → P (mk head args))
    (s : SmtSort) : P s := by
  induction s using ind with
  | h head args ih =>
    by_cases hatom : ∃ p, mk head args = simple p
    · obtain ⟨p, hp⟩ := hatom
      rw [hp]
      exact atom p
    · exact node head args (fun p hp => hatom ⟨p, hp⟩) ih

/-! ### Parameters in sorts -/

theorem asParam_eq_some {params : List String} {s : SmtSort} {p : String} :
    asParam params s = some p ↔ s = simple p ∧ p ∈ params := by
  obtain ⟨⟨x, indices⟩, args⟩ := s
  simp only [asParam, isAtom, head, SmtSort.args, Identifier.isIndexed, Bool.not_not,
    Bool.and_eq_true, List.isEmpty_iff, simple, Identifier.simple, mk.injEq, Identifier.mk.injEq]
  constructor
  · intro h
    split at h
    · next hatom =>
      have hx : p = x := by simpa using List.find?_some h
      exact ⟨⟨⟨hx.symm, hatom.1⟩, hatom.2⟩, List.mem_of_find?_eq_some h⟩
    · cases h
  · rintro ⟨⟨⟨rfl, rfl⟩, rfl⟩, hmem⟩
    rw [if_pos ⟨rfl, rfl⟩]
    cases hfind : params.find? (· == x) with
    | none => exact absurd hmem (by simpa using List.find?_eq_none.mp hfind x)
    | some y => rw [show y = x by simpa using List.find?_some hfind]

theorem asParam_eq_none {params : List String} {s : SmtSort} :
    asParam params s = none ↔ ∀ p ∈ params, s ≠ simple p := by
  constructor
  · intro h p hp hs
    rw [asParam_eq_some.mpr ⟨hs, hp⟩] at h
    cases h
  · intro h
    cases hs : asParam params s with
    | none => rfl
    | some p =>
      obtain ⟨heq, hp⟩ := asParam_eq_some.mp hs
      exact absurd heq (h p hp)

/-- Whether a sort is a parameter depends on its head, and on whether it has arguments. -/
theorem asParam_eq_none_of_length {params : List String} {head : Identifier}
    {args args' : List SmtSort} (hlength : args'.length = args.length)
    (h : asParam params (mk head args) = none) : asParam params (mk head args') = none := by
  rw [asParam_eq_none] at h ⊢
  intro p hp heq
  obtain ⟨hhead, hargs'⟩ := mk_eq_simple.mp heq
  rw [hargs', List.length_nil, eq_comm, List.length_eq_zero_iff] at hlength
  exact h p hp (mk_eq_simple.mpr ⟨hhead, hlength⟩)

/-! ### Names in sorts -/

theorem anyMentions_iff {p : String} {ss : List SmtSort} :
    anyMentions p ss = true ↔ ∃ s ∈ ss, s.mentions p = true := by
  induction ss with
  | nil => simp [anyMentions]
  | cons s ss ih => rw [anyMentions, Bool.or_eq_true, ih, List.exists_mem_cons_iff]

theorem mentions_simple (p q : String) : (simple q).mentions p = (q == p) := by
  simp [simple, mentions, anyMentions, Identifier.simple, Identifier.isIndexed]

theorem mentions_of_ne_simple {head : Identifier} {args : List SmtSort} {p : String}
    (h : mk head args ≠ simple p) : (mk head args).mentions p = anyMentions p args := by
  rw [mentions]
  cases hatom : (!head.isIndexed && args.isEmpty && head.symbol == p) with
  | false => rw [Bool.false_or]
  | true =>
    refine absurd ?_ h
    simp only [Identifier.isIndexed, Bool.not_not, Bool.and_eq_true, List.isEmpty_iff,
      beq_iff_eq] at hatom
    obtain ⟨⟨hindices, rfl⟩, rfl⟩ := hatom
    rw [simple, Identifier.simple, ← hindices]

theorem mentions_of_asParam_eq_none {params : List String} {head : Identifier}
    {args : List SmtSort} (h : asParam params (mk head args) = none) {p : String} (hp : p ∈ params) :
    (mk head args).mentions p = anyMentions p args :=
  mentions_of_ne_simple (asParam_eq_none.mp h p hp)

theorem mentions_of_mem {p : String} {head : Identifier} {args : List SmtSort} {s : SmtSort}
    (hs : s ∈ args) (h : s.mentions p = true) : (mk head args).mentions p = true := by
  rw [mentions, Bool.or_eq_true]
  exact .inr (anyMentions_iff.mpr ⟨s, hs, h⟩)

/-! ### Replacing -/

theorem replace_simple (σ : Subst) (p : String) :
    (simple p).replace σ = (σ.get? p).getD (simple p) := by
  simp [simple, replace, Identifier.simple, Identifier.isIndexed]

theorem replace_mk_of_ne_simple (σ : Subst) {head : Identifier} {args : List SmtSort}
    (h : ∀ p s, σ.get? p = some s → mk head args ≠ simple p) :
    (mk head args).replace σ = mk head (replaceAll σ args) := by
  rw [replace]
  split
  · next hatom =>
    simp only [Identifier.isIndexed, Bool.not_not, Bool.and_eq_true, List.isEmpty_iff] at hatom
    obtain ⟨hindices, rfl⟩ := hatom
    cases hs : σ.get? head.symbol with
    | none => rfl
    | some s =>
      refine absurd ?_ (h _ _ hs)
      rw [simple, Identifier.simple, ← hindices]
  · rfl

/-- Outside of the parameters a substitution of parameters goes through. -/
theorem replace_of_asParam_eq_none {σ : Subst} {params : List String} {head : Identifier}
    {args : List SmtSort} (hσ : σ.Within params) (h : asParam params (mk head args) = none) :
    (mk head args).replace σ = mk head (replaceAll σ args) :=
  replace_mk_of_ne_simple σ fun p s hs => asParam_eq_none.mp h p (hσ p s hs)

theorem replace_node (σ : Subst) {head : Identifier} {args : List SmtSort}
    (h : ∀ p, mk head args ≠ simple p) :
    (mk head args).replace σ = mk head (args.map (replace σ)) := by
  rw [replace_mk_of_ne_simple σ fun p _ _ => h p, replaceAll_eq_map]

/-- A node is none of the atoms after replacing either. -/
theorem ne_simple_map {head : Identifier} {args : List SmtSort} (h : ∀ p, mk head args ≠ simple p)
    (f : SmtSort → SmtSort) (p : String) : mk head (args.map f) ≠ simple p := by
  intro heq
  rw [mk_eq_simple, List.map_eq_nil_iff] at heq
  exact h p (mk_eq_simple.mpr heq)

/-- The names in a sort after replacing are those in what its names are replaced by. -/
theorem mentions_replace {σ : Subst} {q : String} {s : SmtSort} :
    (s.replace σ).mentions q = true ↔
      ∃ p, s.mentions p = true ∧ ((simple p).replace σ).mentions q = true := by
  induction s using atomInd with
  | atom p => simp only [mentions_simple, beq_iff_eq, exists_eq_left']
  | node head args hne ih =>
    rw [replace_node σ hne, mentions_of_ne_simple (ne_simple_map hne _ q), anyMentions_iff]
    simp only [mentions_of_ne_simple (hne _), anyMentions_iff, List.mem_map]
    constructor
    · rintro ⟨_, ⟨s, hs, rfl⟩, hq⟩
      obtain ⟨p, hp, hpq⟩ := (ih s hs).mp hq
      exact ⟨p, ⟨s, hs, hp⟩, hpq⟩
    · rintro ⟨p, ⟨s, hs, hp⟩, hpq⟩
      exact ⟨_, ⟨s, hs, rfl⟩, (ih s hs).mpr ⟨p, hp, hpq⟩⟩

/-- A name that is replaced by itself stays. -/
theorem anyMentions_replace {σ : Subst} {p : String} (h : (simple p).replace σ = simple p)
    {ss : List SmtSort} (hp : anyMentions p ss = true) :
    anyMentions p (ss.map (replace σ)) = true := by
  obtain ⟨s, hs, hsp⟩ := anyMentions_iff.mp hp
  refine anyMentions_iff.mpr ⟨_, List.mem_map_of_mem hs, mentions_replace.mpr ⟨p, hsp, ?_⟩⟩
  rw [h, mentions_simple, beq_self_eq_true]

/-- Two substitutions one after the other do what a third one does to a sort if and only if they do
so to the names in it. -/
theorem replace_replace_eq_iff {σ τ ρ : Subst} {s : SmtSort} :
    (s.replace σ).replace τ = s.replace ρ ↔
      ∀ p, s.mentions p = true → ((simple p).replace σ).replace τ = (simple p).replace ρ := by
  induction s using atomInd with
  | atom p => simp only [mentions_simple, beq_iff_eq, forall_eq']
  | node head args hne ih =>
    rw [replace_node σ hne, replace_node τ (ne_simple_map hne _), replace_node ρ hne, mk.injEq,
      List.map_map]
    simp only [true_and, mentions_of_ne_simple (hne _), anyMentions_iff, List.map_inj_left]
    constructor
    · rintro h p ⟨s, hs, hp⟩
      exact (ih s hs).mp (h s hs) p hp
    · intro h s hs
      exact (ih s hs).mpr fun p hp => h p ⟨s, hs, hp⟩

theorem replace_nil (s : SmtSort) : s.replace [] = s := by
  induction s using atomInd with
  | atom p => rfl
  | node head args hne ih =>
    rw [replace_node [] hne, List.map_congr_left ih, List.map_id']

/-- Substitutions do the same to a sort if and only if they do so to the names in it. -/
theorem replace_eq_replace_iff {σ τ : Subst} {s : SmtSort} :
    s.replace σ = s.replace τ ↔
      ∀ p, s.mentions p = true → (simple p).replace σ = (simple p).replace τ := by
  have h := replace_replace_eq_iff (σ := σ) (τ := []) (ρ := τ) (s := s)
  simpa only [replace_nil] using h

theorem replace_congr {σ τ : Subst} (h : ∀ p, σ.get? p = τ.get? p) (s : SmtSort) :
    s.replace σ = s.replace τ :=
  replace_eq_replace_iff.mpr fun p _ => by rw [replace_simple, replace_simple, h]

/-- One substitution after another is a single one, unless the second binds a name that the first
leaves in the sort. -/
theorem replace_replace {σ τ : Subst} {s : SmtSort}
    (h : ∀ p, s.mentions p = true → (σ.get? p).isSome = true → (τ.get? p).isSome = true) :
    (s.replace τ).replace σ = s.replace (τ.mapSorts (replace σ)) := by
  refine replace_replace_eq_iff.mpr fun p hp => ?_
  rw [replace_simple, replace_simple, Subst.get?_mapSorts]
  cases hτ : τ.get? p with
  | some t => rfl
  | none =>
    have hσ : σ.get? p = none := by
      rw [← Option.not_isSome_iff_eq_none]
      intro hσ
      have hbound := h p hp hσ
      rw [hτ] at hbound
      cases hbound
    rw [Option.getD_none, replace_simple, hσ]
    rfl

end SmtSort

end WellSorted
