import WellSorted.Proofs.Matching
import WellSorted.Proofs.Signatures

/-!
# Signatures up to renaming

Two functions have the same signature if and only if they take as many arguments and have as many
parameters, and a one-to-one correspondence of the parameters that occur carries one signature to the
other (`FunDecl.CarriedTo`). The walk along both signatures that finds the correspondence matches
each of them against the other at once: the pairs that it collects are a unifier in both directions
(`SmtSort.unifyAll_of_renameAll?`). Correspondences compose, so having the same signature is an
equivalence.
-/

namespace WellSorted

/-- Bind each parameter to the name that stands for it. -/
def Subst.renaming (params : List String) (φ : String → String) : Subst :=
  params.map fun p => (p, .simple (φ p))

namespace SmtSort

variable {params : List String} {φ : String → String} {p : String}

theorem replace_renaming (params : List String) (φ : String → String) (p : String) :
    (simple p).replace (.renaming params φ) = simple (if p ∈ params then φ p else p) := by
  rw [replace_simple, Subst.renaming, Subst.get?_graph]
  split <;> rfl

theorem within_renaming (params : List String) (φ : String → String) :
    (Subst.renaming params φ).Within params := by
  intro p s hs
  rw [Subst.renaming, Subst.get?_graph] at hs
  by_contra hp
  rw [if_neg hp] at hs
  cases hs

end SmtSort

namespace FunDecl

/-- The parameters that occur in the signature of a function. -/
def usedParams (f : FunDecl) : Set String :=
  {p | p ∈ f.params ∧ SmtSort.anyMentions p f.signature = true}

/-- Whether a one-to-one correspondence of the parameters that occur carries the signature of a
function to that of another one. Sorts that are no parameters stay as they are, and they are no
parameters of the other function. -/
structure CarriedTo (f : FunDecl) (φ : String → String) (g : FunDecl) : Prop where
  bijOn : Set.BijOn φ f.usedParams g.usedParams
  signature : f.signature.map (SmtSort.replace (.renaming f.params φ)) = g.signature
  apart : ∀ q ∈ g.params, SmtSort.anyMentions q f.signature = true → q ∈ f.params

end FunDecl

/-! ### The pairs that are found -/

namespace Renaming

/-- The substitution of the first names by the second ones. -/
def subst (ρ : Renaming) : Subst := ρ.map fun pq => (pq.1, .simple pq.2)

theorem swap_swap (ρ : Renaming) : ρ.swap.swap = ρ := by
  rw [swap, swap, List.map_map, Prod.swap_swap_eq, List.map_id]

/-- The name that stands for another one. -/
def apply (ρ : Renaming) (p : String) : String := ((ρ.find? (·.1 == p)).map (·.2)).getD p

theorem get?_subst (ρ : Renaming) (p : String) :
    ρ.subst.get? p = (ρ.find? (·.1 == p)).map fun pq => .simple pq.2 := by
  induction ρ with
  | nil => rfl
  | cons pq ρ ih =>
    obtain ⟨p', q⟩ := pq
    rw [subst, List.map_cons, List.find?_cons]
    by_cases h : p = p'
    · rw [h, Subst.get?_cons_self, beq_self_eq_true]
      rfl
    · have hne : (p' == p) = false := by simpa using Ne.symm h
      rw [Subst.get?_cons_of_ne _ _ h, hne]
      exact ih

theorem get?_subst_of_isSome {ρ : Renaming} {p : String} (h : (ρ.subst.get? p).isSome = true) :
    ρ.subst.get? p = some (.simple (ρ.apply p)) := by
  rw [get?_subst, Option.isSome_map] at h
  obtain ⟨pq, hpq⟩ := Option.isSome_iff_exists.mp h
  rw [get?_subst, apply, hpq]
  rfl

/-- What a name stands for is a name for which something stands. -/
theorem isSome_swap_apply {ρ : Renaming} {p : String} (h : (ρ.subst.get? p).isSome = true) :
    (ρ.swap.subst.get? (ρ.apply p)).isSome = true := by
  rw [get?_subst, Option.isSome_map] at h
  obtain ⟨pq, hpq⟩ := Option.isSome_iff_exists.mp h
  have happly : ρ.apply p = pq.2 := by rw [apply, hpq]; rfl
  rw [get?_subst, Option.isSome_map, find?_swap_fst, Option.isSome_map, happly]
  exact List.find?_isSome.mpr ⟨pq, List.mem_of_find?_eq_some hpq, beq_self_eq_true _⟩

/-- A pair is new, or both of its names stand for each other already. -/
theorem pair?_eq_some {ρ ρ' : Renaming} {p q : String} (h : ρ.pair? p q = some ρ') :
    (ρ.subst.get? p = none ∧ ρ' = (p, q) :: ρ) ∨
      (ρ.subst.get? p = some (.simple q) ∧ ρ' = ρ) := by
  rw [get?_subst]
  unfold pair? at h
  split at h
  · next hp _ =>
    rw [hp]
    exact .inl ⟨rfl, (Option.some.inj h).symm⟩
  · next p' q' p'' q'' hp _ =>
    split at h
    · next heq =>
      rw [hp, ← heq.1]
      exact .inr ⟨rfl, (Option.some.inj h).symm⟩
    · cases h
  · cases h

/-- Whether all pairs belong to a correspondence of some names. -/
def Follows (ρ : Renaming) (φ : String → String) (S : Set String) : Prop :=
  ∀ pq ∈ ρ, pq.1 ∈ S ∧ φ pq.1 = pq.2

/-- A pair of a one-to-one correspondence is never turned away. -/
theorem Follows.pair? {ρ : Renaming} {φ : String → String} {S : Set String} (h : ρ.Follows φ S)
    (hφ : S.InjOn φ) {p : String} (hp : p ∈ S) :
    ∃ ρ', ρ.pair? p (φ p) = some ρ' ∧ ρ'.Follows φ S := by
  have hsecond {pq : String × String} (hpq : ρ.find? (·.2 == φ p) = some pq) : pq.1 = p := by
    have hmem := h pq (List.mem_of_find?_eq_some hpq)
    have hq : pq.2 = φ p := by simpa using List.find?_some hpq
    exact hφ hmem.1 hp (hmem.2.trans hq)
  unfold Renaming.pair?
  cases hfst : ρ.find? (·.1 == p) with
  | none =>
    cases hsnd : ρ.find? (·.2 == φ p) with
    | none =>
      refine ⟨_, rfl, fun pq hpq => ?_⟩
      rcases List.mem_cons.mp hpq with rfl | hpq
      · exact ⟨hp, rfl⟩
      · exact h pq hpq
    | some pq =>
      have hne := List.find?_eq_none.mp hfst pq (List.mem_of_find?_eq_some hsnd)
      exact absurd (beq_iff_eq.mpr (hsecond hsnd)) hne
  | some pq =>
    have hmem := List.mem_of_find?_eq_some hfst
    have hpq : pq.1 = p := by simpa using List.find?_some hfst
    have hq : pq.2 = φ p := by rw [← (h pq hmem).2, hpq]
    cases hsnd : ρ.find? (·.2 == φ p) with
    | none => exact absurd (beq_iff_eq.mpr hq) (List.find?_eq_none.mp hsnd pq hmem)
    | some pq' => exact ⟨ρ, if_pos ⟨hq, hsecond hsnd⟩, h⟩

end Renaming

namespace SmtSort

mutual

/-- The pairs that a walk finds unify the first sort with the second. -/
theorem unify_of_rename? {ps qs : List String} : ∀ {ρ ρ' : Renaming} {s t : SmtSort},
    rename? ps qs ρ s t = some ρ' → unify ps ρ.subst s t = some ρ'.subst
  | ρ, ρ', mk head args, t, h => by
    rw [rename?] at h
    rw [unify]
    cases hp : asParam ps (mk head args) with
    | some p =>
      cases hq : asParam qs t with
      | some q =>
        rw [hp, hq] at h
        obtain ⟨rfl, -⟩ := asParam_eq_some.mp hq
        rcases Renaming.pair?_eq_some h with ⟨hnone, rfl⟩ | ⟨hsome, rfl⟩
        · simp only [hnone]
          rfl
        · simp only [hsome, if_true]
      | none =>
        rw [hp, hq] at h
        cases h
    | none =>
      cases hq : asParam qs t with
      | some q =>
        rw [hp, hq] at h
        cases h
      | none =>
        simp only [hp, hq] at h ⊢
        split at h
        · next hhead =>
          rw [if_pos hhead]
          exact unifyAll_of_renameAll? h
        · cases h

theorem unifyAll_of_renameAll? {ps qs : List String} : ∀ {ρ ρ' : Renaming} {ss ts : List SmtSort},
    renameAll? ps qs ρ ss ts = some ρ' → unifyAll ps ρ.subst ss ts = some ρ'.subst
  | ρ, ρ', [], [], h => by
    cases h
    rfl
  | ρ, ρ', s :: ss, t :: ts, h => by
    rw [renameAll?] at h
    split at h
    · next ρ'' hρ'' =>
      rw [unifyAll, unify_of_rename? hρ'']
      exact unifyAll_of_renameAll? h
    · cases h

end

mutual

/-- A walk along a sort and what a one-to-one correspondence makes of it goes through. -/
theorem rename?_of_follows {ps qs : List String} {φ : String → String} {S : Set String}
    (hφ : S.InjOn φ) (hS : ∀ p ∈ S, φ p ∈ qs) : ∀ {ρ : Renaming} (s : SmtSort), ρ.Follows φ S →
    (∀ p ∈ ps, s.mentions p = true → p ∈ S) → (∀ q ∈ qs, s.mentions q = true → q ∈ ps) →
    ∃ ρ', rename? ps qs ρ s (s.replace (.renaming ps φ)) = some ρ' ∧ ρ'.Follows φ S
  | ρ, mk head args, hρ, hmentions, hapart => by
    rw [rename?]
    cases hparam : asParam ps (mk head args) with
    | some p =>
      obtain ⟨heq, hp⟩ := asParam_eq_some.mp hparam
      have hpS : p ∈ S := hmentions p hp (by rw [heq, mentions_simple, beq_self_eq_true])
      have hq : asParam qs ((mk head args).replace (.renaming ps φ)) = some (φ p) := by
        rw [heq, replace_renaming, if_pos hp]
        exact asParam_eq_some.mpr ⟨rfl, hS p hpS⟩
      rw [hq]
      exact hρ.pair? hφ hpS
    | none =>
      rw [replace_of_asParam_eq_none (within_renaming ps φ) hparam]
      have hq : asParam qs (mk head (replaceAll (.renaming ps φ) args)) = none := by
        refine asParam_eq_none.mpr fun q hq heq => ?_
        rw [mk_eq_simple, replaceAll_eq_map, List.map_eq_nil_iff] at heq
        have hatom : mk head args = simple q := mk_eq_simple.mpr heq
        refine asParam_eq_none.mp hparam q (hapart q hq ?_) hatom
        rw [hatom, mentions_simple, beq_self_eq_true]
      simp only [hq, SmtSort.head, SmtSort.args, ↓reduceIte]
      exact renameAll?_of_follows hφ hS args hρ
        (fun p hp h => hmentions p hp ((mentions_of_asParam_eq_none hparam hp).trans h))
        fun q hq h => by
          obtain ⟨s, hs, hsq⟩ := anyMentions_iff.mp h
          exact hapart q hq (mentions_of_mem hs hsq)

theorem renameAll?_of_follows {ps qs : List String} {φ : String → String} {S : Set String}
    (hφ : S.InjOn φ) (hS : ∀ p ∈ S, φ p ∈ qs) : ∀ {ρ : Renaming} (ss : List SmtSort),
    ρ.Follows φ S → (∀ p ∈ ps, anyMentions p ss = true → p ∈ S) →
    (∀ q ∈ qs, anyMentions q ss = true → q ∈ ps) →
    ∃ ρ', renameAll? ps qs ρ ss (replaceAll (.renaming ps φ) ss) = some ρ' ∧ ρ'.Follows φ S
  | ρ, [], hρ, _, _ => ⟨ρ, rfl, hρ⟩
  | ρ, s :: ss, hρ, hmentions, hapart => by
    simp only [anyMentions, Bool.or_eq_true] at hmentions hapart
    obtain ⟨ρ', hs, hρ'⟩ := rename?_of_follows hφ hS s hρ (fun p hp h => hmentions p hp (.inl h))
      fun q hq h => hapart q hq (.inl h)
    obtain ⟨ρ'', hss, hρ''⟩ := renameAll?_of_follows hφ hS ss hρ'
      (fun p hp h => hmentions p hp (.inr h)) fun q hq h => hapart q hq (.inr h)
    exact ⟨ρ'', by rw [replaceAll, renameAll?, hs]; exact hss, hρ''⟩

end

end SmtSort

/-! ### Signatures -/

namespace FunDecl

variable {f g : FunDecl} {ρ : Renaming}

/-- What a walk along two signatures finds: pairs of exactly the parameters that occur in the first
one, which take it to the second. -/
structure Walked (f g : FunDecl) (ρ : Renaming) : Prop where
  bound : ∀ p, (ρ.subst.get? p).isSome = true ↔ p ∈ f.usedParams
  replaced : f.signature.map (SmtSort.replace ρ.subst) = g.signature

theorem walked_of_renameAll?
    (hρ : SmtSort.renameAll? f.params g.params [] f.signature g.signature = some ρ) :
    f.Walked g ρ := by
  obtain ⟨hmatched, hreplace⟩ := SmtSort.unifyAll_sound (SmtSort.unifyAll_of_renameAll? hρ)
  have hbound (p : String) : (ρ.subst.get? p).isSome = true ↔ p ∈ f.usedParams := by
    rw [hmatched.bound p]
    simp [Renaming.subst, Subst.get?, usedParams]
  refine ⟨hbound, ?_⟩
  rw [← SmtSort.replaceAll_eq_map]
  refine hreplace _ (Subst.extends_refl _) fun p s hs => ?_
  exact ((hbound p).mp (by rw [hs]; rfl)).1

theorem walked_swap_of_renameAll?
    (hρ : SmtSort.renameAll? f.params g.params [] f.signature g.signature = some ρ) :
    g.Walked f ρ.swap := by
  refine walked_of_renameAll? ?_
  rw [show ([] : Renaming) = Renaming.swap [] from rfl, SmtSort.renameAll?_swap, hρ]
  rfl

namespace Walked

theorem replace_simple (h : f.Walked g ρ) {p : String}
    (hp : SmtSort.anyMentions p f.signature = true) :
    (SmtSort.simple p).replace ρ.subst = .simple (if p ∈ f.params then ρ.apply p else p) := by
  rw [SmtSort.replace_simple]
  split
  · next hparam => rw [Renaming.get?_subst_of_isSome ((h.bound p).mpr ⟨hparam, hp⟩)]; rfl
  · next hparam =>
    have hnone : ρ.subst.get? p = none := by
      rw [← Option.not_isSome_iff_eq_none, h.bound p]
      exact fun hused => hparam hused.1
    rw [hnone]
    rfl

variable (h : f.Walked g ρ) (h' : g.Walked f ρ.swap)

include h h'

theorem mapsTo : Set.MapsTo ρ.apply f.usedParams g.usedParams :=
  fun p hp => (h'.bound _).mp (Renaming.isSome_swap_apply ((h.bound p).mpr hp))

/-- There and back again, every name of the first signature is where it was. -/
theorem replace_replace {p : String} (hp : SmtSort.anyMentions p f.signature = true) :
    ((SmtSort.simple p).replace ρ.subst).replace ρ.swap.subst = .simple p := by
  have hback : f.signature.map (SmtSort.replace ρ.swap.subst ∘ SmtSort.replace ρ.subst) =
      f.signature.map (SmtSort.replace []) := by
    rw [← List.map_map, h.replaced, h'.replaced, funext SmtSort.replace_nil, List.map_id']
  obtain ⟨s, hs, hsp⟩ := SmtSort.anyMentions_iff.mp hp
  have hatom := SmtSort.replace_replace_eq_iff.mp (List.map_inj_left.mp hback s hs) p hsp
  rwa [SmtSort.replace_nil] at hatom

theorem leftInvOn : Set.LeftInvOn ρ.swap.apply ρ.apply f.usedParams := by
  intro p hp
  have hback := h.replace_replace h' hp.2
  have hq := h.mapsTo h' hp
  rw [h.replace_simple hp.2, if_pos hp.1, h'.replace_simple hq.2, if_pos hq.1] at hback
  exact SmtSort.simple_inj.mp hback

/-- A parameter of the second function that is in the first signature as a sort would come back as
the parameter that it stands for. -/
theorem apart {q : String} (hq : q ∈ g.params) (hmentions : SmtSort.anyMentions q f.signature = true) :
    q ∈ f.params := by
  by_contra hparam
  have hstays : (SmtSort.simple q).replace ρ.subst = .simple q := by
    rw [h.replace_simple hmentions, if_neg hparam]
  have hused : q ∈ g.usedParams :=
    ⟨hq, h.replaced ▸ SmtSort.anyMentions_replace hstays hmentions⟩
  have hback := h.replace_replace h' hmentions
  rw [hstays, h'.replace_simple hused.2, if_pos hq, SmtSort.simple_inj] at hback
  have hmaps : ρ.swap.apply q ∈ f.usedParams := by
    refine h'.mapsTo ?_ hused
    rwa [Renaming.swap_swap]
  rw [hback] at hmaps
  exact hparam hmaps.1

theorem carriedTo : f.CarriedTo ρ.apply g := by
  have hswap : f.Walked g ρ.swap.swap := by rwa [Renaming.swap_swap]
  refine ⟨?_, ?_, fun q hq => h.apart h' hq⟩
  · refine Set.InvOn.bijOn ⟨h.leftInvOn h', ?_⟩ (h.mapsTo h') (h'.mapsTo hswap)
    have hright := h'.leftInvOn hswap
    rwa [Renaming.swap_swap] at hright
  · rw [← h.replaced]
    refine List.map_congr_left fun s hs => SmtSort.replace_eq_replace_iff.mpr fun p hp => ?_
    rw [SmtSort.replace_renaming, h.replace_simple (SmtSort.anyMentions_iff.mpr ⟨s, hs, hp⟩)]

end Walked

theorem isSome_renameAll?_iff :
    (SmtSort.renameAll? f.params g.params [] f.signature g.signature).isSome = true ↔
      ∃ φ, f.CarriedTo φ g := by
  constructor
  · intro hsome
    obtain ⟨ρ, hρ⟩ := Option.isSome_iff_exists.mp hsome
    exact ⟨ρ.apply, (walked_of_renameAll? hρ).carriedTo (walked_swap_of_renameAll? hρ)⟩
  · rintro ⟨φ, hφ⟩
    have hnil : Renaming.Follows [] φ f.usedParams := fun pq hpq => absurd hpq List.not_mem_nil
    obtain ⟨ρ, hρ, -⟩ := SmtSort.renameAll?_of_follows hφ.bijOn.injOn
      (fun p hp => (hφ.bijOn.mapsTo hp).1) f.signature hnil (fun p hp h => ⟨hp, h⟩) hφ.apart
    rw [SmtSort.replaceAll_eq_map, hφ.signature] at hρ
    rw [hρ]
    rfl

/-- Without parameters there is nothing to rename. -/
theorem carriedTo_of_no_params {φ : String → String} (hf : f.params = []) (hg : g.params = []) :
    f.CarriedTo φ g ↔ f.signature = g.signature := by
  have hnone {k : FunDecl} (hk : k.params = []) : k.usedParams = ∅ := by
    rw [usedParams, hk]
    exact Set.eq_empty_of_forall_notMem fun p hp => absurd hp.1 List.not_mem_nil
  have hself : f.signature.map (SmtSort.replace (.renaming f.params φ)) = f.signature := by
    rw [hf, Subst.renaming, List.map_nil, funext SmtSort.replace_nil, List.map_id']
  constructor
  · intro h
    rw [← h.signature, hself]
  · intro h
    refine ⟨?_, hself.trans h, fun q hq => ?_⟩
    · rw [hnone hf, hnone hg]
      exact Set.bijOn_empty φ
    · rw [hg] at hq
      exact absurd hq List.not_mem_nil

theorem signature_inj : f.signature = g.signature ↔ f.args = g.args ∧ f.result = g.result := by
  constructor
  · intro h
    obtain ⟨hargs, hresult⟩ := List.append_inj' h rfl
    exact ⟨hargs, List.singleton_inj.mp hresult⟩
  · rintro ⟨hargs, hresult⟩
    rw [signature, signature, hargs, hresult]

theorem sameSignature_iff_carriedTo (f g : FunDecl) : f.sameSignature g = true ↔
    f.args.length = g.args.length ∧ f.params.length = g.params.length ∧ ∃ φ, f.CarriedTo φ g := by
  by_cases hlength : f.args.length = g.args.length ∧ f.params.length = g.params.length
  · simp only [hlength.1, hlength.2, true_and]
    by_cases hf : f.params = []
    · have hg : g.params = [] := by
        rw [← List.length_eq_zero_iff, ← hlength.2, hf, List.length_nil]
      simp only [sameSignature_of_no_params hf hg, carriedTo_of_no_params hf hg, signature_inj,
        exists_const]
    · have hne : f.params.isEmpty = false := by simpa using hf
      rw [← isSome_renameAll?_iff, sameSignature, if_neg (by simp [hlength.1, hlength.2]), hne]
      rfl
  · have hne : f.args.length ≠ g.args.length ∨ f.params.length ≠ g.params.length :=
      not_and_or.mp hlength
    rw [sameSignature, if_pos hne]
    exact iff_of_false Bool.false_ne_true fun h => hlength ⟨h.1, h.2.1⟩

/-- The sort `B` of the first function is no parameter, so it does not stand for the second one's. -/
example (n : Node) :
    let f := symbol "f" ["A"] [.simple "A"] (.simple "B") n
    f.sameSignature (symbol "f" ["C"] [.simple "C"] (.simple "B") n) = true ∧
      f.sameSignature (symbol "f" ["B"] [.simple "B"] (.simple "B") n) = false :=
  ⟨rfl, rfl⟩

/-! ### Correspondences compose -/

theorem CarriedTo.trans {k : FunDecl} {φ ψ : String → String} (h : f.CarriedTo φ g)
    (h' : g.CarriedTo ψ k) : f.CarriedTo (ψ ∘ φ) k := by
  have hproper {p : String} (hp : SmtSort.anyMentions p f.signature = true) (hparam : p ∉ f.params) :
      p ∉ g.params ∧ SmtSort.anyMentions p g.signature = true := by
    refine ⟨fun hg => hparam (h.apart p hg hp), ?_⟩
    rw [← h.signature]
    refine SmtSort.anyMentions_replace ?_ hp
    rw [SmtSort.replace_renaming, if_neg hparam]
  refine ⟨h'.bijOn.comp h.bijOn, ?_, fun q hq hmentions => ?_⟩
  · rw [← h'.signature, ← h.signature, List.map_map]
    refine List.map_congr_left fun s hs => Eq.symm (SmtSort.replace_replace_eq_iff.mpr fun p hp => ?_)
    have hmentions : SmtSort.anyMentions p f.signature = true :=
      SmtSort.anyMentions_iff.mpr ⟨s, hs, hp⟩
    rw [SmtSort.replace_renaming, SmtSort.replace_renaming, SmtSort.replace_renaming]
    by_cases hparam : p ∈ f.params
    · have hused : φ p ∈ g.usedParams := h.bijOn.mapsTo ⟨hparam, hmentions⟩
      rw [if_pos hparam, if_pos hparam, if_pos hused.1]
      rfl
    · rw [if_neg hparam, if_neg hparam, if_neg (hproper hmentions hparam).1]
  · by_contra hparam
    obtain ⟨hg, hgmentions⟩ := hproper hmentions hparam
    exact hg (h'.apart q hq hgmentions)

theorem sameSignature_trans {k : FunDecl} (h : f.sameSignature g = true)
    (h' : g.sameSignature k = true) : f.sameSignature k = true := by
  rw [sameSignature_iff_carriedTo] at h h' ⊢
  obtain ⟨hargs, hparams, φ, hφ⟩ := h
  obtain ⟨hargs', hparams', ψ, hψ⟩ := h'
  exact ⟨hargs.trans hargs', hparams.trans hparams', ψ ∘ φ, hφ.trans hψ⟩

/-- Functions have the same signature exactly if they have as many arguments and parameters and a
one-to-one correspondence of the parameters that occur carries one signature to the other; and this
is an equivalence. -/
theorem sameSignature_up_to_renaming :
    (∀ f g : FunDecl, f.sameSignature g = true ↔ f.args.length = g.args.length ∧
      f.params.length = g.params.length ∧ ∃ φ, f.CarriedTo φ g) ∧
    Equivalence fun f g : FunDecl => f.sameSignature g = true := by
  refine ⟨sameSignature_iff_carriedTo, sameSignature_refl, fun {f g} h => ?_, sameSignature_trans⟩
  rw [sameSignature_comm]
  exact h

end FunDecl

end WellSorted
