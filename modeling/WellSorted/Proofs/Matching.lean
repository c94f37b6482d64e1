import WellSorted.Proofs.Substitution
import WellSorted.Sorting.Apply

/-!
# Matching signatures

Unification binds exactly the parameters that the pattern mentions, extends what is bound already,
and finds every substitution of the parameters that turns the pattern into the sort
(`unify_sound`, `unify_complete`). So a function has a result on some arguments iff a substitution
of all of its parameters takes its argument sorts to theirs, and each parameter occurs in the sorts
that are matched (`result?_none_eq_some`, `result?_some_eq_some`).
-/

namespace WellSorted

namespace SmtSort

/-! ### Unification -/

/-- What a substitution becomes when sorts are matched that mention some parameters. -/
structure Matched (params : List String) (mentioned : String → Bool) (σ τ : Subst) : Prop where
  extended : τ.Extends σ
  bound : ∀ p, (τ.get? p).isSome = true ↔
    (σ.get? p).isSome = true ∨ (p ∈ params ∧ mentioned p = true)

mutual

theorem unify_sound {params : List String} : ∀ {σ τ : Subst} {s t : SmtSort},
    unify params σ s t = some τ → Matched params (mentions · s) σ τ ∧
      ∀ ρ : Subst, ρ.Extends τ → ρ.Within params → s.replace ρ = t
  | σ, τ, mk head args, t, h => by
    rw [unify] at h
    split at h
    · next p hp =>
      obtain ⟨hs, hmem⟩ := asParam_eq_some.mp hp
      rw [hs]
      split at h
      · next u hu =>
        split at h
        · next hut =>
          cases h
          refine ⟨⟨σ.extends_refl, fun q => ?_⟩, fun ρ hρ _ => ?_⟩
          · rw [mentions_simple, beq_iff_eq]
            constructor
            · exact .inl
            · rintro (hq | ⟨-, rfl⟩)
              · exact hq
              · rw [hu]; rfl
          · rw [replace_simple, hρ p u hu, hut]; rfl
        · cases h
      · next hnone =>
        cases h
        refine ⟨⟨Subst.extends_cons t hnone, fun q => ?_⟩, fun ρ hρ _ => ?_⟩
        · rw [mentions_simple, beq_iff_eq]
          by_cases hq : q = p
          · subst hq
            simp [Subst.get?_cons_self, hmem]
          · rw [Subst.get?_cons_of_ne σ t hq]
            simp [Ne.symm hq]
        · rw [replace_simple, hρ p t (Subst.get?_cons_self σ p t)]; rfl
    · next hnone =>
      split at h
      · next hhead =>
        obtain ⟨hmatched, hreplace⟩ := unifyAll_sound h
        refine ⟨⟨hmatched.extended, fun p => ?_⟩, fun ρ hρ hwithin => ?_⟩
        · rw [hmatched.bound p]
          refine or_congr_right (and_congr_right fun hp => ?_)
          rw [mentions_of_asParam_eq_none hnone hp]
        · rw [replace_of_asParam_eq_none hwithin hnone, hreplace ρ hρ hwithin, hhead]
          cases t
          rfl
      · cases h

theorem unifyAll_sound {params : List String} : ∀ {σ τ : Subst} {ss ts : List SmtSort},
    unifyAll params σ ss ts = some τ → Matched params (anyMentions · ss) σ τ ∧
      ∀ ρ : Subst, ρ.Extends τ → ρ.Within params → replaceAll ρ ss = ts
  | σ, τ, [], [], h => by
    cases h
    exact ⟨⟨σ.extends_refl, fun p => by simp [anyMentions]⟩, fun _ _ _ => rfl⟩
  | σ, τ, s :: ss, t :: ts, h => by
    rw [unifyAll] at h
    split at h
    · next σ' hσ' =>
      obtain ⟨hhead, hreplace⟩ := unify_sound hσ'
      obtain ⟨htail, hreplaceAll⟩ := unifyAll_sound h
      refine ⟨⟨htail.extended.trans hhead.extended, fun p => ?_⟩, fun ρ hρ hwithin => ?_⟩
      · rw [htail.bound, hhead.bound, anyMentions, Bool.or_eq_true]
        rw [or_assoc, ← and_or_left]
      · rw [replaceAll, hreplace ρ (hρ.trans htail.extended) hwithin, hreplaceAll ρ hρ hwithin]
    · cases h

end

mutual

theorem unify_complete {params : List String} {ρ : Subst} (hρ : ρ.Total params) :
    ∀ {σ : Subst} (s : SmtSort), ρ.Extends σ →
      ∃ τ, unify params σ s (s.replace ρ) = some τ ∧ ρ.Extends τ
  | σ, mk head args, hext => by
    rw [unify]
    cases hp : asParam params (mk head args) with
    | some p =>
      obtain ⟨hs, hmem⟩ := asParam_eq_some.mp hp
      obtain ⟨u, hu⟩ := Option.isSome_iff_exists.mp ((hρ p).mp hmem)
      have hreplace : (mk head args).replace ρ = u := by rw [hs, replace_simple, hu]; rfl
      simp only [hreplace]
      cases hσ : σ.get? p with
      | some v =>
        have hv : v = u := Option.some.inj ((hext p v hσ).symm.trans hu)
        exact ⟨σ, by simp [hv], hext⟩
      | none =>
        refine ⟨_, rfl, fun q v hv => ?_⟩
        by_cases hq : q = p
        · subst hq
          rw [Subst.get?_cons_self] at hv
          rw [hu, hv]
        · rw [Subst.get?_cons_of_ne σ u hq] at hv
          exact hext q v hv
    | none =>
      rw [replace_of_asParam_eq_none hρ.within hp]
      simp only [SmtSort.head, SmtSort.args, ↓reduceIte]
      exact unifyAll_complete hρ args hext

theorem unifyAll_complete {params : List String} {ρ : Subst} (hρ : ρ.Total params) :
    ∀ {σ : Subst} (ss : List SmtSort), ρ.Extends σ →
      ∃ τ, unifyAll params σ ss (replaceAll ρ ss) = some τ ∧ ρ.Extends τ
  | σ, [], hext => ⟨σ, rfl, hext⟩
  | σ, s :: ss, hext => by
    obtain ⟨τ, hτ, hext'⟩ := unify_complete hρ s hext
    obtain ⟨τ', hτ', hext''⟩ := unifyAll_complete hρ ss hext'
    exact ⟨τ', by rw [replaceAll, unifyAll, hτ]; exact hτ', hext''⟩

end

end SmtSort

/-! ### Instances of functions -/

/-- Substitutions that bind the same parameters, one of which extends the other, are equal. -/
theorem Subst.Total.get?_eq {ρ τ : Subst} {params : List String} (hρ : ρ.Total params)
    (hτ : τ.Total params) (h : ρ.Extends τ) (p : String) : ρ.get? p = τ.get? p := by
  cases hp : τ.get? p with
  | some s => exact h p s hp
  | none =>
    cases hp' : ρ.get? p with
    | none => rfl
    | some s =>
      have hbound := (hτ p).mp ((hρ p).mpr (by rw [hp']; rfl))
      rw [hp] at hbound
      cases hbound

namespace FunDecl

/-- Whether each parameter occurs in one of the sorts, so that matching them binds it. -/
def Determined (f : FunDecl) (sorts : List SmtSort) : Prop :=
  ∀ p ∈ f.params, SmtSort.anyMentions p sorts = true

theorem Determined.mono {f : FunDecl} {ss ts : List SmtSort} (h : f.Determined ss)
    (hsub : ss ⊆ ts) : f.Determined ts := by
  intro p hp
  obtain ⟨s, hs, hsp⟩ := SmtSort.anyMentions_iff.mp (h p hp)
  exact SmtSort.anyMentions_iff.mpr ⟨s, hsub hs, hsp⟩

theorem determined_congr {f : FunDecl} {ss ts : List SmtSort} (h : ∀ s, s ∈ ss ↔ s ∈ ts) :
    f.Determined ss ↔ f.Determined ts :=
  ⟨fun hss => hss.mono fun s => (h s).mp, fun hts => hts.mono fun s => (h s).mpr⟩

/-- Whether a substitution of all parameters takes the argument sorts, for that many arguments, and
the result sort to the given ones. -/
def Applies (f : FunDecl) (args : List SmtSort) (result : SmtSort) : Prop :=
  ∃ σ : Subst, σ.Total f.params ∧ (f.formals args.length).map (SmtSort.replace σ) = args ∧
    f.result.replace σ = result

/-- Whether a substitution of all parameters takes the result sort to the given one, and the sorts
of the fields to the others. -/
def Constructs (f : FunDecl) (sort : SmtSort) (fields : List SmtSort) : Prop :=
  ∃ σ : Subst, σ.Total f.params ∧ f.result.replace σ = sort ∧ f.args.map (SmtSort.replace σ) = fields

/-- The substitution of all parameters that matching sorts side by side finds. -/
def matchAll? (f : FunDecl) (ss ts : List SmtSort) : Option Subst :=
  (SmtSort.unifyAll f.params [] ss ts).bind (·.total? f.params)

theorem total?_eq_some {f : FunDecl} {ss : List SmtSort} {σ τ : Subst}
    (h : SmtSort.Matched f.params (SmtSort.anyMentions · ss) [] σ) :
    σ.total? f.params = some τ ↔ σ = τ ∧ σ.Total f.params ∧ f.Determined ss := by
  have hbound : ∀ p, (σ.get? p).isSome = true ↔
      p ∈ f.params ∧ SmtSort.anyMentions p ss = true := by
    intro p
    rw [h.bound p]
    simp [Subst.get?]
  have hmissing : (σ.missing f.params).isEmpty = true ↔ σ.Total f.params ∧ f.Determined ss := by
    rw [Subst.missing_isEmpty]
    constructor
    · exact fun hall => ⟨fun p => ⟨hall p, fun hp => ((hbound p).mp hp).1⟩,
        fun p hp => ((hbound p).mp (hall p hp)).2⟩
    · rintro ⟨-, hall⟩ p hp
      exact (hbound p).mpr ⟨hp, hall p hp⟩
  rw [← hmissing, Subst.total?]
  split
  · next hempty => simp [hempty]
  · next hempty => simp [hempty]

theorem matchAll?_sound {f : FunDecl} {ss ts : List SmtSort} {σ : Subst}
    (h : f.matchAll? ss ts = some σ) :
    σ.Total f.params ∧ ss.map (SmtSort.replace σ) = ts ∧ f.Determined ss := by
  obtain ⟨τ, hτ, htotal⟩ := Option.bind_eq_some_iff.mp h
  obtain ⟨hmatched, hreplace⟩ := SmtSort.unifyAll_sound hτ
  obtain ⟨rfl, htotal, hdetermined⟩ := (total?_eq_some hmatched).mp htotal
  refine ⟨htotal, ?_, hdetermined⟩
  rw [← SmtSort.replaceAll_eq_map]
  exact hreplace τ τ.extends_refl htotal.within

theorem matchAll?_complete {f : FunDecl} {ss : List SmtSort} {σ : Subst} (hσ : σ.Total f.params)
    (hdetermined : f.Determined ss) :
    ∃ τ, f.matchAll? ss (ss.map (SmtSort.replace σ)) = some τ ∧ ∀ p, σ.get? p = τ.get? p := by
  obtain ⟨τ, hτ, hext⟩ := SmtSort.unifyAll_complete hσ ss σ.extends_nil
  obtain ⟨hmatched, -⟩ := SmtSort.unifyAll_sound hτ
  have htotal : τ.Total f.params := by
    refine fun p => ⟨fun hp => (hmatched.bound p).mpr (.inr ⟨hp, hdetermined p hp⟩), fun hp => ?_⟩
    obtain ⟨s, hs⟩ := Option.isSome_iff_exists.mp hp
    exact hσ.within p s (hext p s hs)
  refine ⟨τ, Option.bind_eq_some_iff.mpr ⟨τ, ?_, ?_⟩, hσ.get?_eq htotal hext⟩
  · rw [← SmtSort.replaceAll_eq_map]
    exact hτ
  · exact (total?_eq_some hmatched).mpr ⟨rfl, htotal, hdetermined⟩

theorem unifyAll_concat (params : List String) (s t : SmtSort) :
    ∀ (σ : Subst) (ss ts : List SmtSort),
    SmtSort.unifyAll params σ (ss ++ [s]) (ts ++ [t]) =
      (SmtSort.unifyAll params σ ss ts).bind (SmtSort.unify params · s t)
  | σ, [], [] => by
    simp only [List.nil_append, SmtSort.unifyAll, Option.bind_some]
    cases SmtSort.unify params σ s t <;> rfl
  | σ, [], t' :: ts => by
    simp only [List.nil_append, List.cons_append, SmtSort.unifyAll, Option.bind_none]
    cases SmtSort.unify params σ s t' with
    | none => rfl
    | some τ => cases ts <;> rfl
  | σ, s' :: ss, [] => by
    simp only [List.nil_append, List.cons_append, SmtSort.unifyAll, Option.bind_none]
    cases SmtSort.unify params σ s' t with
    | none => rfl
    | some τ => cases ss <;> rfl
  | σ, s' :: ss, t' :: ts => by
    simp only [List.cons_append, SmtSort.unifyAll]
    cases SmtSort.unify params σ s' t' with
    | none => rfl
    | some τ => exact unifyAll_concat params s t τ ss ts

theorem instantiate?_none (f : FunDecl) (args : List SmtSort) :
    f.instantiate? args none = f.matchAll? (f.formals args.length) args := rfl

theorem instantiate?_some (f : FunDecl) (args : List SmtSort) (expected : SmtSort) :
    f.instantiate? args (some expected) =
      f.matchAll? (f.formals args.length ++ [f.result]) (args ++ [expected]) := by
  rw [matchAll?, unifyAll_concat, Option.bind_assoc]
  rfl

theorem result?_none_eq_some {f : FunDecl} {args : List SmtSort} {r : SmtSort} :
    f.result? args none = some r ↔ f.Applies args r ∧ f.Determined (f.formals args.length) := by
  rw [result?, instantiate?_none, Option.map_eq_some_iff]
  constructor
  · rintro ⟨σ, hσ, rfl⟩
    obtain ⟨htotal, hargs, hdetermined⟩ := matchAll?_sound hσ
    exact ⟨⟨σ, htotal, hargs, rfl⟩, hdetermined⟩
  · rintro ⟨⟨σ, htotal, hargs, rfl⟩, hdetermined⟩
    obtain ⟨τ, hτ, hget⟩ := matchAll?_complete htotal hdetermined
    rw [hargs] at hτ
    exact ⟨τ, hτ, (SmtSort.replace_congr hget f.result).symm⟩

theorem result?_some_eq_some {f : FunDecl} {args : List SmtSort} {expected r : SmtSort} :
    f.result? args (some expected) = some r ↔
      r = expected ∧ f.Applies args expected ∧
        f.Determined (f.formals args.length ++ [f.result]) := by
  rw [result?, instantiate?_some, Option.map_eq_some_iff]
  constructor
  · rintro ⟨σ, hσ, rfl⟩
    obtain ⟨htotal, hargs, hdetermined⟩ := matchAll?_sound hσ
    rw [List.map_append, List.map_singleton] at hargs
    obtain ⟨hformals, hresult⟩ := List.append_inj' hargs rfl
    cases hresult
    exact ⟨rfl, ⟨σ, htotal, hformals, rfl⟩, hdetermined⟩
  · rintro ⟨rfl, ⟨σ, htotal, hargs, rfl⟩, hdetermined⟩
    obtain ⟨τ, hτ, hget⟩ := matchAll?_complete htotal hdetermined
    rw [List.map_append, List.map_singleton, hargs] at hτ
    exact ⟨τ, hτ, (SmtSort.replace_congr hget f.result).symm⟩

theorem fields?_eq_some {f : FunDecl} {n : Nat} {sort : SmtSort} {fields : List SmtSort} :
    f.fields? n sort = some fields ↔
      f.args.length = n ∧ f.Constructs sort fields ∧ f.Determined [f.result] := by
  have hmatch : (do (← SmtSort.unify f.params [] f.result sort).total? f.params) =
      f.matchAll? [f.result] [sort] := by
    rw [matchAll?, show [f.result] = [] ++ [f.result] from rfl, show [sort] = [] ++ [sort] from rfl,
      unifyAll_concat]
    rfl
  rw [fields?, hmatch]
  by_cases hn : f.args.length = n
  · rw [if_pos hn, Option.map_eq_some_iff]
    constructor
    · rintro ⟨σ, hσ, rfl⟩
      obtain ⟨htotal, hresult, hdetermined⟩ := matchAll?_sound hσ
      exact ⟨hn, ⟨σ, htotal, by simpa using hresult, rfl⟩, hdetermined⟩
    · rintro ⟨-, ⟨σ, htotal, rfl, rfl⟩, hdetermined⟩
      obtain ⟨τ, hτ, hget⟩ := matchAll?_complete htotal hdetermined
      refine ⟨τ, hτ, List.map_congr_left fun s _ => (SmtSort.replace_congr hget s).symm⟩
  · simp [hn]

end FunDecl

end WellSorted
