import WellSorted.Proofs.Likeness.Terms

/-!
# Results of applications

The sort of a term does not depend on where it stands, so that an application without an ascription
has the sort that the only fitting declaration gives for the sorts of its arguments
(`returns_app`), and an ascribed one the sort of the first declaration that gives the expected one
(`returns_ascribedApp`). Such a declaration gives the expected sort or none, and a declaration that
fits without an ascription also fits with the sort that it gives. Hence ascriptions agree with what
is inferred without them (`infer_ascribed`).
-/

namespace WellSorted

open Sorting

variable {clean : Prop} {G : Stack}

/-! ### Where terms stand -/

theorem Logged.Like.returns_iff {α : Type} {L : Likeness} {x y : Logged (Option α)}
    (h : x.Like L Eq y) {a : α} : x.Returns clean a ↔ y.Returns clean a := by
  have hfindings : x.findings = [] ↔ y.findings = [] := by
    rw [← List.length_eq_zero_iff, ← List.length_eq_zero_iff, h.findings.length_eq]
  rw [Returns, Returns, h.value, hfindings]

theorem returns_infer_iff (s s' : Spot) {t : Term} {r : SmtSort} :
    (infer G s t).Returns clean r ↔ (infer G s' t).Returns clean r :=
  ((Stack.like_anywhere (.inl trivial)).infer (L := .anywhere True) trivial t).returns_iff

/-- Arguments have their sorts separately, at any spot. -/
theorem returns_inferAll {s : Spot} {i : Nat} (s' : Spot) {ts : List Term} {rs : List SmtSort} :
    (inferAll G s i ts).Returns clean rs ↔
      List.Forall₂ (fun t r => (infer G s' t).Returns clean r) ts rs := by
  induction ts generalizing i rs with
  | nil =>
    rw [inferAll, Logged.returns_pure, Option.some.injEq, List.forall₂_nil_left_iff]
    exact eq_comm
  | cons t ts ih =>
    rw [inferAll, returns_consSort, List.forall₂_cons_left_iff]
    simp only [ih, returns_infer_iff (s.item i) s']
    constructor
    · rintro ⟨r, rest, rfl, hr, hrest⟩
      exact ⟨r, rest, hr, hrest, rfl⟩
    · rintro ⟨r, rest, hr, hrest, rfl⟩
      exact ⟨r, rest, rfl, hr, hrest⟩

/-! ### Results -/

theorem returns_app {s : Spot} (s' : Spot) {i : Identifier} {ts : List Term} {r : SmtSort} :
    (infer G s (.app ⟨i, none⟩ ts)).Returns clean r ↔
      ∃ rs, List.Forall₂ (fun t r => (infer G s' t).Returns clean r) ts rs ∧
        (G.overloads i.key).filterMap (·.result? rs none) = [r] := by
  rw [infer]
  refine Iff.trans (Logged.returns_bind rfl) ?_
  exact exists_congr fun rs => and_congr (returns_inferAll s') returns_unique

theorem returns_ascribed {n : Node} {sort r : SmtSort} {k : SmtSort → Logged (Option SmtSort)} :
    (ascribed G n sort >>= k).Returns clean r ↔
      (clean → G.Known sort) ∧ (k (G.resolve [] sort)).Returns clean r := by
  rw [ascribed, bind_assoc, Logged.returns_reportAll, Stack.checkSort_eq_nil, pure_bind]

theorem returns_ascribedApp {s : Spot} (s' : Spot) {i : Identifier} {sort : SmtSort}
    {ts : List Term} {r : SmtSort} :
    (infer G s (.app ⟨i, some sort⟩ ts)).Returns clean r ↔
      ∃ rs, List.Forall₂ (fun t r => (infer G s' t).Returns clean r) ts rs ∧
        (clean → G.Known sort) ∧ firstFit G i.key rs (G.resolve [] sort) = some r := by
  rw [infer]
  refine Iff.trans (Logged.returns_bind rfl) ?_
  refine exists_congr fun rs => and_congr (returns_inferAll s') ?_
  exact Iff.trans returns_ascribed (and_congr_right' returns_firstFit)

theorem returns_ident {s : Spot} {i : Identifier} (hi : varOf? G i = none) {r : SmtSort} :
    (infer G s (.ident ⟨i, none⟩)).Returns clean r ↔ G.constantSorts i.key = [r] := by
  rw [infer, qualIdentifier, identifier, hi]
  exact returns_unique

theorem returns_ascribedIdent {s : Spot} {i : Identifier} {sort r : SmtSort} :
    (infer G s (.ident ⟨i, some sort⟩)).Returns clean r ↔
      (clean → G.Known sort) ∧ firstFit G i.key [] (G.resolve [] sort) = some r := by
  rw [infer]
  exact Iff.trans returns_ascribed (and_congr_right' returns_firstFit)

/-! ### Ascriptions -/

namespace Sorting

/-- What the only fitting declaration gives is given also if it is expected. -/
theorem firstFit_of_filterMap {name : String} {rs : List SmtSort} {r : SmtSort}
    (h : (G.overloads name).filterMap (·.result? rs none) = [r]) :
    firstFit G name rs r = some r := by
  have hmem : r ∈ (G.overloads name).filterMap (·.result? rs none) := by
    rw [h]
    exact List.mem_singleton_self r
  obtain ⟨f, hf, hr⟩ := List.mem_filterMap.mp hmem
  obtain ⟨happlies, hdetermined⟩ := FunDecl.result?_none_eq_some.mp hr
  exact firstFit_eq_some.mpr
    ⟨rfl, f, hf, happlies, hdetermined.mono (List.subset_append_left _ _)⟩

theorem firstFit_of_constantSorts {name : String} {r : SmtSort}
    (h : G.constantSorts name = [r]) : firstFit G name [] r = some r := by
  obtain ⟨f, ⟨hf, hconstant, -⟩, rfl⟩ := constantSorts_eq_singleton.mp h
  simp only [FunDecl.isConstant, Bool.and_eq_true, List.isEmpty_iff] at hconstant
  obtain ⟨hargs, hparams⟩ := hconstant
  refine firstFit_eq_some.mpr ⟨rfl, f, hf, ⟨[], fun p => ?_, ?_, f.result.replace_nil⟩, ?_⟩
  · simp [hparams, Subst.get?]
  · simp [FunDecl.formals, hargs]
  · intro p hp
    rw [hparams] at hp
    exact absurd hp List.not_mem_nil

end Sorting

/-- An ascribed function or constant has the sort of the ascription if it has any. It has this sort
if the function or the constant has it without the ascription; to be clean, the ascription has to be
made of known sorts. -/
theorem infer_ascribed (G : Stack) (i : Identifier) (sort : SmtSort) (clean : Prop) (s s' : Spot) :
    (∀ ts r, (infer G s (.app ⟨i, some sort⟩ ts)).value = some r → r = G.resolve [] sort) ∧
    (∀ r, (infer G s (.ident ⟨i, some sort⟩)).value = some r → r = G.resolve [] sort) ∧
    ((clean → G.Known sort) →
      (∀ ts, (infer G s (.app ⟨i, none⟩ ts)).Returns clean (G.resolve [] sort) →
        (infer G s' (.app ⟨i, some sort⟩ ts)).Returns clean (G.resolve [] sort)) ∧
      (varOf? G i = none →
        (infer G s (.ident ⟨i, none⟩)).Returns clean (G.resolve [] sort) →
        (infer G s' (.ident ⟨i, some sort⟩)).Returns clean (G.resolve [] sort))) := by
  refine ⟨fun ts r h => ?_, fun r h => ?_, fun hknown => ⟨fun ts h => ?_, fun hi h => ?_⟩⟩
  · obtain ⟨rs, -, -, hfit⟩ := (returns_ascribedApp s).mp ⟨h, False.elim⟩
    exact (firstFit_eq_some.mp hfit).1
  · obtain ⟨-, hfit⟩ := returns_ascribedIdent.mp ⟨h, False.elim⟩
    exact (firstFit_eq_some.mp hfit).1
  · obtain ⟨rs, hrs, honly⟩ := (returns_app s).mp h
    exact (returns_ascribedApp s).mpr ⟨rs, hrs, hknown, firstFit_of_filterMap honly⟩
  · have honly := (returns_ident hi).mp h
    exact returns_ascribedIdent.mpr ⟨hknown, firstFit_of_constantSorts honly⟩

/-- Two functions of a name, and an alias for an argument sort of one of them. -/
def overloadScript : List Context.Action :=
  [.root Check.bare ⟨⟨.nowhere, [], []⟩, .script
    [.declareSort "A" 0, .declareSort "B" 0, .defineSort "U" [] (.simple "A"),
      .declareFun "f" [.simple "A"] (.simple "A"), .declareFun "f" [.simple "B"] (.simple "B"),
      .declareConst "a" (.simple "A")]⟩]

theorem infer_ascribed_overloaded :
    let G := (Context.after overloadScript).stack
    let s : Spot := .top ⟨.nowhere, [], []⟩
    let a : Term := .ident ⟨.simple "a", none⟩
    (infer G s (.app ⟨.simple "f", none⟩ [a])).Returns True (.simple "A") ∧
      (infer G s (.app ⟨.simple "f", some (.simple "U")⟩ [a])).Returns True (.simple "A") ∧
      (infer G s (.ident ⟨.simple "a", some (.simple "U")⟩)).Returns True (.simple "A") := by
  intro G s a
  have hsort : G.resolve [] (.simple "U") = .simple "A" := by decide +kernel
  have hknown (_ : True) : G.Known (.simple "U") :=
    (Stack.checkSort_eq_nil (n := s.node (.term a))).mp (by decide +kernel)
  have hf : (infer G s (.app ⟨.simple "f", none⟩ [a])).Returns True (.simple "A") :=
    ⟨by decide +kernel, fun _ => by decide +kernel⟩
  have ha : (infer G s a).Returns True (.simple "A") :=
    ⟨by decide +kernel, fun _ => by decide +kernel⟩
  have happ := (infer_ascribed G (.simple "f") (.simple "U") True s s).2.2 hknown
  have hident := (infer_ascribed G (.simple "a") (.simple "U") True s s).2.2 hknown
  rw [hsort] at happ hident
  exact ⟨hf, happ.1 [a] hf, hident.2 (by decide +kernel) ha⟩

end WellSorted
