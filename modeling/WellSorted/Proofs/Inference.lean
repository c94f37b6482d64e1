import WellSorted.Proofs.Binding
import WellSorted.Proofs.Signatures

/-!
# Inference and the sorting rules

A logged computation returns a value if it gives it, and yields it if it does so without any
finding. Inference yields a sort exactly if the term has it by the rules in which parameters are
bound from the sorts that are matched (`FunDecl.Determined`). One lemma for each kind of node joins
a rule with the function that runs it.
-/

namespace WellSorted

/-! ### Returning a value -/

namespace Logged

variable {α β : Type} {clean : Prop}

/-- Whether a computation gives a value and, if it is to be clean, leaves no finding. -/
def Returns (clean : Prop) (x : Logged (Option α)) (a : α) : Prop :=
  x.value = some a ∧ (clean → x.findings = [])

theorem Returns.unique {x : Logged (Option α)} {a b : α} (ha : x.Returns clean a)
    (hb : x.Returns clean b) : a = b :=
  Option.some.inj (ha.1.symm.trans hb.1)

theorem returns_pure {o : Option α} {a : α} :
    (Pure.pure o : Logged (Option α)).Returns clean a ↔ o = some a :=
  ⟨And.left, fun h => ⟨h, fun _ => rfl⟩⟩

theorem returns_reportAll {fs : List Finding} {k : Logged (Option α)} {a : α} :
    (do Logged.reportAll fs; k).Returns clean a ↔ (clean → fs = []) ∧ k.Returns clean a := by
  simp only [Returns, value_bind, findings_bind, List.append_eq_nil_iff, reportAll, imp_and]
  exact and_left_comm

theorem returns_bind {x : Logged (Option α)} {k : Option α → Logged (Option β)} {b : β}
    (hk : k none = Pure.pure none) :
    (x >>= k).Returns clean b ↔ ∃ a, x.Returns clean a ∧ (k (some a)).Returns clean b := by
  simp only [Returns, value_bind, findings_bind, List.append_eq_nil_iff, imp_and]
  cases hx : x.value with
  | none => simp [hk]
  | some a =>
    constructor
    · rintro ⟨hvalue, hfindings, hrest⟩
      exact ⟨a, ⟨rfl, hfindings⟩, hvalue, hrest⟩
    · rintro ⟨_, ⟨⟨⟩, hfindings⟩, hvalue, hrest⟩
      exact ⟨hvalue, hfindings, hrest⟩

end Logged

namespace Sorting

variable {clean : Prop}

theorem not_returns_fail {n : Node} {p : Problem} {s : SmtSort} : ¬ (fail n p).Returns clean s :=
  fun h => by cases h.1

theorem returns_unique {n : Node} {missing : Problem} {several : List SmtSort → Problem}
    {l : List SmtSort} {s : SmtSort} : (unique n missing several l).Returns clean s ↔ l = [s] := by
  match l with
  | [] => simp [unique, not_returns_fail]
  | [t] => simp [unique, Logged.returns_pure]
  | t :: u :: rest => simp [unique, not_returns_fail]

theorem returns_consSort {x : Logged (Option SmtSort)} {y : Logged (Option (List SmtSort))}
    {ss : List SmtSort} :
    (do let s ← x; let rest ← y; return consSort s rest).Returns clean ss ↔
      ∃ s rest, ss = s :: rest ∧ x.Returns clean s ∧ y.Returns clean rest := by
  simp only [Logged.Returns, Logged.value_bind, Logged.findings_bind, Logged.value_pure,
    Logged.findings_pure, List.append_eq_nil_iff, imp_and]
  cases hx : x.value with
  | none => simp [consSort]
  | some s =>
    cases hy : y.value with
    | none => simp [consSort]
    | some rest =>
      simp only [consSort, Option.some.injEq]
      constructor
      · rintro ⟨rfl, hfx, hfy, -⟩
        exact ⟨s, rest, rfl, ⟨rfl, hfx⟩, rfl, hfy⟩
      · rintro ⟨_, _, rfl, ⟨rfl, hfx⟩, rfl, hfy⟩
        exact ⟨rfl, hfx, hfy, fun _ => trivial⟩

/-- The sort of the first declaration that gives the expected one, or else a finding. -/
theorem returns_firstFit {G : Stack} {n : Node} {problem : Problem} {name : String}
    {args : List SmtSort} {expected s : SmtSort} :
    (match firstFit G name args expected with
      | some result => Pure.pure (some result)
      | none => fail n problem).Returns clean s ↔ firstFit G name args expected = some s := by
  cases firstFit G name args expected with
  | none => simp [not_returns_fail]
  | some r => simp [Logged.returns_pure]

end Sorting

/-! ### Yielding a value -/

def Logged.Yields {α : Type} (x : Logged (Option α)) (a : α) : Prop :=
  x.value = some a ∧ x.findings = []

namespace Logged

variable {α β : Type}

theorem returns_true {x : Logged (Option α)} {a : α} : x.Returns True a ↔ x.Yields a :=
  and_congr_right' true_imp_iff

theorem yields_pure {o : Option α} {a : α} :
    (Pure.pure o : Logged (Option α)).Yields a ↔ o = some a :=
  returns_true.symm.trans returns_pure

theorem yields_reportAll {fs : List Finding} {k : Logged (Option α)} {a : α} :
    (do Logged.reportAll fs; k).Yields a ↔ fs = [] ∧ k.Yields a := by
  rw [← returns_true, returns_reportAll, true_imp_iff, returns_true]

theorem yields_bind {x : Logged (Option α)} {k : Option α → Logged (Option β)} {b : β}
    (hk : k none = Pure.pure none) :
    (x >>= k).Yields b ↔ ∃ a, x.Yields a ∧ (k (some a)).Yields b := by
  simp only [← returns_true]
  exact returns_bind hk

/-- Going on with a value that was computed without findings. -/
theorem yields_bind_of_findings {x : Logged α} {k : α → Logged (Option β)} {b : β}
    (hx : x.findings = []) : (x >>= k).Yields b ↔ (k x.value).Yields b := by
  simp only [Yields, value_bind, findings_bind, hx, List.nil_append]

end Logged

namespace Sorting

theorem not_yields_fail {n : Node} {p : Problem} {s : SmtSort} : ¬ (fail n p).Yields s :=
  fun h => by cases h.1

theorem yields_unique {n : Node} {missing : Problem} {several : List SmtSort → Problem}
    {l : List SmtSort} {s : SmtSort} : (unique n missing several l).Yields s ↔ l = [s] :=
  Logged.returns_true.symm.trans returns_unique

theorem yields_consSort {x : Logged (Option SmtSort)} {y : Logged (Option (List SmtSort))}
    {ss : List SmtSort} :
    (do let s ← x; let rest ← y; return consSort s rest).Yields ss ↔
      ∃ s rest, ss = s :: rest ∧ x.Yields s ∧ y.Yields rest := by
  simp only [← Logged.returns_true]
  exact returns_consSort

end Sorting

/-! ### The only fitting declaration -/

theorem filterMap_eq_singleton {α β : Type} {g : α → Option β} {P : α → Prop} {l : List α} {b : β}
    (h : l.Nodup) (hP : ∀ a, P a ↔ ∃ b, g a = some b) :
    l.filterMap g = [b] ↔ ∃ a, Only P l a ∧ g a = some b := by
  induction l with
  | nil => simp [Only]
  | cons c l ih =>
    obtain ⟨hc, hl⟩ := List.nodup_cons.mp h
    cases hg : g c with
    | none =>
      have hPc : ¬ P c := by
        rw [hP, hg]
        nofun
      rw [List.filterMap_cons_none hg, ih hl]
      refine exists_congr fun a => and_congr_left fun ha => ?_
      have hne : a ≠ c := by
        rintro rfl
        exact hPc ((hP a).mpr ⟨b, ha⟩)
      simp [Only, hPc, hne]
    | some d =>
      have hPc : P c := (hP c).mpr ⟨d, hg⟩
      rw [List.filterMap_cons_some hg, List.cons.injEq, List.filterMap_eq_nil_iff]
      constructor
      · rintro ⟨rfl, hnone⟩
        refine ⟨c, ⟨List.mem_cons_self, hPc, fun x hx hPx => ?_⟩, hg⟩
        rcases List.mem_cons.mp hx with rfl | hx
        · rfl
        · rw [hP, hnone x hx] at hPx
          obtain ⟨_, hPx⟩ := hPx
          cases hPx
      · rintro ⟨a, ⟨-, -, honly⟩, ha⟩
        have hca := honly c List.mem_cons_self hPc
        subst hca
        refine ⟨Option.some.inj (hg.symm.trans ha), fun x hx => ?_⟩
        cases hx' : g x with
        | none => rfl
        | some y =>
          have hxc := honly x (List.mem_cons_of_mem _ hx) ((hP x).mpr ⟨y, hx'⟩)
          rw [hxc] at hx
          exact absurd hx hc

theorem constantSorts_eq_singleton {G : Stack} {name : String} {s : SmtSort} :
    G.constantSorts name = [s] ↔
      ∃ f, Only (·.isConstant = true) (G.overloads name) f ∧ f.result = s := by
  rw [Stack.constantSorts, ← List.filterMap_eq_map', List.filterMap_filter,
    filterMap_eq_singleton (P := (·.isConstant = true)) (G.nodup_overloads name) fun f => by simp]
  refine exists_congr fun f => and_congr_right fun honly => ?_
  rw [if_pos honly.2.1, Option.some.injEq]

namespace Sorting

theorem yields_literal {G H : Stack} {Γ : Locals} (h : G.Under Γ H) {n : Node} {c : Constant}
    {s : SmtSort} : (literal H n c).Yields s ↔
      ∃ f, Only (·.isConstant = true) (G.overloads c.kind) f ∧ f.result = s := by
  rw [literal, yields_unique, constantSorts_eq_singleton, h.overloads]

theorem yields_identifier {G H : Stack} {Γ : Locals} (h : G.Under Γ H) {n : Node} {i : Identifier}
    {s : SmtSort} : (identifier H n i).Yields s ↔
      (i.isIndexed = false ∧ G.varSort? Γ i.key = some s) ∨
      (i.isIndexed = false → G.varSort? Γ i.key = none) ∧
        ∃ f, Only (·.isConstant = true) (G.overloads i.key) f ∧ f.result = s := by
  have hconstants : H.constantSorts i.key = [s] ↔
      ∃ f, Only (·.isConstant = true) (G.overloads i.key) f ∧ f.result = s := by
    rw [constantSorts_eq_singleton, h.overloads]
  unfold identifier varOf?
  cases hi : i.isIndexed with
  | true => simp [yields_unique, hconstants]
  | false =>
    have hvar := h.varSort? i.key
    cases hv : H.var? i.key with
    | some v =>
      rw [hv] at hvar
      simp [Logged.yields_pure, ← hvar]
    | none =>
      rw [hv] at hvar
      simp [yields_unique, hconstants, ← hvar]

theorem firstFit_eq_some {G : Stack} {name : String} {args : List SmtSort} {expected r : SmtSort} :
    firstFit G name args expected = some r ↔
      r = expected ∧ ∃ f ∈ G.overloads name, Gives FunDecl.Determined args expected f := by
  have hresult : ∀ f : FunDecl, f.result? args (some expected) = some r ↔
      r = expected ∧ Gives FunDecl.Determined args expected f :=
    fun f => FunDecl.result?_some_eq_some
  unfold firstFit
  constructor
  · intro h
    obtain ⟨f, hf, hr⟩ := List.exists_of_findSome?_eq_some h
    exact ⟨((hresult f).mp hr).1, f, hf, ((hresult f).mp hr).2⟩
  · rintro ⟨rfl, f, hf, hgives⟩
    cases hfind : (G.overloads name).findSome? (·.result? args (some r)) with
    | none =>
      have hnone := List.findSome?_eq_none_iff.mp hfind f hf
      rw [(hresult f).mpr ⟨rfl, hgives⟩] at hnone
      cases hnone
    | some r' =>
      obtain ⟨g, -, hr'⟩ := List.exists_of_findSome?_eq_some hfind
      rw [(FunDecl.result?_some_eq_some.mp hr').1]

theorem yields_firstFit {G H : Stack} {Γ : Locals} (h : G.Under Γ H) {n : Node} {problem : Problem}
    {name : String} {args : List SmtSort} {expected s : SmtSort} :
    (match firstFit H name args expected with
      | some result => Pure.pure (some result)
      | none => fail n problem).Yields s ↔
      s = expected ∧ ∃ f ∈ G.overloads name, Gives FunDecl.Determined args expected f := by
  rw [← h.overloads, ← firstFit_eq_some]
  exact Logged.returns_true.symm.trans returns_firstFit

theorem yields_ascribed {G H : Stack} {Γ : Locals} (h : G.Under Γ H) {n : Node} {sort : SmtSort}
    {k : SmtSort → Logged (Option SmtSort)} {s : SmtSort} :
    (ascribed H n sort >>= k).Yields s ↔ G.Known sort ∧ (k (G.resolve [] sort)).Yields s := by
  rw [ascribed, bind_assoc, Logged.yields_reportAll, Stack.checkSort_eq_nil, h.known, pure_bind,
    h.resolve]

theorem yields_ascribedConstant {G H : Stack} {Γ : Locals} (h : G.Under Γ H) {n : Node}
    {i : Identifier} {sort s : SmtSort} : (ascribedConstant H n i sort).Yields s ↔
      G.Known sort ∧ s = G.resolve [] sort ∧
        ∃ f ∈ G.overloads i.key, Gives FunDecl.Determined [] (G.resolve [] sort) f := by
  rw [ascribedConstant, yields_ascribed h]
  exact and_congr_right fun _ => yields_firstFit h

theorem yields_application {G H : Stack} {Γ : Locals} (h : G.Under Γ H) {n : Node} {i : Identifier}
    {args : List SmtSort} {s : SmtSort} : (application H n ⟨i, none⟩ args).Yields s ↔
      ∃ f, Only (Takes FunDecl.Determined args) (G.overloads i.key) f ∧ f.Applies args s := by
  rw [application]
  simp only []
  rw [yields_unique, h.overloads, filterMap_eq_singleton (P := Takes FunDecl.Determined args)
    (G.nodup_overloads i.key)]
  · refine exists_congr fun f => and_congr_right fun honly => ?_
    rw [FunDecl.result?_none_eq_some]
    exact and_iff_left honly.2.1.2
  · intro f
    simp only [Takes, FunDecl.result?_none_eq_some, exists_and_right]

theorem yields_application_ascribed {G H : Stack} {Γ : Locals} (h : G.Under Γ H) {n : Node}
    {i : Identifier} {args : List SmtSort} {sort s : SmtSort} :
    (application H n ⟨i, some sort⟩ args).Yields s ↔
      G.Known sort ∧ s = G.resolve [] sort ∧
        ∃ f ∈ G.overloads i.key, Gives FunDecl.Determined args (G.resolve [] sort) f := by
  rw [application]
  simp only []
  rw [yields_ascribed h]
  exact and_congr_right fun _ => yields_firstFit h

theorem yields_commonSort {n : Node} {sorts : List SmtSort} {s : SmtSort} :
    (commonSort n sorts).Yields s ↔ sorts ≠ [] ∧ ∀ r ∈ sorts, r = s := by
  cases sorts with
  | nil => simp [commonSort, Logged.yields_pure]
  | cons t rest =>
    rw [commonSort]
    split
    · next hall =>
      have hall' : ∀ r ∈ rest, r = t := by simpa using hall
      simp only [Logged.yields_pure, Option.some.injEq, ne_eq, reduceCtorEq, not_false_eq_true,
        true_and, List.forall_mem_cons]
      exact ⟨fun hts => ⟨hts, fun r hr => (hall' r hr).trans hts⟩, And.left⟩
    · next hall =>
      refine iff_of_false not_yields_fail ?_
      rintro ⟨-, heq⟩
      obtain ⟨rfl, heq⟩ := List.forall_mem_cons.mp heq
      refine hall ?_
      simpa using heq

theorem builds_iff {n : Nat} {sort : SmtSort} {f : FunDecl} :
    Builds FunDecl.Determined n sort f ↔ ∃ fields, f.fields? n sort = some fields := by
  simp only [Builds, FunDecl.fields?_eq_some, exists_and_left, exists_and_right]

theorem filterMap_fields_eq_singleton {G : Stack} {name : String} {n : Nat} {sort : SmtSort}
    {fields : List SmtSort} :
    (G.overloads name).filterMap (·.fields? n sort) = [fields] ↔
      ∃ f, Only (Builds FunDecl.Determined n sort) (G.overloads name) f ∧
        f.Constructs sort fields := by
  rw [filterMap_eq_singleton (G.nodup_overloads name) fun f => builds_iff]
  refine exists_congr fun f => and_congr_right fun honly => ?_
  rw [FunDecl.fields?_eq_some]
  exact ⟨fun h => h.2.1, fun h => ⟨honly.2.1.1, h, honly.2.1.2.2⟩⟩

theorem filterMap_fields_eq_nil {G : Stack} {name : String} {n : Nat} {sort : SmtSort} :
    (G.overloads name).filterMap (·.fields? n sort) = [] ↔
      ∀ f ∈ G.overloads name, ¬ Builds FunDecl.Determined n sort f := by
  simp only [List.filterMap_eq_nil_iff, builds_iff, not_exists, Option.eq_none_iff_forall_ne_some,
    ne_eq]

/-- The variables of the binders of a pattern at `s`. -/
def argumentVars (p : Pattern) (s : Spot) (fields : List SmtSort) : List VarDecl :=
  ((p.argumentSpots s).zip fields).map fun ((s, x), sort) => VarDecl.bound s x sort

theorem locals_zip (xs : List (Spot × String)) (sorts : List SmtSort) :
    (((xs.zip sorts).map fun ((s, x), sort) => VarDecl.bound s x sort).map fun v =>
      (v.name, v.sort)) = ((xs.map Prod.snd).map quoteSymbol).zip sorts := by
  rw [List.map_map, List.map_map, List.zip_map_left]
  exact List.map_congr_left fun _ _ => rfl

theorem locals_argumentVars (p : Pattern) (s : Spot) (fields : List SmtSort) :
    ((argumentVars p s fields).map fun v => (v.name, v.sort)) =
      (p.arguments.map quoteSymbol).zip fields := by
  rw [argumentVars, locals_zip, Pattern.argumentSpots, Spot.map_snd_along]

/-- A case is entered with the fields of its only constructor, or with the scrutinee as a whole. -/
theorem yields_caseScope {H K : Stack} {n : Node} {sort : SmtSort} {s : Spot} {p : Pattern}
    {isLast : Bool} : (caseScope H n sort s p isLast).Yields K ↔
      (∀ q, p.sort? = some q → H.resolve [] q = sort) ∧
      ((∃ fields, (H.overloads (quoteSymbol p.head)).filterMap (·.fields? p.arguments.length sort) =
          [fields] ∧ K = (H.bind (argumentVars p s fields)).value) ∨
        ((H.overloads (quoteSymbol p.head)).filterMap (·.fields? p.arguments.length sort) = [] ∧
          isLast = true ∧ p.isSymbol = true ∧ K = (H.bind [.bound s p.head sort]).value)) := by
  have hquals : (p.sort?.any fun q => H.resolve [] q ≠ sort) = false ↔
      ∀ q, p.sort? = some q → H.resolve [] q = sort := by
    cases p.sort? <;> simp
  rw [← hquals, caseScope]
  cases p.sort?.any fun q => H.resolve [] q ≠ sort with
  | true => exact iff_of_false (fun h => by cases h.2) (fun h => by cases h.1)
  | false =>
    simp only [Bool.false_eq_true, ↓reduceIte, true_and]
    split
    · next fields hfields =>
      rw [hfields, Logged.yields_bind_of_findings (Stack.findings_bind _ _), Logged.yields_pure]
      constructor
      · exact fun h => .inl ⟨fields, rfl, (Option.some.inj h).symm⟩
      · rintro (⟨_, ⟨⟩, rfl⟩ | ⟨⟨⟩, _⟩)
        rfl
    · next hnil =>
      rw [hnil]
      split
      · next hlast =>
        obtain ⟨hlast, hsymbol⟩ := Bool.and_eq_true_iff.mp hlast
        rw [Logged.yields_bind_of_findings (Stack.findings_bind _ _), Logged.yields_pure]
        constructor
        · exact fun h => .inr ⟨rfl, hlast, hsymbol, (Option.some.inj h).symm⟩
        · rintro (⟨_, ⟨⟩, _⟩ | ⟨-, -, -, rfl⟩)
          rfl
      · next hlast =>
        refine iff_of_false (fun h => by cases h.2) ?_
        rintro (⟨_, ⟨⟩, _⟩ | ⟨-, hlast', hsymbol, -⟩)
        exact hlast (Bool.and_eq_true_iff.mpr ⟨hlast', hsymbol⟩)
    · next hsingle hnil =>
      refine iff_of_false (fun h => by cases h.2) ?_
      rintro (⟨fields, hfields, _⟩ | ⟨hfields, _⟩)
      · exact hsingle fields hfields
      · exact hnil hfields

theorem exists_binds_iff {G H : Stack} {Γ : Locals} (h : G.Under Γ H) {n : Node} {sort : SmtSort}
    {s : Spot} {p : Pattern} {isLast : Bool} (P : Stack → Prop) (Q : Locals → Prop)
    (hPQ : ∀ Δ K, G.Under (Δ ++ Γ) K → (P K ↔ Q (Δ ++ Γ))) :
    (∃ K, (caseScope H n sort s p isLast).Yields K ∧ P K) ↔
      (∀ q, p.sort? = some q → G.resolve [] q = sort) ∧
        ∃ Δ, Binds FunDecl.Determined G sort p isLast Δ ∧ Q (Δ ++ Γ) := by
  have hfields := fun fields => h.bind (argumentVars p s fields)
  simp only [locals_argumentVars] at hfields
  have hrest := h.bind [.bound s p.head sort]
  simp only [yields_caseScope, h.overloads, h.resolve, filterMap_fields_eq_singleton,
    filterMap_fields_eq_nil]
  constructor
  · rintro ⟨K, ⟨hquals, ⟨fields, ⟨f, honly, hf⟩, rfl⟩ | ⟨hnone, hlast, hsymbol, rfl⟩⟩, hK⟩
    · exact ⟨hquals, _, .constructor honly hf, (hPQ _ _ (hfields fields)).mp hK⟩
    · cases p with
      | symbol x => exact ⟨hquals, _, .rest rfl hlast hnone, (hPQ _ _ hrest).mp hK⟩
      | _ => cases hsymbol
  · rintro ⟨hquals, Δ, hbinds, hΔ⟩
    cases hbinds with
    | @constructor f fields honly hf =>
      exact ⟨_, ⟨hquals, .inl ⟨fields, ⟨f, honly, hf⟩, rfl⟩⟩, (hPQ _ _ (hfields fields)).mpr hΔ⟩
    | rest hp hlast hnone =>
      subst hp
      exact ⟨_, ⟨hquals, .inr ⟨hnone, hlast, rfl, rfl⟩⟩, (hPQ _ _ hrest).mpr hΔ⟩

theorem locals_letVars (s : Spot) (bindings : List (String × Term)) (sorts : List SmtSort) :
    ((letVars s bindings sorts).map fun v => (v.name, v.sort)) =
      (bindings.map fun b => quoteSymbol b.1).zip sorts := by
  rw [letVars, List.map_map, ← (s.item 1).map_along 0 bindings, List.zip_map_left]
  exact List.map_congr_left fun _ _ => rfl

theorem locals_quantifierVars (G : Stack) (s : Spot) (vars : List SortedVar) :
    ((quantifierVars G s vars).map fun v => (v.name, v.sort)) =
      vars.map fun v => (quoteSymbol v.name, G.resolve [] v.sort) := by
  rw [quantifierVars, List.map_map, ← (s.item 1).map_along 0 vars]
  exact List.map_congr_left fun _ _ => rfl

end Sorting

/-! ### Terms -/

open Sorting

/-- The sort of one case of a match. -/
def inferArm (G : Stack) (n : Node) (sort : SmtSort) (s : Spot) (p : Pattern) (t : Term)
    (isLast : Bool) : Logged (Option SmtSort) := do
  match ← caseScope G n sort (s.item 0) p isLast with
  | some inner => infer inner (s.item 1) t
  | none => pure none

theorem inferArms_cons (G : Stack) (n : Node) (sort : SmtSort) (s : Spot) (i : Nat) (p : Pattern)
    (t : Term) (arms : List (Pattern × Term)) :
    inferArms G n sort s i ((p, t) :: arms) = do
      let r ← inferArm G n sort (s.item i) p t arms.isEmpty
      let rs ← inferArms G n sort s (i + 1) arms
      return consSort r rs := by
  rw [inferArms, inferArm, bind_assoc]
  congr 1
  funext inner
  cases inner <;> rfl

theorem length_inferArms {G : Stack} {n : Node} {sort : SmtSort} {s : Spot} {i : Nat}
    {arms : List (Pattern × Term)} {rs : List SmtSort}
    (h : (inferArms G n sort s i arms).Yields rs) : rs.length = arms.length := by
  induction arms generalizing i rs with
  | nil =>
    cases Logged.yields_pure.mp h
    rfl
  | cons arm arms ih =>
    obtain ⟨p, t⟩ := arm
    rw [inferArms_cons, yields_consSort] at h
    obtain ⟨r, rest, rfl, -, hrest⟩ := h
    rw [List.length_cons, List.length_cons, ih hrest]

/-- Cases of one common sort. -/
theorem yields_inferArms_commonSort {G : Stack} {n : Node} {sort r : SmtSort} {s : Spot}
    {arms : List (Pattern × Term)} :
    (∃ sorts, (inferArms G n sort s 0 arms).Yields sorts ∧ (commonSort n sorts).Yields r) ↔
      arms ≠ [] ∧ (inferArms G n sort s 0 arms).Yields (List.replicate arms.length r) := by
  constructor
  · rintro ⟨sorts, hsorts, hcommon⟩
    obtain ⟨hne, hall⟩ := yields_commonSort.mp hcommon
    have hreplicate := List.eq_replicate_iff.mpr ⟨length_inferArms hsorts, hall⟩
    subst hreplicate
    refine ⟨?_, hsorts⟩
    rintro rfl
    exact hne rfl
  · rintro ⟨hne, hsorts⟩
    refine ⟨_, hsorts, yields_commonSort.mpr ⟨?_, fun r' hr' => List.eq_of_mem_replicate hr'⟩⟩
    simpa using hne

/-- The sort of a quantified body has to be the one of truth values. -/
theorem yields_quantifiedBody {n : Node} {body : Term} {sort r : SmtSort} :
    (if sort.isBool then (return some sort) else fail n (.quantifiedSort body sort)).Yields r ↔
      sort = .bool ∧ r = .bool := by
  split
  · next hbool =>
    have hsort : sort = .bool := by simpa [SmtSort.isBool] using hbool
    rw [Logged.yields_pure, hsort, Option.some.injEq, eq_comm]
    exact (and_iff_right rfl).symm
  · next hbool =>
    refine iff_of_false not_yields_fail ?_
    rintro ⟨rfl, -⟩
    exact hbool rfl

mutual

/-- Inference opens a scope for every binder, so that it runs in a stack `H` over the stack `G` of
the rules. -/
theorem infer_iff {G : Stack} : ∀ {H : Stack} {Γ : Locals} (_ : G.Under Γ H) (s : Spot) (t : Term)
    {r : SmtSort}, (infer H s t).Yields r ↔ HasSort FunDecl.Determined G Γ t r
  | H, Γ, h, s, .constant c, r => by rw [infer, yields_literal h, hasSort_literal]
  | H, Γ, h, s, .ident ⟨i, none⟩, r => by
    rw [infer, qualIdentifier, yields_identifier h, hasSort_ident]
  | H, Γ, h, s, .ident ⟨i, some sort⟩, r => by
    rw [infer, qualIdentifier, yields_ascribedConstant h, hasSort_ascribed]
  | H, Γ, h, s, .app ⟨i, none⟩ args, r => by
    rw [infer, hasSort_app]
    refine Iff.trans (Logged.yields_bind rfl) ?_
    simp only [inferAll_iff h s 1 args, yields_application h]
  | H, Γ, h, s, .app ⟨i, some sort⟩ args, r => by
    rw [infer, hasSort_ascribedApp]
    refine Iff.trans (Logged.yields_bind rfl) ?_
    simp only [inferAll_iff h s 1 args, yields_application_ascribed h]
  | H, Γ, h, s, .letIn bindings body, r => by
    have hbody := fun sorts =>
      infer_iff (h.bind (letVars s bindings sorts)) (s.item 2) body (r := r)
    rw [infer, hasSort_letIn]
    refine Iff.trans (Logged.yields_bind rfl) ?_
    simp only [locals_letVars] at hbody
    simp only [inferBindings_iff h (s.item 1) 0 bindings,
      Logged.yields_bind_of_findings (Stack.findings_bind _ _), hbody]
  | H, Γ, h, s, .quantified q vars body, r => by
    have hbody := fun r => infer_iff (h.bind (quantifierVars H s vars)) (s.item 2) body (r := r)
    simp only [locals_quantifierVars, h.resolve] at hbody
    rw [infer, Logged.yields_reportAll, Stack.checkSorts_eq_nil,
      Logged.yields_bind_of_findings (Stack.findings_bind _ _), hasSort_quantified]
    refine Iff.trans (and_congr_right' (Logged.yields_bind rfl)) ?_
    simp only [hbody, h.known, List.forall_mem_map, yields_quantifiedBody]
    refine and_congr_right' ⟨?_, fun hr => ⟨.bool, hr.1, rfl, hr.2⟩⟩
    rintro ⟨_, hsort, rfl, hr⟩
    exact ⟨hsort, hr⟩
  | H, Γ, h, s, .matching scrutinee arms, r => by
    rw [infer, hasSort_matching]
    refine Iff.trans (Logged.yields_bind rfl) ?_
    refine exists_congr fun sort => and_congr (infer_iff h (s.item 1) scrutinee) ?_
    refine Iff.trans (Logged.yields_bind rfl) ?_
    rw [yields_inferArms_commonSort, inferArms_iff h]
  | H, Γ, h, s, .annotated t attributes, r => by
    rw [infer, infer_iff h (s.item 1) t, hasSort_annotated]

theorem inferAll_iff {G : Stack} : ∀ {H : Stack} {Γ : Locals} (_ : G.Under Γ H) (s : Spot) (i : Nat)
    (ts : List Term) {rs : List SmtSort},
    (inferAll H s i ts).Yields rs ↔ HaveSorts FunDecl.Determined G Γ ts rs
  | H, Γ, h, s, i, [], rs => by
    rw [inferAll, Logged.yields_pure, Option.some.injEq, haveSorts_nil, eq_comm]
  | H, Γ, h, s, i, t :: ts, rs => by
    rw [inferAll, yields_consSort, haveSorts_cons]
    simp only [infer_iff h (s.item i) t, inferAll_iff h s (i + 1) ts]

theorem inferBindings_iff {G : Stack} : ∀ {H : Stack} {Γ : Locals} (_ : G.Under Γ H) (s : Spot)
    (i : Nat) (bs : List (String × Term)) {rs : List SmtSort},
    (inferBindings H s i bs).Yields rs ↔
      HaveSorts FunDecl.Determined G Γ (bs.map Prod.snd) rs
  | H, Γ, h, s, i, [], rs => by
    rw [inferBindings, Logged.yields_pure, Option.some.injEq, List.map_nil, haveSorts_nil, eq_comm]
  | H, Γ, h, s, i, (x, t) :: bs, rs => by
    rw [inferBindings, yields_consSort, List.map_cons, haveSorts_cons]
    simp only [infer_iff h ((s.item i).item 1) t, inferBindings_iff h s (i + 1) bs]

theorem inferArms_iff {G : Stack} : ∀ {H : Stack} {Γ : Locals} (_ : G.Under Γ H) (n : Node)
    (sort : SmtSort) (s : Spot) (i : Nat) (arms : List (Pattern × Term)) {r : SmtSort},
    (inferArms H n sort s i arms).Yields (List.replicate arms.length r) ↔
      ArmsHaveSort FunDecl.Determined G Γ sort arms r
  | H, Γ, h, n, sort, s, i, [], r => by
    rw [inferArms, Logged.yields_pure]
    exact ⟨fun _ => .nil, fun _ => rfl⟩
  | H, Γ, h, n, sort, s, i, (p, t) :: arms, r => by
    have harm : (inferArm H n sort (s.item i) p t arms.isEmpty).Yields r ↔
        (∀ q, p.sort? = some q → G.resolve [] q = sort) ∧
          ∃ Δ, Binds FunDecl.Determined G sort p arms.isEmpty Δ ∧
            HasSort FunDecl.Determined G (Δ ++ Γ) t r :=
      Iff.trans (Logged.yields_bind rfl) (exists_binds_iff h
        (fun K => (infer K ((s.item i).item 1) t).Yields r)
        (fun Δ => HasSort FunDecl.Determined G Δ t r)
        fun Δ K hK => infer_iff hK ((s.item i).item 1) t)
    rw [inferArms_cons, yields_consSort, List.length_cons, List.replicate_succ, armsHaveSort_cons,
      ← harm, ← inferArms_iff h n sort s (i + 1) arms]
    simp only [List.cons.injEq]
    constructor
    · rintro ⟨_, _, ⟨rfl, rfl⟩, hr, hrest⟩
      exact ⟨hr, hrest⟩
    · rintro ⟨hr, hrest⟩
      exact ⟨r, _, ⟨rfl, rfl⟩, hr, hrest⟩

end

/-- Inference gives a sort without any finding exactly if the term has it by the rules, where the
parameters of a function are bound from the sorts it is matched with. -/
theorem infer_eq_some_iff_hasSort (G : Stack) (s : Spot) (t : Term) (r : SmtSort) :
    ((infer G s t).value = some r ∧ (infer G s t).findings = []) ↔
      HasSort FunDecl.Determined G [] t r :=
  infer_iff G.under_nil s t

/-- A sort `Int` and a constant `c` of that sort with a parameter that occurs nowhere. -/
def Stack.phantom (n : Node) : Stack :=
  ⟨⟨[.symbol "Int" 0 n], [.symbol "c" ["A"] [] (.simple "Int") n], []⟩, []⟩

/-- A substitution alone is not enough: nothing binds the parameter of `c`, so `(as c Int)` has the
sort `Int` by an instance, and inference rejects it. -/
theorem not_infer_iff_hasSort_unbound :
    ¬ ∀ (G : Stack) (s : Spot) (t : Term) (r : SmtSort),
      ((infer G s t).value = some r ∧ (infer G s t).findings = []) ↔
        HasSort (fun _ _ => True) G [] t r := by
  intro h
  let s : Spot := .top ⟨.nowhere, [], []⟩
  let G : Stack := .phantom (s.node (.word "c"))
  let int : SmtSort := .simple "Int"
  let c : FunDecl := .symbol "c" ["A"] [] int (s.node (.word "c"))
  let t : Term := .ident ⟨.simple "c", some int⟩
  have hresolve : G.resolve [] int = int := by decide +kernel
  have hknown : G.Known int := .mk (d := .symbol "Int" 0 (s.node (.word "c"))) (by rfl) rfl nofun
  have hsort : HasSort (fun _ _ => True) G [] t (G.resolve [] int) := by
    have hoverloads : G.overloads (Identifier.simple "c").key = [c] := by rfl
    refine .ascribed (f := c) hknown (by rw [hoverloads]; exact List.mem_singleton_self c)
      ⟨⟨[("A", int)], fun p => ?_, rfl, ?_⟩, trivial⟩
    · by_cases hp : p = "A"
      · simp [hp, c, FunDecl.symbol, Subst.get?]
      · simp [c, FunDecl.symbol, Subst.get?_cons_of_ne [] int hp, hp]
        rfl
    · rw [hresolve]
      decide +kernel
  have hvalue := ((h G s t _).mpr hsort).1
  rw [hresolve] at hvalue
  exact absurd hvalue (by decide +kernel)

end WellSorted
