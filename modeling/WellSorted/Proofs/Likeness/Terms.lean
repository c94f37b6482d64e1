import WellSorted.Proofs.Likeness.Stacks

/-!
# Likeness of terms

A term has the same sort in stacks that are alike, or none in both, and what is found on the way
corresponds one to one (`Stack.Like.infer`). The order of overloads does not reach the sort: an
application without an ascription needs a single fitting declaration, and every declaration that
fits an ascription gives the ascribed sort.
-/

namespace WellSorted

variable {L : Likeness} {G H : Stack} {n n' : Node} {s s' : Spot}

namespace Likeness

theorem Funs.map {α : Type} {fs gs : List FunDecl} {k : FunDecl → α}
    (hk : ∀ f n, k (FunDecl.atNode f n) = k f) (h : L.Funs fs gs) :
    L.Listed (fs.map k) (gs.map k) := by
  have hlisted := h.filterMap (k := fun f => some (k f)) fun f n => congrArg some (hk f n)
  rwa [List.filterMap_eq_map'] at hlisted

/-- Lists of a single value are the same in any order. -/
theorem Listed.eq_of_forall {α : Type} {l l' : List α} {a : α} (h : L.Listed l l')
    (hl : ∀ b ∈ l, b = a) : l = l' := by
  rw [List.eq_replicate_of_mem hl, List.eq_replicate_of_mem fun b hb => hl b (h.1.mem_iff.mpr hb),
    h.1.length_eq]

theorem rel_zip {α β γ : Type} {R : α → β → Prop} {as : List α} {bs : List β}
    (h : List.Forall₂ R as bs) (l : List γ) :
    List.Forall₂ (fun x y => R x.1 y.1 ∧ x.2 = y.2) (as.zip l) (bs.zip l) := by
  induction h generalizing l with
  | nil => exact .nil
  | cons hab _ ih =>
    cases l with
    | nil => exact .nil
    | cons c l => exact .cons ⟨hab, rfl⟩ (ih l)

end Likeness

theorem like_bound (h : L.spot s s') (name : String) (sort : SmtSort) :
    (VarDecl.bound s name sort).Like L (VarDecl.bound s' name sort) :=
  ⟨_, L.at_spot _ h, rfl⟩

namespace Stack

theorem Like.constantSorts (h : G.Like L H) (name : String) :
    L.Listed (G.constantSorts name) (H.constantSorts name) :=
  ((h.overloads name).filter fun _ _ => rfl).map fun _ _ => rfl

end Stack

namespace Sorting

theorem like_fail (hn : L.node n n') {p q : Problem} (hp : L.ordered → p = q) :
    (fail n p).Like L Eq (fail n' q) :=
  Logged.like_refuse (like_finding hn hp) rfl

theorem like_unique (hn : L.node n n') {missing : Problem} {several : List SmtSort → Problem}
    {sorts sorts' : List SmtSort} (h : L.Listed sorts sorts') :
    (unique n missing several sorts).Like L Eq (unique n' missing several sorts') := by
  have hlength := h.1.length_eq
  match sorts, sorts', hlength with
  | [], [], _ => exact like_fail hn fun _ => rfl
  | [sort], [sort'], _ =>
    obtain rfl := List.singleton_perm_singleton.mp h.1
    exact Logged.like_pure rfl
  | _ :: _ :: _, _ :: _ :: _, _ => exact like_fail hn fun ho => by rw [h.2 ho]

theorem like_literal (h : G.Like L H) (hn : L.node n n') (c : Constant) :
    (literal G n c).Like L Eq (literal H n' c) :=
  like_unique hn (h.constantSorts _)

theorem like_identifier (h : G.Like L H) (hn : L.node n n') (i : Identifier) :
    (identifier G n i).Like L Eq (identifier H n' i) := by
  have hvar : Option.Rel (VarDecl.Like L) (varOf? G i) (varOf? H i) := by
    unfold varOf?
    split
    · exact .none
    · exact h.var? _
  unfold identifier
  generalize varOf? G i = o, varOf? H i = o' at hvar
  cases hvar with
  | none => exact like_unique hn (h.constantSorts _)
  | some hv =>
    obtain ⟨m, -, rfl⟩ := hv
    exact Logged.like_pure rfl

theorem like_ascribed (h : G.Like L H) (hn : L.node n n') (sort : SmtSort) :
    (ascribed G n sort).Like L Eq (ascribed H n' sort) :=
  (Logged.like_reportAll (h.checkSort hn [] sort)).bind_eq fun _ =>
    Logged.like_pure (h.resolve [] sort)

/-- Whichever declaration fits first, it gives the expected sort. -/
theorem like_firstFit (h : G.Like L H) (name : String) (args : List SmtSort) (expected : SmtSort) :
    firstFit G name args expected = firstFit H name args expected := by
  have hlisted := (h.overloads name).filterMap (k := (·.result? args (some expected)))
    fun _ _ => rfl
  have heq := hlisted.eq_of_forall (a := expected) fun r hr => by
    obtain ⟨f, -, hf⟩ := List.mem_filterMap.mp hr
    exact (FunDecl.result?_some_eq_some.mp hf).1
  rw [firstFit, firstFit, ← List.head?_filterMap, ← List.head?_filterMap, heq]

theorem like_constantProblem (h : G.Like L H) (ho : L.ordered) (name : String)
    (expected : SmtSort) : constantProblem G name expected = constantProblem H name expected := by
  have hsorts : L.Listed (((G.overloads name).filter (·.args.isEmpty)).map (·.result))
      (((H.overloads name).filter (·.args.isEmpty)).map (·.result)) :=
    ((h.overloads name).filter fun _ _ => rfl).map fun _ _ => rfl
  rw [constantProblem, constantProblem, hsorts.2 ho]

theorem like_ascribedConstant (h : G.Like L H) (hn : L.node n n') (i : Identifier)
    (sort : SmtSort) : (ascribedConstant G n i sort).Like L Eq (ascribedConstant H n' i sort) := by
  refine (like_ascribed h hn sort).bind_eq fun expected => ?_
  rw [like_firstFit h]
  split
  · exact Logged.like_pure rfl
  · exact like_fail hn fun ho => like_constantProblem h ho _ _

theorem like_qualIdentifier (h : G.Like L H) (hn : L.node n n') (q : QualIdentifier) :
    (qualIdentifier G n q).Like L Eq (qualIdentifier H n' q) := by
  unfold qualIdentifier
  split
  · exact like_identifier h hn _
  · exact like_ascribedConstant h hn _ _

theorem like_application (h : G.Like L H) (hn : L.node n n') (q : QualIdentifier)
    (args : List SmtSort) : (application G n q args).Like L Eq (application H n' q args) := by
  unfold application
  split
  · exact like_unique hn ((h.overloads _).filterMap fun _ _ => rfl)
  · refine (like_ascribed h hn _).bind_eq fun expected => ?_
    rw [like_firstFit h]
    split
    · exact Logged.like_pure rfl
    · exact like_fail hn fun _ => rfl

theorem like_quantifierVars (h : G.Like L H) (hs : L.spot s s') (vars : List SortedVar) :
    List.Forall₂ (VarDecl.Like L) (quantifierVars G s vars) (quantifierVars H s' vars) := by
  refine List.rel_map ?_ (L.along (L.item 1 hs) 0 vars)
  rintro ⟨s, v⟩ ⟨s', _⟩ ⟨hs, rfl⟩
  show VarDecl.Like L (.bound _ _ (G.resolve [] v.sort)) (.bound _ _ (H.resolve [] v.sort))
  rw [h.resolve]
  exact like_bound (L.item 0 hs) _ _

theorem like_letVars (hs : L.spot s s') (bindings : List (String × Term)) (sorts : List SmtSort) :
    List.Forall₂ (VarDecl.Like L) (letVars s bindings sorts) (letVars s' bindings sorts) := by
  refine List.rel_map ?_ (Likeness.rel_zip (L.along (L.item 1 hs) 0 bindings) sorts)
  rintro ⟨⟨s, b⟩, sort⟩ ⟨⟨s', _⟩, _⟩ ⟨⟨hs, rfl⟩, rfl⟩
  exact like_bound (L.item 0 hs) _ _

theorem like_argumentVars (hs : L.spot s s') (p : Pattern) (fields : List SmtSort) :
    List.Forall₂ (VarDecl.Like L) (argumentVars p s fields) (argumentVars p s' fields) := by
  refine List.rel_map ?_ (Likeness.rel_zip (L.along hs 1 p.arguments) fields)
  rintro ⟨⟨s, x⟩, sort⟩ ⟨⟨s', _⟩, _⟩ ⟨⟨hs, rfl⟩, rfl⟩
  exact like_bound hs _ _

theorem like_caseScope (h : G.Like L H) (hn : L.node n n') (hs : L.spot s s') (sort : SmtSort)
    (p : Pattern) (isLast : Bool) :
    (caseScope G n sort s p isLast).Like L (Option.Rel (Stack.Like L))
      (caseScope H n' sort s' p isLast) := by
  have hreport (problem : Problem) : (do
      Logged.report (n.finding problem)
      return (none : Option Stack)).Like L (Option.Rel (Stack.Like L)) (do
      Logged.report (n'.finding problem)
      return none) :=
    Logged.like_refuse (like_finding hn fun _ => rfl) .none
  have hfields : L.Listed
      ((G.overloads (quoteSymbol p.head)).filterMap (·.fields? p.arguments.length sort))
      ((H.overloads (quoteSymbol p.head)).filterMap (·.fields? p.arguments.length sort)) :=
    (h.overloads _).filterMap fun _ _ => rfl
  have hlength := hfields.1.length_eq
  unfold caseScope
  simp only [h.resolve]
  split
  · exact hreport _
  · generalize (G.overloads (quoteSymbol p.head)).filterMap _ = l,
      (H.overloads (quoteSymbol p.head)).filterMap _ = l' at hfields hlength
    match l, l', hlength with
    | [], [], _ =>
      simp only
      split
      · exact (h.bind (.cons (like_bound hs _ _) .nil)).bind fun _ _ hK =>
          Logged.like_pure (.some hK)
      · exact hreport _
    | [fields], [fields'], _ =>
      obtain rfl := List.singleton_perm_singleton.mp hfields.1
      exact (h.bind (like_argumentVars hs p fields)).bind fun _ _ hK => Logged.like_pure (.some hK)
    | _ :: _ :: _, _ :: _ :: _, _ => exact hreport _

theorem like_commonSort (hn : L.node n n') (sorts : List SmtSort) :
    (commonSort n sorts).Like L Eq (commonSort n' sorts) := by
  cases sorts with
  | nil => exact Logged.like_pure rfl
  | cons sort rest =>
    rw [commonSort, commonSort]
    cases rest.all (· == sort) with
    | true => exact Logged.like_pure rfl
    | false => exact like_fail hn fun _ => rfl

end Sorting

open Sorting

namespace Stack

mutual

theorem Like.infer : ∀ {G H : Stack}, G.Like L H → ∀ {s s' : Spot}, L.spot s s' → ∀ t : Term,
    (infer G s t).Like L Eq (infer H s' t)
  | _, _, h, _, _, hs, .constant c => like_literal h (L.at_spot _ hs) c
  | _, _, h, _, _, hs, .ident q => like_qualIdentifier h (L.at_spot _ hs) q
  | G, H, h, s, s', hs, .app q args => by
    rw [WellSorted.infer, WellSorted.infer]
    refine (h.inferAll hs 1 args).bind_eq fun sorts => ?_
    cases sorts with
    | none => exact Logged.like_pure rfl
    | some sorts => exact like_application h (L.at_spot _ hs) q sorts
  | G, H, h, s, s', hs, .letIn bindings body => by
    rw [WellSorted.infer, WellSorted.infer]
    refine (h.inferBindings (L.item 1 hs) 0 bindings).bind_eq fun sorts => ?_
    cases sorts with
    | none => exact Logged.like_pure rfl
    | some sorts =>
      exact (h.bind (like_letVars hs bindings sorts)).bind fun _ _ hK =>
        hK.infer (L.item 2 hs) body
  | G, H, h, s, s', hs, .quantified q vars body => by
    rw [WellSorted.infer, WellSorted.infer]
    refine (Logged.like_reportAll (h.checkSorts (L.at_spot _ hs) [] _)).bind_eq fun _ => ?_
    refine (h.bind (like_quantifierVars h hs vars)).bind fun K M hK => ?_
    refine (hK.infer (L.item 2 hs) body).bind_eq fun sort => ?_
    cases sort with
    | none => exact Logged.like_pure rfl
    | some sort =>
      simp only
      split
      · exact Logged.like_pure rfl
      · exact like_fail (L.at_spot _ hs) fun _ => rfl
  | G, H, h, s, s', hs, .matching scrutinee arms => by
    rw [WellSorted.infer, WellSorted.infer]
    refine (h.infer (L.item 1 hs) scrutinee).bind_eq fun sort => ?_
    cases sort with
    | none => exact Logged.like_pure rfl
    | some sort =>
      refine (h.inferArms (L.at_spot _ hs) sort (L.item 2 hs) 0 arms).bind_eq fun sorts => ?_
      cases sorts with
      | none => exact Logged.like_pure rfl
      | some sorts => exact like_commonSort (L.at_spot _ hs) sorts
  | _, _, h, _, _, hs, .annotated t _ => h.infer (L.item 1 hs) t

theorem Like.inferAll : ∀ {G H : Stack}, G.Like L H → ∀ {s s' : Spot}, L.spot s s' → ∀ (i : Nat)
    (ts : List Term), (inferAll G s i ts).Like L Eq (inferAll H s' i ts)
  | _, _, _, _, _, _, _, [] => Logged.like_pure rfl
  | G, H, h, s, s', hs, i, t :: ts => by
    rw [WellSorted.inferAll, WellSorted.inferAll]
    refine (h.infer (L.item i hs) t).bind_eq fun sort => ?_
    refine (h.inferAll hs (i + 1) ts).bind_eq fun sorts => ?_
    exact Logged.like_pure rfl

theorem Like.inferBindings : ∀ {G H : Stack}, G.Like L H → ∀ {s s' : Spot}, L.spot s s' →
    ∀ (i : Nat) (bs : List (String × Term)),
      (inferBindings G s i bs).Like L Eq (inferBindings H s' i bs)
  | _, _, _, _, _, _, _, [] => Logged.like_pure rfl
  | G, H, h, s, s', hs, i, (x, t) :: bs => by
    rw [WellSorted.inferBindings, WellSorted.inferBindings]
    refine (h.infer (L.item 1 (L.item i hs)) t).bind_eq fun sort => ?_
    refine (h.inferBindings hs (i + 1) bs).bind_eq fun sorts => ?_
    exact Logged.like_pure rfl

theorem Like.inferArms : ∀ {G H : Stack}, G.Like L H → ∀ {n n' : Node}, L.node n n' →
    ∀ (sort : SmtSort) {s s' : Spot}, L.spot s s' → ∀ (i : Nat) (arms : List (Pattern × Term)),
      (inferArms G n sort s i arms).Like L Eq (inferArms H n' sort s' i arms)
  | _, _, _, _, _, _, _, _, _, _, _, [] => Logged.like_pure rfl
  | G, H, h, n, n', hn, sort, s, s', hs, i, (p, t) :: arms => by
    rw [inferArms_cons, inferArms_cons]
    have harm : (inferArm G n sort (s.item i) p t arms.isEmpty).Like L Eq
        (inferArm H n' sort (s'.item i) p t arms.isEmpty) := by
      refine (like_caseScope h hn (L.item 0 (L.item i hs)) sort p arms.isEmpty).bind ?_
      intro o o' ho
      cases ho with
      | none => exact Logged.like_pure rfl
      | some hK => exact hK.infer (L.item 1 (L.item i hs)) t
    refine harm.bind_eq fun r => ?_
    refine (h.inferArms hn sort hs (i + 1) arms).bind_eq fun rs => ?_
    exact Logged.like_pure rfl

end

end Stack

end WellSorted
