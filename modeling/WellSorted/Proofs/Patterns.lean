import WellSorted.Proofs.Datatypes
import WellSorted.Proofs.Resetting

/-!
# Heads of patterns

A pattern starts with the only function of its name that gives the sort of the scrutinee and has as
many arguments as the pattern has binders, or it is a symbol that catches everything
(`exists_head_of_yields`). Functions are not marked as constructors, so that any other function that
fits is taken for one. Whatever a script declares comes from one of its commands or from a theory
(`Stack.Sourced`). So in a script that is checked without a message, the head of a pattern is a
constructor that a datatype was declared with, unless it was introduced as another kind of function
(`Check.heads_of_quiet_script`).
-/

namespace WellSorted

open Sorting Check

/-! ### Cases of a match -/

/-- Each case of a match that has a sort was entered. -/
theorem exists_caseScope_of_yields {G : Stack} {n : Node} {sort : SmtSort} {s : Spot} {i : Nat}
    {arms : List (Pattern × Term)} {rs : List SmtSort}
    (h : (inferArms G n sort s i arms).Yields rs) {j : Nat} {p : Pattern} {t : Term}
    (hj : arms[j]? = some (p, t)) :
    ∃ s' K, (caseScope G n sort s' p (j + 1 == arms.length)).Yields K := by
  induction arms generalizing i j rs with
  | nil => cases hj
  | cons arm arms ih =>
    obtain ⟨q, u⟩ := arm
    rw [inferArms_cons, yields_consSort] at h
    obtain ⟨r, rest, -, hr, hrest⟩ := h
    cases j with
    | zero =>
      cases hj
      obtain ⟨K, hK, -⟩ := (Logged.yields_bind (by rfl)).mp hr
      have hlast : arms.isEmpty = (0 + 1 == (((p, t) :: arms).length)) := by
        cases arms <;> simp
      exact ⟨_, K, hlast ▸ hK⟩
    | succ j =>
      obtain ⟨s', K, hK⟩ := ih hrest hj
      exact ⟨s', K, by simpa using hK⟩

/-- The head of each pattern in a match that has a sort. -/
theorem exists_head_of_yields {G : Stack} {s : Spot} {t : Term} {arms : List (Pattern × Term)}
    {r : SmtSort} (h : (infer G s (.matching t arms)).Yields r) :
    ∃ sort, (infer G (s.item 1) t).Yields sort ∧ ∀ j p u, arms[j]? = some (p, u) →
      G.isCatchAll sort p (j + 1 == arms.length) = true ∨
      ∃ f, Only (Builds FunDecl.Determined p.arguments.length sort)
        (G.overloads (quoteSymbol p.head)) f := by
  rw [infer] at h
  obtain ⟨sort, hsort, hrest⟩ := (Logged.yields_bind (by rfl)).mp h
  obtain ⟨rs, harms, -⟩ := (Logged.yields_bind (by rfl)).mp hrest
  refine ⟨sort, hsort, fun j p u hj => ?_⟩
  obtain ⟨s', K, hK⟩ := exists_caseScope_of_yields harms hj
  obtain ⟨-, ⟨fields, hfields, -⟩ | ⟨hnil, hlast, hsymbol, -⟩⟩ := yields_caseScope.mp hK
  · obtain ⟨f, hf, -⟩ := filterMap_fields_eq_singleton.mp hfields
    exact .inr ⟨f, hf⟩
  · refine .inl ?_
    rw [Stack.isCatchAll, hlast, hsymbol, Stack.patternFields, hnil]
    rfl

/-! ### Terms of a command -/

namespace Command

/-- The terms in a command. -/
def terms : Command → List Term
  | .assert t => [t]
  | .checkSatAssuming ts => ts
  | .getValue ts => ts
  | .defineConst _ _ t => [t]
  | .defineFun _ t => [t]
  | .defineFunRec _ t => [t]
  | .defineFunsRec _ ts => ts
  | _ => []

end Command

namespace Check

/-- The scope of the body of a function. -/
def bodyScope (G : Stack) (f : FunDecl) (vars : List (Spot × SortedVar)) : Stack :=
  (G.bind (functionVars f vars)).value

/-- The bodies of functions that are defined together. -/
def bodyVisits (G : Stack) :
    List FunDecl → List (Spot × FunctionDec) → List (Spot × Term) → List Visit
  | f :: fs, (s, dec) :: decs, (s', t) :: ts =>
    ⟨bodyScope G f (dec.varSpots s 0), s', t⟩ :: bodyVisits G fs decs ts
  | _, _, _ => []

/-- The terms that the command at `s` sorts. -/
def sortedTerms (s : Spot) (c : Command) (G : Stack) : List Visit :=
  let n := s.node (.command c)
  match c with
  | .assert t => [⟨G, s.item 1, t⟩]
  | .checkSatAssuming ts => ((s.item 1).along 0 ts).map fun (s, t) => ⟨G, s, t⟩
  | .getValue ts => ((s.item 1).along 0 ts).map fun (s, t) => ⟨G, s, t⟩
  | .defineConst name sort t =>
    [⟨bodyScope G (announce G n ⟨name, [], sort⟩ (some t)).value [], s.item 3, t⟩]
  | .defineFun dec t =>
    [⟨bodyScope G (announce G n dec (some t)).value (dec.varSpots s 1), s.item 4, t⟩]
  | .defineFunRec dec t =>
    let f := (announce G n dec (some t)).value
    [⟨bodyScope (G.push.enter (.function f)).value f (dec.varSpots s 1), s.item 4, t⟩]
  | .defineFunsRec decs ts =>
    let fs := (announceAll G n decs ts).value
    bodyVisits (G.push.enterAll (fs.map .function)).value fs ((s.item 1).along 0 decs)
      ((s.item 2).along 0 ts)
  | _ => []

end Check

/-- If a missing value is reported and nothing is found, there is a value. -/
theorem Logged.exists_yields_of_bind {α β : Type} {x : Logged (Option α)} {k : Option α → Logged β}
    (hk : (k none).findings ≠ []) (h : (x >>= k).findings = []) : ∃ a, x.Yields a := by
  rw [findings_bind, List.append_eq_nil_iff] at h
  cases hx : x.value with
  | none =>
    rw [hx] at h
    exact absurd h.2 hk
  | some a => exact ⟨a, hx, h.1⟩

namespace Check

/-! A command without findings has found a sort for all of its terms. -/

section

variable {G : Stack} {n : Node} {s : Spot} {t : Term}

theorem exists_yields_of_formula {illSorted : Problem} {wrongSort : SmtSort → Problem}
    (h : (formula G n illSorted wrongSort s t).findings = []) : ∃ r, (infer G s t).Yields r :=
  Logged.exists_yields_of_bind (List.cons_ne_nil _ _) h

theorem exists_yields_of_sorted (h : (sorted G n s t).findings = []) :
    ∃ r, (infer G s t).Yields r :=
  Logged.exists_yields_of_bind (List.cons_ne_nil _ _) h

theorem exists_yields_of_body {f : FunDecl} {vars : List (Spot × SortedVar)}
    (h : (body G f vars s t).findings = []) : ∃ r, (infer (bodyScope G f vars) s t).Yields r := by
  rw [body, Logged.findings_bind, List.append_eq_nil_iff] at h
  exact Logged.exists_yields_of_bind (List.cons_ne_nil _ _) h.2

theorem findings_of_eachTerm {check : Spot → Term → Logged Unit} {ts : List Term}
    (h : (eachTerm check s ts).findings = []) :
    ∀ item ∈ s.along 0 ts, (check item.1 item.2).findings = [] := by
  rw [eachTerm, List.forM_eq_forM] at h
  generalize s.along 0 ts = items at h
  induction items with
  | nil => exact fun _ hitem => absurd hitem List.not_mem_nil
  | cons item items ih =>
    rw [List.forM_cons, Logged.findings_bind, List.append_eq_nil_iff] at h
    exact List.forall_mem_cons.mpr ⟨h.1, ih h.2⟩

theorem exists_yields_of_bodies {fs : List FunDecl} {decs : List (Spot × FunctionDec)}
    {ts : List (Spot × Term)} (h : (bodies G fs decs ts).findings = []) :
    ∀ v ∈ bodyVisits G fs decs ts, ∃ r, (infer v.stack v.spot v.term).Yields r := by
  fun_induction bodyVisits G fs decs ts with
  | case1 f fs s dec decs s' t ts ih =>
    rw [bodies, Logged.findings_bind, List.append_eq_nil_iff] at h
    exact List.forall_mem_cons.mpr ⟨exists_yields_of_body h.1, ih h.2⟩
  | case2 => exact fun _ hv => absurd hv List.not_mem_nil

theorem exists_yields_of_defineFun {isRecursive : Bool} {dec : FunctionDec}
    {vars : List (Spot × SortedVar)} (h : (defineFun G n isRecursive dec vars s t).findings = []) :
    let f := (announce G n dec (some t)).value
    ∃ r, (infer (bodyScope (if isRecursive then (G.push.enter (.function f)).value else G) f vars)
      s t).Yields r := by
  cases isRecursive with
  | false =>
    simp only [defineFun, Bool.false_eq_true, if_false, Logged.findings_bind,
      List.append_eq_nil_iff] at h
    exact exists_yields_of_body h.2.2.1
  | true =>
    simp only [defineFun, if_true, Logged.findings_bind, List.append_eq_nil_iff] at h
    exact exists_yields_of_body h.2.2.1

theorem exists_yields_of_command {setup : Setup} {ctx : Context} {c : Command}
    (h : (command setup ctx s c).findings = []) :
    ∀ v ∈ sortedTerms s c ctx.stack, ∃ r, (infer v.stack v.spot v.term).Yields r := by
  have hstack : (ctx.onStack (declarations s c)).findings = [] →
      (declarations s c ctx.stack).findings = [] := fun h => (List.append_eq_nil_iff.mp h).1
  cases c with
  | assert t =>
    exact List.forall_mem_singleton.mpr
      (exists_yields_of_formula (List.append_eq_nil_iff.mp (hstack h)).1)
  | checkSatAssuming ts =>
    refine List.forall_mem_map.mpr fun item hitem => ?_
    exact exists_yields_of_formula
      (findings_of_eachTerm (List.append_eq_nil_iff.mp (hstack h)).1 item hitem)
  | getValue ts =>
    refine List.forall_mem_map.mpr fun item hitem => ?_
    exact exists_yields_of_sorted
      (findings_of_eachTerm (List.append_eq_nil_iff.mp (hstack h)).1 item hitem)
  | defineConst name sort t =>
    exact List.forall_mem_singleton.mpr (exists_yields_of_defineFun (hstack h))
  | defineFun dec t =>
    exact List.forall_mem_singleton.mpr (exists_yields_of_defineFun (hstack h))
  | defineFunRec dec t =>
    exact List.forall_mem_singleton.mpr (exists_yields_of_defineFun (hstack h))
  | defineFunsRec decs ts =>
    have hquiet := hstack h
    simp only [declarations, defineFunsRec, Spot.map_snd_along, Logged.findings_bind,
      List.append_eq_nil_iff] at hquiet
    exact exists_yields_of_bodies hquiet.2.2.1
  | _ => exact fun _ hv => absurd hv List.not_mem_nil

end

theorem map_term_bodyVisits (G : Stack) {fs : List FunDecl} {decs : List (Spot × FunctionDec)}
    {ts : List (Spot × Term)} (hfs : fs.length = ts.length) (hdecs : decs.length = ts.length) :
    (bodyVisits G fs decs ts).map (·.term) = ts.map Prod.snd := by
  induction ts generalizing fs decs with
  | nil =>
    obtain rfl := List.length_eq_zero_iff.mp hfs
    rfl
  | cons t ts ih =>
    obtain ⟨f, fs, rfl⟩ := List.exists_cons_of_length_eq_add_one hfs
    obtain ⟨dec, decs, rfl⟩ := List.exists_cons_of_length_eq_add_one hdecs
    rw [bodyVisits, List.map_cons, List.map_cons, ih (Nat.succ.inj hfs) (Nat.succ.inj hdecs)]

theorem length_announceAll (G : Stack) (n : Node) (decs : List FunctionDec) (ts : List Term) :
    (announceAll G n decs ts).value.length = decs.length := by
  induction decs generalizing ts with
  | nil => rfl
  | cons dec decs ih =>
    rw [announceAll, Logged.value_bind, Logged.value_bind, Logged.value_pure, List.length_cons,
      List.length_cons, ih]

/-- No term of a command that passes the syntax check is left out. -/
theorem map_term_sortedTerms (G : Stack) {s : Spot} {c : Command}
    (h : SyntaxCheck.command s c = []) : (sortedTerms s c G).map (·.term) = c.terms := by
  have hterms (s : Spot) (ts : List Term) :
      ((s.along 0 ts).map fun (s, t) => (⟨G, s, t⟩ : Visit)).map (·.term) = ts := by
    rw [List.map_map]
    exact s.map_snd_along 0 ts
  cases c with
  | checkSatAssuming ts => exact hterms _ ts
  | getValue ts => exact hterms _ ts
  | defineFunsRec decs ts =>
    have hlength := SyntaxCheck.length_eq_of_defineFunsRec h
    rw [sortedTerms, map_term_bodyVisits, Spot.map_snd_along, Command.terms]
    · rw [length_announceAll, Spot.length_along, hlength]
    · rw [Spot.length_along, Spot.length_along, hlength]
  | _ => rfl

end Check

/-! ### Where functions come from -/

/-- Whether a function comes from a theory or from one of the commands. -/
def FunDecl.ComesFrom (items : List (Spot × Command)) (f : FunDecl) : Prop :=
  (Declaration.function f).OfTheory ∨
    ∃ item ∈ items, ∃ G, (Declaration.function f).Arises False item.1 item.2 G

namespace Stack

/-- Whether all functions of a stack come from theories or from the commands. -/
def Sourced (items : List (Spot × Command)) (G : Stack) : Prop :=
  ∀ f, G.Has (.function f) → f.ComesFrom items

variable {items : List (Spot × Command)} {G H : Stack}

theorem sourced_empty : Stack.empty.Sourced items :=
  fun _ hf => absurd hf (not_has_empty _)

theorem Sourced.mono {items' : List (Spot × Command)} (hG : G.Sourced items)
    (hsub : items ⊆ items') : G.Sourced items' :=
  fun f hf => (hG f hf).imp_right fun ⟨item, hitem, h⟩ => ⟨item, hsub hitem, h⟩

theorem Sourced.push (hG : G.Sourced items) : G.push.Sourced items :=
  fun f hf => hG f (has_push.mp hf)

theorem Sourced.entered {P : Stack → Declaration → Prop} (hG : G.Sourced items)
    (h : G.Entered P H) (hP : ∀ K f, P K (.function f) → f.ComesFrom items) : H.Sourced items := by
  induction h with
  | refl => exact hG
  | insert _ hd hinsert ih =>
    intro f hf
    rcases (has_of_insert hinsert).mp hf with hf | rfl
    · exact ih f hf
    · exact hP _ f hd

theorem Sourced.moves {P : Stack → Declaration → Prop} (hG : G.Sourced items)
    (h : G.Moves P H) (hP : ∀ K f, P K (.function f) → f.ComesFrom items) : H.Sourced items := by
  cases h with
  | entered h => exact hG.entered h hP
  | pushed n =>
    intro f hf
    rw [← mem_allFuns, allFuns_pushMany, mem_allFuns] at hf
    exact hG f hf
  | popped h =>
    rintro f ⟨scope, hscope, hf⟩
    refine hG f ⟨scope, ?_, hf⟩
    rw [scopes_of_pop h]
    exact List.mem_append_right _ hscope

/-- Binding variables brings no functions. -/
theorem Sourced.bind (hG : G.Sourced items) (vars : List VarDecl) :
    (G.bind vars).value.Sourced items := by
  refine hG.push.entered (P := fun _ d => ∃ v, d = .var v) (entered_enterAll fun d hd H _ => ?_) ?_
  · obtain ⟨v, -, rfl⟩ := List.mem_map.mp hd
    exact ⟨v, rfl⟩
  · rintro K f ⟨v, hv⟩
    cases hv

end Stack

theorem FunDecl.comesFrom_of_arises {items : List (Spot × Command)} {s : Spot} {c : Command}
    (hc : (s, c) ∈ items) {G : Stack} {f : FunDecl}
    (h : (Declaration.function f).Arises False s c G) : f.ComesFrom items :=
  .inr ⟨(s, c), hc, G, h⟩

namespace Check

variable {setup : Setup} {items : List (Spot × Command)}

theorem sourced_command {ctx : Context} (hctx : ctx.stack.Sourced items) {s : Spot} {c : Command}
    (hc : (s, c) ∈ items) : (command setup ctx s c).value.stack.Sourced items := by
  by_cases hreset : c = .reset
  · -- A reset starts again from an empty stack, with the core theory at most.
    subst hreset
    exact Stack.sourced_empty.entered (Context.extended_loadCore ctx.reset) fun _ _ => .inl
  · exact hctx.moves (Context.moves_arises hreset False.elim) fun _ _ =>
      FunDecl.comesFrom_of_arises hc

/-- The functions in view in a script come from theories and from the commands before. -/
theorem sourced_upTo (setup : Setup) (source : Source) (cs : List Command) (n : Nat) :
    (upTo setup source cs n).value.stack.Sourced (((Spot.top source).along 0 cs).take n) := by
  rw [upTo, Logged.value_bind]
  refine Logged.foldlM_inv (Q := fun ctx : Context => ctx.stack.Sourced _) False.elim
    (fun item hitem ctx hctx _ => sourced_command hctx hitem) ?_
  exact Stack.sourced_empty.entered (Context.extended_loadCore .fresh) fun _ _ => .inl

theorem sourced_bodyVisits {G : Stack} (hG : G.Sourced items) (fs : List FunDecl)
    (decs : List (Spot × FunctionDec)) (ts : List (Spot × Term)) :
    ∀ v ∈ bodyVisits G fs decs ts, v.stack.Sourced items := by
  fun_induction bodyVisits G fs decs ts with
  | case1 f fs s dec decs s' t ts ih => exact List.forall_mem_cons.mpr ⟨hG.bind _, ih⟩
  | case2 => exact fun _ hv => absurd hv List.not_mem_nil

/-- A term may also use the functions that its command defines recursively. -/
theorem sourced_sortedTerms {G : Stack} (hG : G.Sourced items) {s : Spot} {c : Command}
    (hc : (s, c) ∈ items) : ∀ v ∈ sortedTerms s c G, v.stack.Sourced items := by
  cases c with
  | assert t => exact List.forall_mem_singleton.mpr hG
  | checkSatAssuming ts => exact List.forall_mem_map.mpr fun _ _ => hG
  | getValue ts => exact List.forall_mem_map.mpr fun _ _ => hG
  | defineConst name sort t => exact List.forall_mem_singleton.mpr (hG.bind _)
  | defineFun dec t => exact List.forall_mem_singleton.mpr (hG.bind _)
  | defineFunRec dec t =>
    refine List.forall_mem_singleton.mpr (Stack.Sourced.bind ?_ _)
    exact hG.push.entered (P := Declaration.Arises False s (.defineFunRec dec t))
      (Stack.entered_enter (.function (List.mem_singleton_self _) rfl rfl))
      fun _ _ => FunDecl.comesFrom_of_arises hc
  | defineFunsRec decs ts =>
    refine sourced_bodyVisits ?_ _ _ _
    exact hG.push.entered (P := Declaration.Arises False s (.defineFunsRec decs ts))
      (Stack.entered_enterAll fun d hd H _ =>
        Stack.arises_announceAll (List.Subset.refl _) H d hd)
      fun _ _ => FunDecl.comesFrom_of_arises hc
  | _ => exact fun _ hv => absurd hv List.not_mem_nil

end Check

/-! ### Heads of patterns -/

/-- Whether a function is a constructor that one of the commands declared for a sort, with the name
and the number of fields that a pattern asks for. -/
inductive FunDecl.ConstructorFor (items : List (Spot × Command)) (sort : SmtSort) (p : Pattern) :
    FunDecl → Prop
  | mk {s : Spot} {c : Command} {d : SortDec × DatatypeDec} {k : ConstructorDec}
      {args fields : List SmtSort} : (s, c) ∈ items → d ∈ c.datatypes → k ∈ d.2.constructors →
      k.name = p.head → k.selectors.length = p.arguments.length →
      sort = .mk (.simple d.1.name) args → args.length = d.2.params.length →
      ConstructorFor items sort p ((Datatype.ofDec (s.node (.command c)) d.1.name d.2).function
        (quoteSymbol k.name) fields (Datatype.ofDec (s.node (.command c)) d.1.name d.2).sort)

/-- Whether a function with the name of a pattern was introduced as something else: by a theory, by
a declaration or definition of functions, or as a selector. -/
inductive FunDecl.OtherThanConstructor (items : List (Spot × Command)) (p : Pattern)
    (f : FunDecl) : Prop
  | theory {dec : FunSymbolDec} : f.node.part = .funDec dec → OtherThanConstructor items p f
  | function {s : Spot} {c : Command} : (s, c) ∈ items → p.head ∈ c.functionNames →
      f.node = s.node (.command c) → OtherThanConstructor items p f
  | selector {s : Spot} {c : Command} {d : SortDec × DatatypeDec} {k : ConstructorDec}
      {v : SortedVar} : (s, c) ∈ items → d ∈ c.datatypes → k ∈ d.2.constructors →
      v ∈ k.selectors → v.name = p.head → f.node = s.node (.command c) →
      OtherThanConstructor items p f

/-- An instance of a datatype is the datatype with arguments for its parameters. -/
theorem Check.Datatype.exists_replace_sort (n : Node) {name : String} {dec : DatatypeDec}
    {σ : Subst} (hσ : σ.Total (ofDec n name dec).params) :
    ∃ args, (ofDec n name dec).sort.replace σ = .mk (.simple name) args ∧
      args.length = dec.params.length := by
  refine ⟨SmtSort.replaceAll σ ((dec.params.map quoteSymbol).map SmtSort.simple), ?_, ?_⟩
  · refine SmtSort.replace_mk_of_ne_simple σ fun p s hs heq => ?_
    -- Only a datatype without parameters is an atom, and then there is nothing to replace.
    have hnil := (SmtSort.mk_eq_simple.mp heq).2
    have hp : p ∈ dec.params.map quoteSymbol := hσ.within p s hs
    rw [List.map_eq_nil_iff.mp hnil] at hp
    exact absurd hp List.not_mem_nil
  · rw [SmtSort.replaceAll_eq_map, List.length_map, List.length_map, List.length_map]

theorem quoteSymbol_ne_testerName (x : String) (k : ConstructorDec) :
    quoteSymbol x ≠ Datatype.testerName (quoteSymbol k.name) := by
  intro h
  rw [← k.key_tester] at h
  have hsimple := Identifier.key_eq_quoteSymbol.mp h.symm
  exact absurd (congrArg Identifier.indices hsimple) (List.cons_ne_nil _ _)

/-- What a pattern takes for a constructor is one, unless it was introduced as something else. -/
theorem FunDecl.ComesFrom.head {items : List (Spot × Command)} {f : FunDecl}
    (h : f.ComesFrom items) {p : Pattern} (hname : f.name = quoteSymbol p.head) {sort : SmtSort}
    (hf : Builds Determined p.arguments.length sort f) :
    f.ConstructorFor items sort p ∨ f.OtherThanConstructor items p := by
  rcases h with ⟨dec, hdec⟩ | ⟨⟨s, c⟩, hc, G, harises⟩
  · exact .inr (.theory hdec)
  · cases harises with
    | theory htheory =>
      obtain ⟨dec, hdec⟩ := htheory
      exact .inr (.theory hdec)
    | function hmem hquote hnode =>
      rw [quoteSymbol_injective (hquote.symm.trans hname)] at hmem
      exact .inr (.function hc hmem hnode)
    | datatype hd hk hof =>
      cases hof with
      | selector hv => exact .inr (.selector hc hd hk hv (quoteSymbol_injective hname) rfl)
      | constructor hlength =>
        obtain ⟨hargs, ⟨fields, σ, hσ, hsort, -⟩, -⟩ := hf
        obtain ⟨args, hreplace, hcount⟩ := Datatype.exists_replace_sort (s.node (.command c)) hσ
        exact .inl (.mk hc hd hk (quoteSymbol_injective hname) (hlength.symm.trans hargs)
          (hsort.symm.trans hreplace) hcount)
      | tester => exact absurd hname.symm (quoteSymbol_ne_testerName _ _)

namespace Check

/-- A script without findings has none at any of its commands. -/
theorem findings_command_of_root {setup : Setup} {source : Source} {cs : List Command}
    (h : (root setup .fresh ⟨source, .script cs⟩).findings = []) {j : Nat} {s : Spot} {c : Command}
    (hc : ((Spot.top source).along 0 cs)[j]? = some (s, c)) :
    (command setup (upTo setup source cs j).value s c).findings = [] := by
  obtain ⟨hj, hitem⟩ := List.getElem?_eq_some_iff.mp hc
  rw [root_script_split setup source cs j, List.drop_eq_getElem_cons hj, hitem,
    Logged.findings_bind, List.append_eq_nil_iff, commands_cons, Logged.findings_bind,
    List.append_eq_nil_iff] at h
  exact h.2.1

/-- In a script without findings, the pattern of each case of each match, at any depth of any term,
is a symbol that catches everything, or its head is the only function in view that fits it. This
function is a constructor that the script has declared for the sort of the scrutinee, with a field
for each binder, unless it was introduced as something else. -/
theorem heads_of_quiet_script (setup : Setup) (source : Source) (cs : List Command)
    (h : (root setup .fresh ⟨source, .script cs⟩).findings = []) (j : Nat) (s : Spot) (c : Command)
    (hc : ((Spot.top source).along 0 cs)[j]? = some (s, c)) :
    let G := (upTo setup source cs j).value.stack
    let items := ((Spot.top source).along 0 cs).take (j + 1)
    (SyntaxCheck.command s c = [] → (sortedTerms s c G).map (·.term) = c.terms) ∧
      ∀ v ∈ sortedTerms s c G, ∀ w ∈ visits v.stack v.spot v.term, ∀ t arms,
        w.term = .matching t arms →
        ∃ sort, (infer w.stack (w.spot.item 1) t).Yields sort ∧
          ∀ i p u, arms[i]? = some (p, u) →
            w.stack.isCatchAll sort p (i + 1 == arms.length) = true ∨
            ∃ f, Only (Builds FunDecl.Determined p.arguments.length sort)
                (w.stack.overloads (quoteSymbol p.head)) f ∧
              (f.ConstructorFor items sort p ∨ f.OtherThanConstructor items p) := by
  intro G items
  refine ⟨map_term_sortedTerms G, fun v hv w hw t arms hterm => ?_⟩
  have hsub : ((Spot.top source).along 0 cs).take j ⊆ items :=
    (List.take_sublist_take_left (Nat.le_succ j)).subset
  have hmem : (s, c) ∈ items :=
    List.mem_of_getElem? ((List.getElem?_take_of_lt (Nat.lt_succ_self j)).trans hc)
  have hsourced : v.stack.Sourced items :=
    sourced_sortedTerms ((sourced_upTo setup source cs j).mono hsub) hmem v hv
  obtain ⟨r, hr⟩ := exists_yields_of_command (findings_command_of_root h hc) v hv
  obtain ⟨hshares, q, hq⟩ := sorted_of_mem_visits (.refl v.stack) hr w hw
  rw [hterm] at hq
  obtain ⟨sort, hsort, hheads⟩ := exists_head_of_yields hq
  refine ⟨sort, hsort, fun i p u hi => (hheads i p u hi).imp_right ?_⟩
  rintro ⟨f, hf⟩
  -- Binders in between bring variables only, so the function is in view for the whole term.
  have hview : f ∈ v.stack.overloads (quoteSymbol p.head) := hshares.overloads _ ▸ hf.1
  have hname := (Stack.mem_allOverloads.mp (Stack.mem_allOverloads_of_mem_overloads hview)).2
  exact ⟨f, hf, (hsourced f (Stack.has_of_mem_overloads hview)).head hname hf.2.1⟩

/-- The tail of the list `y`, and `y` itself if it is empty. -/
def tailOrSelf : Term :=
  .matching (.ident ⟨.simple "y", none⟩)
    [(.applied "cons" none ["h", "t"], .ident ⟨.simple "t", none⟩),
      (.symbol "z", .ident ⟨.simple "z", none⟩)]

/-- The tail of the tail of the list `l`. -/
def tailOfTail : Term :=
  .matching (.ident ⟨.simple "l", none⟩)
    [(.applied "cons" none ["x", "y"], tailOrSelf), (.symbol "nil", .ident ⟨.simple "l", none⟩)]

def tailOfTailScript : List Command :=
  [.declareSort "A" 0, .declareDatatypes [⟨"List", 1⟩] [listDec],
    .declareConst "l" (.mk (.simple "List") [.simple "A"]), .getValue [tailOfTail]]

theorem heads_of_quiet_script_list :
    let source : Source := ⟨.nowhere, [], []⟩
    let items := (Spot.top source).along 0 tailOfTailScript
    (root bare .fresh ⟨source, .script tailOfTailScript⟩).findings = [] ∧
      ∃ (w : Visit) (f : FunDecl), w.term = tailOrSelf ∧ f ∈ w.stack.overloads "cons" ∧
        f.ConstructorFor items (.mk (.simple "List") [.simple "A"])
          (.applied "cons" none ["h", "t"]) := by
  intro source items
  have hquiet : (root bare .fresh ⟨source, .script tailOfTailScript⟩).findings = [] := by
    decide +kernel
  obtain ⟨-, hheads⟩ := heads_of_quiet_script bare source tailOfTailScript hquiet 3
    ((Spot.top source).item 3) (.getValue [tailOfTail]) rfl
  obtain ⟨v, hv, w, hw, hterm, hsort, hpart⟩ :
      ∃ v ∈ sortedTerms ((Spot.top source).item 3) (.getValue [tailOfTail])
          (upTo bare source tailOfTailScript 3).value.stack,
        ∃ w ∈ visits v.stack v.spot v.term, w.term = tailOrSelf ∧
          (infer w.stack (w.spot.item 1) (.ident ⟨.simple "y", none⟩)).value =
            some (.mk (.simple "List") [.simple "A"]) ∧
          ∀ f ∈ w.stack.overloads "cons", (f.node.part matches .command _) = true := by
    refine ⟨_, List.mem_cons_self, ?_⟩
    rw [tailOfTail, visits, armVisits, tailOrSelf, visits]
    refine ⟨_, List.mem_cons_of_mem _ (List.mem_append_right _ List.mem_cons_self), rfl, ?_, ?_⟩
    · decide +kernel
    · decide +kernel
  have hkey : quoteSymbol (Pattern.applied "cons" none ["h", "t"]).head = "cons" := by
    decide +kernel
  obtain ⟨sort, hyields, harms⟩ := hheads v hv w hw _ _ hterm
  obtain rfl := Option.some.inj (hsort.symm.trans hyields.1)
  obtain hcatch | ⟨f, hf, hctor | hother⟩ := harms 0 _ _ rfl
  · simp [Stack.isCatchAll, Pattern.isSymbol] at hcatch
  · exact ⟨hquiet, w, f, hterm, hkey ▸ hf.1, hctor⟩
  · have hnames : ∀ item ∈ items, "cons" ∉ item.2.functionNames ∧ ∀ d ∈ item.2.datatypes,
        ∀ k ∈ d.2.constructors, ∀ v ∈ k.selectors, v.name ≠ "cons" := by decide +kernel
    cases hother with
    | theory hdec =>
      have hcommand := hpart f (hkey ▸ hf.1)
      rw [hdec] at hcommand
      cases hcommand
    | function hc hhead => exact absurd hhead (hnames _ hc).1
    | selector hc hd hk hv hname => exact absurd hname ((hnames _ hc).2 _ hd _ hk _ hv)

/-- A declared function passes for a constructor. -/
theorem head_of_declared_function :
    let source : Source := ⟨.nowhere, [], []⟩
    let cs : List Command :=
      [.declareDatatype "Color" ⟨none, [⟨"red", []⟩, ⟨"green", []⟩]⟩,
        .declareFun "f" [.simple "Color"] (.simple "Color"), .declareConst "c" (.simple "Color"),
        .getValue [.matching (.ident ⟨.simple "c", none⟩)
          [(.applied "f" none ["x"], .ident ⟨.simple "x", none⟩),
            (.symbol "red", .ident ⟨.simple "c", none⟩)]]]
    (∀ item ∈ (Spot.top source).along 0 cs, SyntaxCheck.command item.1 item.2 = []) ∧
      (root bare .fresh ⟨source, .script cs⟩).findings = [] ∧
      ∀ c ∈ cs, ∀ d ∈ c.datatypes, ∀ k ∈ d.2.constructors, k.name ≠ "f" := by
  intro source cs
  exact ⟨by decide +kernel, by decide +kernel, by decide +kernel⟩

end Check

end WellSorted
