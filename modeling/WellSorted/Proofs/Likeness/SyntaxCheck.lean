import WellSorted.Proofs.Likeness.Stacks

/-!
# Likeness of the syntax check

The syntax check reads a tree and only reports where its parts stand. So the findings in a tree at
two places correspond one to one (`SyntaxCheck.like_root`).
-/

namespace WellSorted.SyntaxCheck

variable {L : Likeness} {n n' : Node} {s s' : Spot}

/-! ### Words, sorts and attributes -/

theorem like_symbol (hs : L.spot s s') (text : String) :
    L.Findings (symbol s text) (symbol s' text) := by
  unfold symbol
  split
  · exact .nil
  · exact L.findings_single (L.at_spot _ hs) _

theorem like_keyword (hs : L.spot s s') (text : String) :
    L.Findings (keyword s text) (keyword s' text) := by
  unfold keyword
  split
  · exact .nil
  · exact L.findings_single (L.at_spot _ hs) _

theorem like_require (hn : L.node n n') (holds : Bool) (p : Problem) :
    L.Findings (require holds n p) (require holds n' p) := by
  unfold require
  split
  · exact .nil
  · exact L.findings_single hn _

/-- One problem for each of some values. -/
theorem like_problems {α : Type} (hn : L.node n n') (p : α → Problem) (as : List α) :
    L.Findings (as.map fun a => n.finding (p a)) (as.map fun a => n'.finding (p a)) := by
  induction as with
  | nil => exact .nil
  | cons a as ih => exact .cons (like_finding hn fun _ => rfl) ih

theorem like_each {α : Type} {check check' : Spot → α → List Finding}
    (hcheck : ∀ {s s'} a, L.spot s s' → L.Findings (check s a) (check' s' a))
    {items items' : List (Spot × α)} (h : List.Forall₂ L.Item items items') :
    L.Findings (each check items) (each check' items') := by
  refine List.rel_flatMap h ?_
  rintro ⟨s, a⟩ ⟨s', _⟩ ⟨hs, rfl⟩
  exact hcheck a hs

theorem like_symbols {items items' : List (Spot × String)} (h : List.Forall₂ L.Item items items') :
    L.Findings (symbols items) (symbols items') :=
  like_each (fun text hs => like_symbol hs text) h

theorem like_identifier (hs : L.spot s s') (i : Identifier) :
    L.Findings (identifier s i) (identifier s' i) := by
  have hsymbol : L.spot (i.symbolSpot s) (i.symbolSpot s') := by
    unfold Identifier.symbolSpot
    split
    · exact L.item 1 hs
    · exact hs
  refine (like_symbol hsymbol _).append (like_each (fun index hs => ?_) (L.along hs 2 _))
  cases index with
  | numeral _ => exact .nil
  | symbol text => exact like_symbol hs text

mutual

theorem like_sort : ∀ {s s' : Spot}, L.spot s s' → ∀ sort : SmtSort,
    L.Findings (SyntaxCheck.sort s sort) (SyntaxCheck.sort s' sort)
  | s, s', hs, .mk head args => by
    have hhead : L.spot (SmtSort.headSpot (.mk head args) s)
        (SmtSort.headSpot (.mk head args) s') := by
      unfold SmtSort.headSpot
      split
      · exact hs
      · exact L.item 0 hs
    exact (like_identifier hhead head).append (like_sortsFrom hs 1 args)

theorem like_sortsFrom : ∀ {s s' : Spot}, L.spot s s' → ∀ (i : Nat) (sorts : List SmtSort),
    L.Findings (sortsFrom s i sorts) (sortsFrom s' i sorts)
  | _, _, _, _, [] => .nil
  | _, _, hs, i, sort :: sorts =>
    (like_sort (L.item i hs) sort).append (like_sortsFrom hs (i + 1) sorts)

end

mutual

theorem like_datum : ∀ {s s' : Spot}, L.spot s s' → ∀ d : Datum,
    L.Findings (datum s d) (datum s' d)
  | _, _, _, .constant _ => .nil
  | _, _, hs, .symbol text => like_symbol hs text
  | _, _, hs, .keyword text => like_keyword hs text
  | _, _, hs, .list items => like_dataFrom hs 0 items

theorem like_dataFrom : ∀ {s s' : Spot}, L.spot s s' → ∀ (i : Nat) (items : List Datum),
    L.Findings (dataFrom s i items) (dataFrom s' i items)
  | _, _, _, _, [] => .nil
  | _, _, hs, i, d :: items =>
    (like_datum (L.item i hs) d).append (like_dataFrom hs (i + 1) items)

end

theorem like_attributeValue (hs : L.spot s s') (v : AttributeValue) :
    L.Findings (attributeValue s v) (attributeValue s' v) := by
  cases v with
  | constant _ => exact .nil
  | symbol text => exact like_symbol hs text
  | list items => exact like_dataFrom hs 0 items

theorem like_oneAttribute (hs : L.spot s s') (a : Attribute) :
    L.Findings (oneAttribute s a) (oneAttribute s' a) := by
  refine (like_keyword hs _).append ?_
  cases a.value with
  | none => exact .nil
  | some v => exact (like_attributeValue (L.next hs) v).append .nil

theorem like_attributesFrom (hs : L.spot s s') (i : Nat) (as : List Attribute) :
    L.Findings (attributesFrom s i as) (attributesFrom s' i as) :=
  like_each (fun a hs => like_oneAttribute hs a) (L.spread hs _ i as)

theorem like_sortParams (hn : L.node n n') (params : List String) (sorts : List SmtSort) :
    L.Findings (sortParams n params sorts) (sortParams n' params sorts) :=
  ((like_problems hn _ _).append (like_problems hn _ _)).append (like_problems hn _ _)

theorem like_sortedVar (hs : L.spot s s') (v : SortedVar) :
    L.Findings (sortedVar s v) (sortedVar s' v) :=
  (like_symbol (L.item 0 hs) _).append (like_sort (L.item 1 hs) _)

/-! ### Terms -/

theorem like_qualIdentifier (hs : L.spot s s') (q : QualIdentifier) :
    L.Findings (qualIdentifier s q) (qualIdentifier s' q) := by
  have hname : L.spot (q.nameSpot s) (q.nameSpot s') := by
    unfold QualIdentifier.nameSpot
    split
    · exact L.item 1 hs
    · exact hs
  refine (like_identifier hname _).append ?_
  cases q.ascription with
  | none => exact .nil
  | some sort => exact (like_sort (L.item 2 hs) sort).append .nil

theorem like_pattern (hn : L.node n n') (hs : L.spot s s') (p : Pattern) :
    L.Findings (pattern n s p) (pattern n' s' p) := by
  have hhead : L.spot (p.headSpot s) (p.headSpot s') := by
    match p with
    | .symbol _ => exact hs
    | .qualified _ _ => exact L.item 1 hs
    | .applied _ none _ => exact L.item 0 hs
    | .applied _ (some _) _ => exact L.item 1 (L.item 0 hs)
  have hsort : L.spot (p.sortSpot s) (p.sortSpot s') := by
    cases p with
    | applied _ _ _ => exact L.item 2 (L.item 0 hs)
    | _ => exact L.item 2 hs
  have hascribed : L.Findings (p.sort?.toList.flatMap (SyntaxCheck.sort (p.sortSpot s)))
      (p.sort?.toList.flatMap (SyntaxCheck.sort (p.sortSpot s'))) := by
    cases p.sort? with
    | none => exact .nil
    | some sort => exact (like_sort hsort sort).append .nil
  refine ((like_symbol hhead _).append hascribed).append ?_
  cases p with
  | applied ctor _ arguments =>
    exact ((like_require hn _ _).append (like_problems hn _ _)).append
      (like_symbols (L.along hs 1 arguments))
  | _ => exact .nil

mutual

theorem like_term : ∀ {s s' : Spot}, L.spot s s' → ∀ t : Term, L.Findings (term s t) (term s' t)
  | _, _, _, .constant _ => .nil
  | _, _, hs, .ident name => like_qualIdentifier hs name
  | _, _, hs, .app f args =>
    (like_qualIdentifier (L.item 0 hs) f).append (like_termsFrom hs 1 args)
  | _, _, hs, .letIn bindings body =>
    (((like_require (L.at_spot _ hs) _ _).append (like_problems (L.at_spot _ hs) _ _)).append
      (like_bindingsFrom (L.item 1 hs) 0 bindings)).append (like_term (L.item 2 hs) body)
  | _, _, hs, .quantified _ vars body =>
    (((like_require (L.at_spot _ hs) _ _).append (like_problems (L.at_spot _ hs) _ _)).append
      (like_each (fun v hs => like_sortedVar hs v) (L.along (L.item 1 hs) 0 vars))).append
        (like_term (L.item 2 hs) body)
  | _, _, hs, .matching scrutinee arms =>
    ((like_require (L.at_spot _ hs) _ _).append (like_term (L.item 1 hs) scrutinee)).append
      (like_armsFrom (L.at_spot _ hs) (L.item 2 hs) 0 arms)
  | _, _, hs, .annotated t attributes =>
    ((like_require (L.at_spot _ hs) _ _).append (like_term (L.item 1 hs) t)).append
      (like_attributesFrom hs 2 attributes)

theorem like_termsFrom : ∀ {s s' : Spot}, L.spot s s' → ∀ (i : Nat) (ts : List Term),
    L.Findings (termsFrom s i ts) (termsFrom s' i ts)
  | _, _, _, _, [] => .nil
  | _, _, hs, i, t :: ts => (like_term (L.item i hs) t).append (like_termsFrom hs (i + 1) ts)

theorem like_bindingsFrom : ∀ {s s' : Spot}, L.spot s s' → ∀ (i : Nat)
    (bindings : List (String × Term)),
    L.Findings (bindingsFrom s i bindings) (bindingsFrom s' i bindings)
  | _, _, _, _, [] => .nil
  | _, _, hs, i, (x, t) :: bindings =>
    ((like_symbol (L.item 0 (L.item i hs)) x).append
      (like_term (L.item 1 (L.item i hs)) t)).append (like_bindingsFrom hs (i + 1) bindings)

theorem like_armsFrom : ∀ {n n' : Node}, L.node n n' → ∀ {s s' : Spot}, L.spot s s' → ∀ (i : Nat)
    (arms : List (Pattern × Term)), L.Findings (armsFrom n s i arms) (armsFrom n' s' i arms)
  | _, _, _, _, _, _, _, [] => .nil
  | _, _, hn, _, _, hs, i, (p, t) :: arms =>
    ((like_pattern hn (L.item 0 (L.item i hs)) p).append
      (like_term (L.item 1 (L.item i hs)) t)).append (like_armsFrom hn hs (i + 1) arms)

end

/-! ### Commands -/

theorem like_optionValue (hn : L.node n n') (a : Attribute) :
    L.Findings (optionValue n a) (optionValue n' a) := by
  unfold optionValue
  split
  · exact like_require hn _ _
  · exact .nil

theorem like_constructorDec (hs : L.spot s s') (c : ConstructorDec) :
    L.Findings (constructorDec s c) (constructorDec s' c) :=
  (like_symbol (L.item 0 hs) _).append
    (like_each (fun v hs => like_sortedVar hs v) (L.along hs 1 _))

theorem like_datatype (hn : L.node n n') (hs : L.spot s s') (d : DatatypeDec) :
    L.Findings (datatype n s d) (datatype n' s' d) := by
  have hbody : L.spot (if d.binder.isSome then s.item 2 else s)
      (if d.binder.isSome then s'.item 2 else s') := by
    split
    · exact L.item 2 hs
    · exact hs
  refine ((((like_require hn _ _).append (like_require hn _ _)).append
    (like_symbols (L.along (L.item 1 hs) 0 _))).append
      (like_each (fun c hs => like_constructorDec hs c) (L.along hbody 0 _))).append ?_
  cases d.binder with
  | none => exact .nil
  | some params => exact like_sortParams hn params _

theorem like_functionDec (hs : L.spot s s') (i : Nat) (d : FunctionDec) :
    L.Findings (functionDec s i d) (functionDec s' i d) :=
  ((like_symbol (L.item i hs) _).append
    (like_each (fun v hs => like_sortedVar hs v) (L.along (L.item (i + 1) hs) 0 _))).append
      (like_sort (L.item (i + 2) hs) _)

theorem like_datatypeArities (hn : L.node n n') (sorts : List SortDec) (decs : List DatatypeDec) :
    L.Findings (datatypeArities n sorts decs) (datatypeArities n' sorts decs) := by
  unfold datatypeArities
  induction sorts.zip decs with
  | nil => exact .nil
  | cons pair pairs ih => exact (like_require hn _ _).append ih

theorem like_command (hs : L.spot s s') (c : Command) :
    L.Findings (command s c) (command s' c) := by
  have hn := L.at_spot (.command c) hs
  have hsymbol := like_symbol (L.item 1 hs)
  cases c with
  | assert t => exact like_term (L.item 1 hs) t
  | checkSatAssuming ts => exact like_termsFrom (L.item 1 hs) 0 ts
  | declareConst name sort => exact (hsymbol name).append (like_sort (L.item 2 hs) sort)
  | declareDatatype name dec => exact (hsymbol name).append (like_datatype hn (L.item 2 hs) dec)
  | declareDatatypes sorts decs =>
    exact (((like_require hn _ _).append (like_datatypeArities hn sorts decs)).append
      (like_each (fun d hs => like_symbol (L.item 0 hs) d.name)
        (L.along (L.item 1 hs) 0 sorts))).append
      (like_each (fun d hs => like_datatype hn hs d) (L.along (L.item 2 hs) 0 decs))
  | declareFun name args result =>
    exact ((hsymbol name).append (like_sortsFrom (L.item 2 hs) 0 args)).append
      (like_sort (L.item 3 hs) result)
  | declareSort name arity => exact hsymbol name
  | defineConst name sort body =>
    exact ((hsymbol name).append (like_sort (L.item 2 hs) sort)).append
      (like_term (L.item 3 hs) body)
  | defineFun dec body => exact (like_functionDec hs 1 dec).append (like_term (L.item 4 hs) body)
  | defineFunRec dec body =>
    exact (like_functionDec hs 1 dec).append (like_term (L.item 4 hs) body)
  | defineFunsRec decs bodies =>
    refine (Likeness.Findings.append ?_
      (like_each (fun d hs => like_functionDec hs 0 d) (L.along (L.item 1 hs) 0 decs))).append
        (like_termsFrom (L.item 2 hs) 0 bodies)
    split
    · exact L.findings_single hn _
    · exact like_require hn _ _
  | defineSort name params sort =>
    exact (((hsymbol name).append (like_symbols (L.along (L.item 2 hs) 0 params))).append
      (like_sort (L.item 3 hs) sort)).append (like_sortParams hn params [sort])
  | echo text => exact like_require hn _ _
  | getInfo kw => exact like_keyword (L.item 1 hs) kw
  | getOption kw => exact like_keyword (L.item 1 hs) kw
  | getValue ts => exact (like_require hn _ _).append (like_termsFrom (L.item 1 hs) 0 ts)
  | setInfo a => exact like_oneAttribute (L.item 1 hs) a
  | setLogic name => exact hsymbol name
  | setOption a => exact (like_oneAttribute (L.item 1 hs) a).append (like_optionValue hn a)
  | pop _ => exact .nil
  | push _ => exact .nil
  | reset => exact .nil
  | plain _ => exact .nil

/-! ### Theories, logics and roots -/

theorem like_sortSymbolDec (hs : L.spot s s') (d : SortSymbolDec) :
    L.Findings (sortSymbolDec s d) (sortSymbolDec s' d) :=
  (like_identifier (L.item 0 hs) _).append (like_attributesFrom hs 2 _)

theorem like_funSymbolDec (hs : L.spot s s') (d : FunSymbolDec) :
    L.Findings (funSymbolDec s d) (funSymbolDec s' d) := by
  have hbody : L.spot (d.bodySpot s) (d.bodySpot s') := by
    cases d with
    | parametric _ _ _ _ _ => exact L.item 2 hs
    | _ => exact hs
  have hn := L.at_spot (.funDec d) hs
  have hsorts := like_each (fun sort hs => like_sort hs sort) (L.along hbody 1 d.signature)
  refine (like_each (fun a hs => like_oneAttribute hs a) (L.spread hbody _ _ _)).append ?_
  cases d with
  | literal _ _ _ => exact hsorts
  | literals _ _ _ => exact hsorts
  | simple name _ _ _ => exact (like_identifier (L.item 0 hs) name).append hsorts
  | parametric params name _ _ _ =>
    exact ((((like_require hn _ _).append (like_symbols (L.along (L.item 1 hs) 0 params))).append
      (like_identifier (L.item 0 hbody) name)).append hsorts).append (like_sortParams hn params _)

theorem like_theoryAttribute (hs : L.spot s s') (a : TheoryAttribute) :
    L.Findings (theoryAttribute s a) (theoryAttribute s' a) := by
  have hn := L.at_spot (.theoryAttribute a) hs
  cases a with
  | sorts decs => exact like_each (fun d hs => like_sortSymbolDec hs d) (L.along (L.next hs) 0 decs)
  | funs decs => exact like_each (fun d hs => like_funSymbolDec hs d) (L.along (L.next hs) 0 decs)
  | other a =>
    refine (like_oneAttribute hs a).append ?_
    split
    · exact L.findings_single hn _
    · split
      · exact L.findings_single hn _
      · split
        · exact like_require hn _ _
        · exact .nil

theorem like_theory (hs : L.spot s s') (t : Theory) : L.Findings (theory s t) (theory s' t) :=
  ((like_symbol (L.item 1 hs) _).append (like_require (L.at_spot _ hs) _ _)).append
    (like_each (fun a hs => like_theoryAttribute hs a) (L.spread hs _ 2 _))

theorem like_logicAttribute (hs : L.spot s s') (a : LogicAttribute) :
    L.Findings (logicAttribute s a) (logicAttribute s' a) := by
  have hn := L.at_spot (.logicAttribute a) hs
  cases a with
  | theories names => exact like_symbols (L.along (L.next hs) 0 names)
  | other a =>
    refine (like_oneAttribute hs a).append ?_
    split
    · exact L.findings_single hn _
    · split
      · exact like_require hn _ _
      · exact .nil

theorem like_logic (hs : L.spot s s') (l : Logic) : L.Findings (logic s l) (logic s' l) :=
  ((like_symbol (L.item 1 hs) _).append (like_require (L.at_spot _ hs) _ _)).append
    (like_each (fun a hs => like_logicAttribute hs a) (L.spread hs _ 2 _))

/-- The findings in one tree of two sources. -/
theorem like_root {source source' : Source} (h : L.spot (.top source) (.top source')) (r : Root) :
    L.Findings (root ⟨source, r⟩) (root ⟨source', r⟩) := by
  cases r with
  | script cs => exact like_each (fun c hs => like_command hs c) (L.along h 0 cs)
  | theory t => exact like_theory (L.item 0 h) t
  | logic l => exact like_logic (L.item 0 h) l

end WellSorted.SyntaxCheck
