import WellSorted.Proofs.Formed

/-!
# The parts of a term

Sorting a term sorts its parts, those below a binder in a scope of their own. `visits G s t` lists
all parts of the term, with their spots and the stacks that they are sorted in. Only variables are
ever bound on the way, so that all of these stacks have the same sorts and functions
(`Stack.Shares`). If a term has a sort without any finding, so have all of its parts
(`sorted_of_mem_visits`).
-/

namespace WellSorted

open Sorting

/-! ### Variables -/

theorem Stack.varSort?_bind (G : Stack) (vars : List VarDecl) (name : String) :
    ((G.bind vars).value.var? name).map (·.sort) =
      ((vars.map fun v => (v.name, v.sort)).lookup name).or ((G.var? name).map (·.sort)) := by
  rw [(G.under_nil.bind vars).varSort? name, List.append_nil, Stack.varSort?]

theorem infer_var {G : Stack} {x : String} {r : SmtSort}
    (h : (G.var? (quoteSymbol x)).map (·.sort) = some r) (s : Spot) :
    infer G s (.ident ⟨.simple x, none⟩) = pure (some r) := by
  obtain ⟨v, hv, rfl⟩ := Option.map_eq_some_iff.mp h
  rw [infer, qualIdentifier, identifier, varOf?, Identifier.key_simple, hv]
  rfl

/-! ### Scopes of parts -/

namespace Stack

/-- The fields of the functions that construct a sort for a pattern. -/
def patternFields (G : Stack) (sort : SmtSort) (p : Pattern) : List (List SmtSort) :=
  (G.overloads (quoteSymbol p.head)).filterMap (·.fields? p.arguments.length sort)

/-- Whether a pattern is a variable for everything that is left. -/
def isCatchAll (G : Stack) (sort : SmtSort) (p : Pattern) (isLast : Bool) : Bool :=
  isLast && p.isSymbol && (G.patternFields sort p).isEmpty

/-- The symbols that a pattern binds. -/
def patternSymbols (G : Stack) (sort : SmtSort) (p : Pattern) (isLast : Bool) : List String :=
  if G.isCatchAll sort p isLast then [p.head] else p.arguments

/-- The variables that a case with the pattern at `s` is entered with. -/
def caseVars (G : Stack) (sort : SmtSort) (s : Spot) (p : Pattern) (isLast : Bool) :
    Option (List VarDecl) :=
  if p.sort?.any fun q => G.resolve [] q ≠ sort then none
  else match G.patternFields sort p with
    | [fields] => some (argumentVars p s fields)
    | [] => if isLast && p.isSymbol then some [.bound s p.head sort] else none
    | _ => none

end Stack

theorem value_caseScope (G : Stack) (n : Node) (sort : SmtSort) (s : Spot) (p : Pattern)
    (isLast : Bool) :
    (caseScope G n sort s p isLast).value =
      (G.caseVars sort s p isLast).map fun vars => (G.bind vars).value := by
  simp only [caseScope, Stack.caseVars, Stack.patternFields]
  generalize (G.overloads (quoteSymbol p.head)).filterMap (·.fields? p.arguments.length sort) = l
  split
  · rfl
  · match l with
    | [] => cases isLast && p.isSymbol <;> rfl
    | [fields] => rfl
    | _ :: _ :: _ => rfl

/-- The scope of the body of a `let` at `s`. -/
def letScope (G : Stack) (s : Spot) (bindings : List (String × Term)) : Stack :=
  (G.bind (letVars s bindings ((inferBindings G (s.item 1) 0 bindings).value.getD []))).value

theorem letScope_eq {G : Stack} {s : Spot} {bindings : List (String × Term)} {sorts : List SmtSort}
    (h : (inferBindings G (s.item 1) 0 bindings).value = some sorts) :
    letScope G s bindings = (G.bind (letVars s bindings sorts)).value := by
  rw [letScope, h, Option.getD_some]

/-- The scope of a quantified term at `s`. -/
def quantifierScope (G : Stack) (s : Spot) (vars : List SortedVar) : Stack :=
  (G.bind (quantifierVars G s vars)).value

/-- The scope of a case with the pattern at `s`; a case that is not entered has none of its own. -/
def armScope (G : Stack) (n : Node) (sort : Option SmtSort) (s : Spot) (p : Pattern)
    (isLast : Bool) : Stack :=
  (sort.bind fun sort => (caseScope G n sort s p isLast).value).getD G

theorem armScope_eq {G K : Stack} {n : Node} {sort : SmtSort} {s : Spot} {p : Pattern}
    {isLast : Bool} (h : (caseScope G n sort s p isLast).value = some K) :
    armScope G n (some sort) s p isLast = K := by
  rw [armScope, Option.bind_some, h, Option.getD_some]

/-! ### Parts -/

/-- A term at a spot, in the stack that it is sorted in. -/
structure Visit where
  stack : Stack
  spot : Spot
  term : Term

mutual

/-- The parts of the term at a spot, with the term itself. -/
def visits (G : Stack) (s : Spot) : Term → List Visit
  | .constant c => [⟨G, s, .constant c⟩]
  | .ident q => [⟨G, s, .ident q⟩]
  | .app q args => ⟨G, s, .app q args⟩ :: allVisits G s 1 args
  | .letIn bindings body =>
    ⟨G, s, .letIn bindings body⟩ ::
      (bindingVisits G (s.item 1) 0 bindings ++ visits (letScope G s bindings) (s.item 2) body)
  | .quantified q vars body =>
    ⟨G, s, .quantified q vars body⟩ :: visits (quantifierScope G s vars) (s.item 2) body
  | .matching scrutinee arms =>
    ⟨G, s, .matching scrutinee arms⟩ ::
      (visits G (s.item 1) scrutinee ++
        armVisits G (s.node (.term (.matching scrutinee arms))) (infer G (s.item 1) scrutinee).value
          (s.item 2) 0 arms)
  | .annotated t attributes => ⟨G, s, .annotated t attributes⟩ :: visits G (s.item 1) t

def allVisits (G : Stack) (s : Spot) (i : Nat) : List Term → List Visit
  | [] => []
  | t :: rest => visits G (s.item i) t ++ allVisits G s (i + 1) rest

def bindingVisits (G : Stack) (s : Spot) (i : Nat) : List (String × Term) → List Visit
  | [] => []
  | (_, t) :: rest => visits G ((s.item i).item 1) t ++ bindingVisits G s (i + 1) rest

def armVisits (G : Stack) (n : Node) (sort : Option SmtSort) (s : Spot) (i : Nat) :
    List (Pattern × Term) → List Visit
  | [] => []
  | (p, t) :: rest =>
    visits (armScope G n sort ((s.item i).item 0) p rest.isEmpty) ((s.item i).item 1) t ++
      armVisits G n sort s (i + 1) rest

end

/-! ### Sorts of parts -/

/-- Whether two stacks have the same sorts and functions. -/
structure Stack.Shares (G H : Stack) : Prop where
  sort? : ∀ name, H.sort? name = G.sort? name
  overloads : ∀ name, H.overloads name = G.overloads name

namespace Stack

variable {G H : Stack}

theorem Shares.refl (G : Stack) : G.Shares G := ⟨fun _ => rfl, fun _ => rfl⟩

theorem Shares.symm (h : G.Shares H) : H.Shares G :=
  ⟨fun name => (h.sort? name).symm, fun name => (h.overloads name).symm⟩

theorem Shares.trans {K : Stack} (h : G.Shares H) (h' : H.Shares K) : G.Shares K :=
  ⟨fun name => (h'.sort? name).trans (h.sort? name),
    fun name => (h'.overloads name).trans (h.overloads name)⟩

theorem Shares.bind (h : G.Shares H) (vars : List VarDecl) : G.Shares (H.bind vars).value := by
  have hvars := withVars_enterAll H.push vars
  refine ⟨fun name => (hvars.sort? name).trans (h.sort? name), fun name => ?_⟩
  exact (hvars.overloads name).trans ((overloads_push H name).trans (h.overloads name))

theorem Shares.armScope (h : G.Shares H) (n : Node) (sort : Option SmtSort) (s : Spot) (p : Pattern)
    (isLast : Bool) : G.Shares (armScope H n sort s p isLast) := by
  cases sort with
  | none => exact h
  | some sort =>
    simp only [WellSorted.armScope, Option.bind_some, value_caseScope]
    cases H.caseVars sort s p isLast with
    | none => exact h
    | some vars => exact h.bind vars

end Stack

/-- Whether a visited term has a sort without any finding, in a stack that only adds variables. -/
structure Visit.Sorted (G : Stack) (v : Visit) : Prop where
  shares : G.Shares v.stack
  yields : ∃ r, (infer v.stack v.spot v.term).Yields r

mutual

/-- All parts of a term that has a sort without any finding have one. -/
theorem sorted_of_mem_visits {G : Stack} : ∀ {H : Stack} (_ : G.Shares H) {s : Spot} {t : Term}
    {r : SmtSort}, (infer H s t).Yields r → ∀ v ∈ visits H s t, v.Sorted G
  | H, h, s, .constant c, r, ht => List.forall_mem_singleton.mpr ⟨h, r, ht⟩
  | H, h, s, .ident q, r, ht => List.forall_mem_singleton.mpr ⟨h, r, ht⟩
  | H, h, s, .app q args, r, ht => by
    refine List.forall_mem_cons.mpr ⟨⟨h, r, ht⟩, ?_⟩
    rw [infer] at ht
    obtain ⟨sorts, hsorts, -⟩ := (Logged.yields_bind (by rfl)).mp ht
    exact sorted_of_mem_allVisits h hsorts
  | H, h, s, .letIn bindings body, r, ht => by
    refine List.forall_mem_cons.mpr ⟨⟨h, r, ht⟩, ?_⟩
    rw [infer] at ht
    obtain ⟨sorts, hsorts, hbody⟩ := (Logged.yields_bind (by rfl)).mp ht
    rw [Logged.yields_bind_of_findings (Stack.findings_bind _ _), ← letScope_eq hsorts.1] at hbody
    exact List.forall_mem_append.mpr
      ⟨sorted_of_mem_bindingVisits h hsorts, sorted_of_mem_visits (h.bind _) hbody⟩
  | H, h, s, .quantified q vars body, r, ht => by
    refine List.forall_mem_cons.mpr ⟨⟨h, r, ht⟩, ?_⟩
    rw [infer, Logged.yields_reportAll,
      Logged.yields_bind_of_findings (Stack.findings_bind _ _)] at ht
    obtain ⟨sort, hbody, -⟩ := (Logged.yields_bind (by rfl)).mp ht.2
    exact sorted_of_mem_visits (h.bind _) hbody
  | H, h, s, .matching scrutinee arms, r, ht => by
    refine List.forall_mem_cons.mpr ⟨⟨h, r, ht⟩, ?_⟩
    rw [infer] at ht
    obtain ⟨sort, hscrutinee, hrest⟩ := (Logged.yields_bind (by rfl)).mp ht
    obtain ⟨sorts, harms, -⟩ := (Logged.yields_bind (by rfl)).mp hrest
    rw [hscrutinee.1]
    exact List.forall_mem_append.mpr
      ⟨sorted_of_mem_visits h hscrutinee, sorted_of_mem_armVisits h harms⟩
  | H, h, s, .annotated t attributes, r, ht => by
    refine List.forall_mem_cons.mpr ⟨⟨h, r, ht⟩, ?_⟩
    rw [infer] at ht
    exact sorted_of_mem_visits h ht

theorem sorted_of_mem_allVisits {G : Stack} : ∀ {H : Stack} (_ : G.Shares H) {s : Spot} {i : Nat}
    {ts : List Term} {rs : List SmtSort}, (inferAll H s i ts).Yields rs →
      ∀ v ∈ allVisits H s i ts, v.Sorted G
  | H, h, s, i, [], rs, _ => fun _ hv => absurd hv List.not_mem_nil
  | H, h, s, i, t :: ts, rs, hts => by
    rw [inferAll, yields_consSort] at hts
    obtain ⟨r, rest, -, hr, hrest⟩ := hts
    exact List.forall_mem_append.mpr ⟨sorted_of_mem_visits h hr, sorted_of_mem_allVisits h hrest⟩

theorem sorted_of_mem_bindingVisits {G : Stack} : ∀ {H : Stack} (_ : G.Shares H) {s : Spot}
    {i : Nat} {bs : List (String × Term)} {rs : List SmtSort}, (inferBindings H s i bs).Yields rs →
      ∀ v ∈ bindingVisits H s i bs, v.Sorted G
  | H, h, s, i, [], rs, _ => fun _ hv => absurd hv List.not_mem_nil
  | H, h, s, i, (x, t) :: bs, rs, hbs => by
    rw [inferBindings, yields_consSort] at hbs
    obtain ⟨r, rest, -, hr, hrest⟩ := hbs
    exact List.forall_mem_append.mpr
      ⟨sorted_of_mem_visits h hr, sorted_of_mem_bindingVisits h hrest⟩

theorem sorted_of_mem_armVisits {G : Stack} : ∀ {H : Stack} (_ : G.Shares H) {n : Node}
    {sort : SmtSort} {s : Spot} {i : Nat} {arms : List (Pattern × Term)} {rs : List SmtSort},
    (inferArms H n sort s i arms).Yields rs →
      ∀ v ∈ armVisits H n (some sort) s i arms, v.Sorted G
  | H, h, n, sort, s, i, [], rs, _ => fun _ hv => absurd hv List.not_mem_nil
  | H, h, n, sort, s, i, (p, t) :: arms, rs, harms => by
    rw [inferArms_cons, yields_consSort] at harms
    obtain ⟨r, rest, -, hr, hrest⟩ := harms
    obtain ⟨K, hK, ht⟩ := (Logged.yields_bind (by rfl)).mp hr
    rw [← armScope_eq hK.1] at ht
    exact List.forall_mem_append.mpr
      ⟨sorted_of_mem_visits (h.armScope _ _ _ _ _) ht, sorted_of_mem_armVisits h hrest⟩

end

end WellSorted
