import WellSorted.Sorting.Apply
import WellSorted.Sorting.Resolve
import WellSorted.Source.Layout
import WellSorted.Symbols.Enter

/-!
# Sorts of terms

A literal has the sort declared for its kind, an identifier that of the innermost variable or else
of the only constant of its name. An application without an ascription needs exactly one
declaration that fits, an ascribed one takes the first. Bindings of a `let` are sorted before any
of them is visible. A quantified term has to be Boolean, and the cases of a match have to agree.

A term without a sort leaves a finding; a term around it fails without another one, once all of its
parts have been looked at.
-/

namespace WellSorted

/-- The name under which the sort of a literal is declared. -/
def Constant.kind (c : Constant) : String :=
  match c with
  | .numeral _ => LiteralClass.numeral.word
  | .decimal _ => LiteralClass.decimal.word
  | .string _ => LiteralClass.string.word
  | .binary _ => c.render
  | .hexadecimal _ => c.render

/-- A variable bound by the symbol at `s`. -/
def VarDecl.bound (s : Spot) (name : String) (sort : SmtSort) : VarDecl :=
  ⟨quoteSymbol name, sort, s.node (.word name)⟩

namespace Stack

/-- The sorts of the constants of a name. -/
def constantSorts (G : Stack) (name : String) : List SmtSort :=
  ((G.overloads name).filter FunDecl.isConstant).map (·.result)

/-- Bind variables in a new scope; of two variables of a name the first one counts. -/
def bind (G : Stack) (vars : List VarDecl) : Logged Stack := G.push.enterAll (vars.map .var)

end Stack

namespace Sorting

/-- No sort, for the reason given. -/
def fail (n : Node) (p : Problem) : Logged (Option SmtSort) := do
  Logged.report (n.finding p)
  return none

/-- The only candidate; having none, or several, are different problems. -/
def unique (n : Node) (missing : Problem) (several : List SmtSort → Problem) :
    List SmtSort → Logged (Option SmtSort)
  | [] => fail n missing
  | [sort] => pure (some sort)
  | sorts => fail n (several sorts)

def literal (G : Stack) (n : Node) (c : Constant) : Logged (Option SmtSort) :=
  unique n (.literalUnknown c.kind) (.literalAmbiguous c.kind) (G.constantSorts c.kind)

/-- The variable that an identifier names; indexed identifiers name none. -/
def varOf? (G : Stack) (i : Identifier) : Option VarDecl :=
  if i.isIndexed then none else G.var? i.key

def identifier (G : Stack) (n : Node) (i : Identifier) : Logged (Option SmtSort) :=
  match varOf? G i with
  | some v => pure (some v.sort)
  | none => unique n (.constantUnknown i.key) (.constantAmbiguous i.key) (G.constantSorts i.key)

/-- The sort of an ascription. -/
def ascribed (G : Stack) (n : Node) (sort : SmtSort) : Logged SmtSort := do
  Logged.reportAll (G.checkSort [] n sort)
  return G.resolve [] sort

/-- The sort that the first fitting declaration gives. -/
def firstFit (G : Stack) (name : String) (args : List SmtSort) (expected : SmtSort) :
    Option SmtSort :=
  (G.overloads name).findSome? (·.result? args (some expected))

/-- Why no constant of a name has the expected sort. -/
def constantProblem (G : Stack) (name : String) (expected : SmtSort) : Problem :=
  match ((G.overloads name).filter (·.args.isEmpty)).map (·.result) with
  | [] => .constantUnknown name
  | sorts => .constantSort name expected sorts

def ascribedConstant (G : Stack) (n : Node) (i : Identifier) (sort : SmtSort) :
    Logged (Option SmtSort) := do
  let expected ← ascribed G n sort
  match firstFit G i.key [] expected with
  | some result => return some result
  | none => fail n (constantProblem G i.key expected)

def qualIdentifier (G : Stack) (n : Node) (q : QualIdentifier) : Logged (Option SmtSort) :=
  match q.ascription with
  | none => identifier G n q.name
  | some sort => ascribedConstant G n q.name sort

/-- An application to arguments of the given sorts. -/
def application (G : Stack) (n : Node) (q : QualIdentifier) (args : List SmtSort) :
    Logged (Option SmtSort) := do
  let name := q.name.key
  match q.ascription with
  | none =>
    unique n (.functionUnknown name args none) (.functionAmbiguous name args)
      ((G.overloads name).filterMap (·.result? args none))
  | some sort =>
    let expected ← ascribed G n sort
    match firstFit G name args expected with
    | some result => return some result
    | none => fail n (.functionUnknown name args (some expected))

/-- The variables of a quantifier at `s`. -/
def quantifierVars (G : Stack) (s : Spot) (vars : List SortedVar) : List VarDecl :=
  ((s.item 1).along 0 vars).map fun (s, v) =>
    .bound (SortedVar.nameSpot s) v.name (G.resolve [] v.sort)

/-- The variables of a `let` at `s`, given the sorts of their terms. -/
def letVars (s : Spot) (bindings : List (String × Term)) (sorts : List SmtSort) : List VarDecl :=
  (((s.item 1).along 0 bindings).zip sorts).map fun ((s, x, _), sort) => .bound (s.item 0) x sort

/-- The scope for a case of the match `n`, whose pattern stands at `s`. A symbol in the last case
that is no constructor is a variable for everything that is left. -/
def caseScope (G : Stack) (n : Node) (scrutinee : SmtSort) (s : Spot) (p : Pattern)
    (isLast : Bool) : Logged (Option Stack) := do
  let name := quoteSymbol p.head
  let count := p.arguments.length
  if p.sort?.any fun sort => G.resolve [] sort ≠ scrutinee then
    Logged.report (n.finding (.patternSort scrutinee p))
    return none
  match (G.overloads name).filterMap (·.fields? count scrutinee) with
  | [fields] =>
    let vars := ((p.argumentSpots s).zip fields).map fun ((s, x), sort) => VarDecl.bound s x sort
    return some (← G.bind vars)
  | [] =>
    if isLast && p.isSymbol then
      return some (← G.bind [.bound s p.head scrutinee])
    Logged.report (n.finding (.constructorUnknown name count scrutinee))
    return none
  | _ =>
    Logged.report (n.finding (.constructorAmbiguous name count scrutinee))
    return none

/-- The sort that all cases of the match `n` have. -/
def commonSort (n : Node) : List SmtSort → Logged (Option SmtSort)
  | [] => pure none
  | sort :: rest =>
    if rest.all (· == sort) then pure (some sort) else fail n (.casesDiffer (sort :: rest))

/-- Put a sort in front of others, if all of them are there. -/
def consSort (sort : Option SmtSort) (sorts : Option (List SmtSort)) : Option (List SmtSort) :=
  match sort, sorts with
  | some sort, some sorts => some (sort :: sorts)
  | _, _ => none

end Sorting

open Sorting

mutual

/-- The sort of the term at a spot, if it has one. -/
def infer (G : Stack) (s : Spot) : Term → Logged (Option SmtSort)
  | .constant c => literal G (s.node (.term (.constant c))) c
  | .ident q => qualIdentifier G (s.node (.term (.ident q))) q
  | .app q args => do
    match ← inferAll G s 1 args with
    | none => return none
    | some sorts => application G (s.node (.term (.app q args))) q sorts
  | .letIn bindings body => do
    match ← inferBindings G (s.item 1) 0 bindings with
    | none => return none
    | some sorts =>
      let inner ← G.bind (letVars s bindings sorts)
      infer inner (s.item 2) body
  | .quantified q vars body => do
    let n := s.node (.term (.quantified q vars body))
    Logged.reportAll (G.checkSorts [] n (vars.map (·.sort)))
    let inner ← G.bind (quantifierVars G s vars)
    match ← infer inner (s.item 2) body with
    | none => return none
    | some sort =>
      if sort.isBool then return some sort else fail n (.quantifiedSort body sort)
  | .matching scrutinee arms => do
    let n := s.node (.term (.matching scrutinee arms))
    match ← infer G (s.item 1) scrutinee with
    | none => return none
    | some sort =>
      match ← inferArms G n sort (s.item 2) 0 arms with
      | none => return none
      | some sorts => commonSort n sorts
  | .annotated t _ => infer G (s.item 1) t

/-- The sorts of the terms that start at item `i`, if each has one. -/
def inferAll (G : Stack) (s : Spot) (i : Nat) : List Term → Logged (Option (List SmtSort))
  | [] => pure (some [])
  | t :: rest => do
    let sort ← infer G (s.item i) t
    let sorts ← inferAll G s (i + 1) rest
    return consSort sort sorts

/-- The sorts of the bound terms of the bindings that start at item `i`. -/
def inferBindings (G : Stack) (s : Spot) (i : Nat) :
    List (String × Term) → Logged (Option (List SmtSort))
  | [] => pure (some [])
  | (_, t) :: rest => do
    let sort ← infer G ((s.item i).item 1) t
    let sorts ← inferBindings G s (i + 1) rest
    return consSort sort sorts

/-- The sorts of the cases that start at item `i`, for a scrutinee of the given sort. -/
def inferArms (G : Stack) (n : Node) (scrutinee : SmtSort) (s : Spot) (i : Nat) :
    List (Pattern × Term) → Logged (Option (List SmtSort))
  | [] => pure (some [])
  | (p, t) :: rest => do
    let sort ← match ← caseScope G n scrutinee ((s.item i).item 0) p rest.isEmpty with
      | some inner => infer inner ((s.item i).item 1) t
      | none => pure none
    let sorts ← inferArms G n scrutinee s (i + 1) rest
    return consSort sort sorts

end

end WellSorted
