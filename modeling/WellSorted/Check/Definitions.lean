import WellSorted.Sorting.Infer

/-!
# Declaring and defining functions

The sorts of a signature are checked and resolved before the function is entered. The body of a
definition is sorted with its variables in a scope of their own; only a recursive definition sees
itself there. A definition that conflicts with an earlier function is reported, and its body is
looked at all the same.
-/

namespace WellSorted.Check

/-- A function without parameters, declared at a node. -/
def function (G : Stack) (n : Node) (name : String) (args : List SmtSort) (result : SmtSort) :
    Logged FunDecl := do
  Logged.reportAll (G.checkSorts [] n (args ++ [result]))
  return .symbol (quoteSymbol name) [] (G.resolveAll [] args) (G.resolve [] result) n

def declareFun (G : Stack) (n : Node) (name : String) (args : List SmtSort) (result : SmtSort) :
    Logged Stack := do
  let f ← function G n name args result
  G.declareFun f

/-- The finding that a function exists. -/
def existing (G : Stack) (f : FunDecl) : List Finding :=
  match G.conflict? (.function f) with
  | some previous => [f.node.conflict (.functionExists f.name) previous]
  | none => []

/-- The function that a definition introduces, not yet entered. -/
def announce (G : Stack) (n : Node) (dec : FunctionDec) (body : Option Term) : Logged FunDecl := do
  let f ← function G n dec.name (dec.vars.map (·.sort)) dec.result
  let f := { f with body := body }
  Logged.reportAll (existing G f)
  return f

/-- The functions of several definitions; bodies may be missing. -/
def announceAll (G : Stack) (n : Node) : List FunctionDec → List Term → Logged (List FunDecl)
  | [], _ => pure []
  | dec :: decs, bodies => do
    let f ← announce G n dec bodies.head?
    let fs ← announceAll G n decs bodies.tail
    return f :: fs

/-- The variables of a function. -/
def functionVars (f : FunDecl) (vars : List (Spot × SortedVar)) : List VarDecl :=
  (vars.zip f.args).map fun ((s, v), sort) => .bound (SortedVar.nameSpot s) v.name sort

/-- Check that the body of a function, at `s`, has the sort of its result. -/
def body (G : Stack) (f : FunDecl) (vars : List (Spot × SortedVar)) (s : Spot) (t : Term) :
    Logged Unit := do
  let inner ← G.bind (functionVars f vars)
  match ← infer inner s t with
  | none => Logged.report (f.node.finding (.bodyIllSorted f.name))
  | some sort =>
    if sort = f.result then return ()
    else Logged.report (f.node.finding (.bodySort f.name f.result sort))

/-- Define a function with the given variables, whose body stands at `s`. -/
def defineFun (G : Stack) (n : Node) (isRecursive : Bool) (dec : FunctionDec)
    (vars : List (Spot × SortedVar)) (s : Spot) (t : Term) : Logged Stack := do
  let f ← announce G n dec (some t)
  let inner ← if isRecursive then G.push.enter (.function f) else pure G
  body inner f vars s t
  G.enter (.function f)

/-- Check the bodies of functions that are defined together. -/
def bodies (G : Stack) :
    List FunDecl → List (Spot × FunctionDec) → List (Spot × Term) → Logged Unit
  | f :: fs, (s, dec) :: decs, (s', t) :: ts => do
    body G f (dec.varSpots s 0) s' t
    bodies G fs decs ts
  | _, _, _ => pure ()

/-- Define functions that may call each other. -/
def defineFunsRec (G : Stack) (n : Node) (decs : List (Spot × FunctionDec))
    (ts : List (Spot × Term)) : Logged Stack := do
  let fs ← announceAll G n (decs.map (·.2)) (ts.map (·.2))
  let inner ← G.push.enterAll (fs.map .function)
  bodies inner fs decs ts
  G.enterAll (fs.map .function)

end WellSorted.Check
