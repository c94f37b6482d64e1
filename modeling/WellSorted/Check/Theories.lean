import WellSorted.Sorting.Resolve
import WellSorted.Source.Layout
import WellSorted.Symbols.Enter

/-!
# Theories

A theory enters its sort and function symbols into the innermost scope. Each class of literals has
one sort at most. Attributes that make a function associative or chainable are checked against its
signature; those that do not fit are reported and have no effect.
-/

namespace WellSorted.Check

def hasAttribute (attributes : List Attribute) (keyword : String) : Bool :=
  attributes.any (·.keyword == keyword)

/-- The argument that has to be of the result sort. -/
def assocArgument (a b : SmtSort) : Assoc → SmtSort
  | .left => a
  | .right => b

/-- What is wrong with an associative function of a signature. -/
def assocProblems (side : Assoc) (name : String) (result : SmtSort) : List SmtSort → List Problem
  | [a, b] => if assocArgument a b side = result then [] else [.assocResult side name]
  | _ => [.assocArity side name]

/-- What is wrong with a chainable or pairwise function of a signature. -/
def chainProblems (chain : Chain) (name : String) (result : SmtSort) : List SmtSort → List Problem
  | [a, b] =>
    (if a = b then [] else [.chainArguments chain name])
      ++ (if result.isBool then [] else [.chainResult chain name])
  | _ => [.chainArity chain name]

/-- A value, unless there are problems with it. -/
def accept {α : Type} (n : Node) (problems : List Problem) (a : α) : Logged (Option α) := do
  Logged.reportAll (problems.map n.finding)
  return if problems.isEmpty then some a else none

def assoc (n : Node) (name : String) (args : List SmtSort) (result : SmtSort)
    (attributes : List Attribute) : Logged (Option Assoc) :=
  match hasAttribute attributes ":left-assoc", hasAttribute attributes ":right-assoc" with
  | true, true => accept n [.leftAndRightAssoc name] .left
  | true, false => accept n (assocProblems .left name result args) .left
  | false, true => accept n (assocProblems .right name result args) .right
  | false, false => pure none

def chain (n : Node) (name : String) (args : List SmtSort) (result : SmtSort)
    (attributes : List Attribute) : Logged (Option Chain) :=
  match hasAttribute attributes ":chainable", hasAttribute attributes ":pairwise" with
  | true, true => accept n [.chainableAndPairwise name] .chainable
  | true, false => accept n (chainProblems .chainable name result args) .chainable
  | false, true => accept n (chainProblems .pairwise name result args) .pairwise
  | false, false => pure none

/-- Declare a function symbol with its parameters and attributes. -/
def functionSymbol (G : Stack) (n : Node) (params : List String) (name : String)
    (args : List SmtSort) (result : SmtSort) (attributes : List Attribute) : Logged Stack := do
  Logged.reportAll (G.checkSorts params n (args ++ [result]))
  let args := G.resolveAll params args
  let result := G.resolve params result
  let assoc ← assoc n name args result attributes
  let chain ← chain n name args result attributes
  G.declareFun
    { FunDecl.symbol name params args result n with
      attributes := attributes, assoc := assoc, chain := chain }

/-- Declare the sort of a single literal. -/
def literal (G : Stack) (n : Node) (name : String) (sort : SmtSort) : Logged Stack := do
  Logged.reportAll (G.checkSort [] n sort)
  G.declare n (.literalExists name) (.function (.symbol name [] [] (G.resolve [] sort) n))

/-- Declare the sort of a class of literals. -/
def literals (G : Stack) (n : Node) (name : String) (sort : SmtSort) : Logged Stack := do
  Logged.reportAll (G.checkSort [] n sort)
  match G.overloads name with
  | [] => G.enter (.function (.symbol name [] [] (G.resolve [] sort) n))
  | previous :: _ =>
    Logged.report (n.conflict (.literalClassExists name) (.function previous))
    return G

def sortSymbolDec (G : Stack) (item : Spot × SortSymbolDec) : Logged Stack :=
  let (s, d) := item
  G.declareSort
    { SortDecl.symbol d.name.key d.arity (s.node (.sortDec d)) with attributes := d.attributes }

def funSymbolDec (G : Stack) (item : Spot × FunSymbolDec) : Logged Stack :=
  let (s, d) := item
  let n := s.node (.funDec d)
  match d with
  | .literal c sort _ => literal G n c.render sort
  | .literals c sort _ => literals G n c.word sort
  | .simple name args result attributes =>
    functionSymbol G n [] name.key args result attributes
  | .parametric params name args result attributes =>
    functionSymbol G n (params.map quoteSymbol) name.key args result attributes

def theoryAttribute (G : Stack) (item : Spot × TheoryAttribute) : Logged Stack :=
  let (s, a) := item
  match a with
  | .sorts decs => (s.next.along 0 decs).foldlM sortSymbolDec G
  | .funs decs => (s.next.along 0 decs).foldlM funSymbolDec G
  | .other _ => pure G

/-- Enter the declarations of the theory at `s`. -/
def theory (G : Stack) (s : Spot) (t : Theory) : Logged Stack :=
  (t.attributeSpots s).foldlM theoryAttribute G

end WellSorted.Check
