import WellSorted.Sorting.Resolve
import WellSorted.Symbols.Enter

/-!
# Declaring datatypes

The sorts of a block are declared first, so that its datatypes can refer to each other. A
constructor then brings its selectors, itself and its tester, in this order.
-/

namespace WellSorted.Check

/-- What the functions of a datatype have in common. -/
structure Datatype where
  node : Node
  params : List String
  /-- The datatype applied to its parameters. -/
  sort : SmtSort

namespace Datatype

def ofDec (n : Node) (name : String) (dec : DatatypeDec) : Datatype :=
  let params := dec.params.map quoteSymbol
  ⟨n, params, .mk (.simple name) (params.map SmtSort.simple)⟩

/-- A function of the datatype. -/
def function (d : Datatype) (name : String) (args : List SmtSort) (result : SmtSort) : FunDecl :=
  .symbol name d.params args result d.node

def selector (d : Datatype) (G : Stack) (v : SortedVar) : Logged Stack := do
  Logged.reportAll (G.checkSort d.params d.node v.sort)
  G.declareFun (d.function (quoteSymbol v.name) [d.sort] (G.resolve d.params v.sort))

/-- The name of the tester for a constructor. -/
def testerName (name : String) : String := "(_ is " ++ name ++ ")"

def constructor (d : Datatype) (G : Stack) (c : ConstructorDec) : Logged Stack := do
  let name := quoteSymbol c.name
  let G ← c.selectors.foldlM d.selector G
  let fields := G.resolveAll d.params (c.selectors.map (·.sort))
  let G ← G.declareFun (d.function name fields d.sort)
  G.declareFun (d.function (testerName name) [d.sort] .bool)

end Datatype

def declareSort (n : Node) (G : Stack) (d : SortDec) : Logged Stack :=
  G.declareSort (.symbol (quoteSymbol d.name) d.arity n)

/-- Declare the constructors of a datatype. -/
def constructors (n : Node) (G : Stack) (d : SortDec × DatatypeDec) : Logged Stack :=
  d.2.constructors.foldlM (Datatype.ofDec n d.1.name d.2).constructor G

def declareDatatypes (G : Stack) (n : Node) (sorts : List SortDec) (decs : List DatatypeDec) :
    Logged Stack := do
  let G ← sorts.foldlM (declareSort n) G
  (sorts.zip decs).foldlM (constructors n) G

end WellSorted.Check
