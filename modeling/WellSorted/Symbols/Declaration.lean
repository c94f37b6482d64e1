import WellSorted.Source.Node

/-!
# Declarations

What a scope holds: sort symbols and aliases, function symbols, and variables. Every declaration
is kept under the written form of its name and points to the node that introduced it.
-/

namespace WellSorted

/-- A sort symbol, or an alias with its parameters and its expanded definition. -/
structure SortDecl where
  name : String
  arity : Nat
  params : List String
  definition : Option SmtSort
  attributes : List Attribute
  node : Node

namespace SortDecl

/-- Arities beyond this one are not told apart. -/
def maxArity : Nat := 0xffffffffffffffff

def symbol (name : String) (arity : Nat) (node : Node) : SortDecl :=
  ⟨name, min arity maxArity, [], none, [], node⟩

def aliasOf (name : String) (params : List String) (definition : SmtSort) (node : Node) : SortDecl :=
  ⟨name, params.length, params, some definition, [], node⟩

end SortDecl

/-- The side from which a binary function takes further arguments. -/
inductive Assoc where
  | left
  | right
deriving DecidableEq, Repr

def Assoc.name : Assoc → String
  | left => "left"
  | right => "right"

/-- How a binary predicate takes further arguments. -/
inductive Chain where
  | chainable
  | pairwise
deriving DecidableEq, Repr

def Chain.name : Chain → String
  | chainable => "chainable"
  | pairwise => "pairwise"

/-- A function symbol; a constant is a function without arguments. -/
structure FunDecl where
  name : String
  params : List String
  args : List SmtSort
  result : SmtSort
  body : Option Term
  attributes : List Attribute
  assoc : Option Assoc
  chain : Option Chain
  node : Node

namespace FunDecl

/-- A function symbol without a body and without attributes. -/
def symbol (name : String) (params : List String) (args : List SmtSort) (result : SmtSort)
    (node : Node) : FunDecl :=
  ⟨name, params, args, result, none, [], none, none, node⟩

def signature (f : FunDecl) : List SmtSort := f.args ++ [f.result]

def isParametric (f : FunDecl) : Bool := !f.params.isEmpty

/-- Whether a function names a constant: it has neither arguments nor parameters. -/
def isConstant (f : FunDecl) : Bool := f.args.isEmpty && f.params.isEmpty

end FunDecl

structure VarDecl where
  name : String
  sort : SmtSort
  node : Node

inductive Declaration where
  | sort (d : SortDecl)
  | function (d : FunDecl)
  | var (d : VarDecl)

namespace Declaration

def name : Declaration → String
  | sort d => d.name
  | function d => d.name
  | var d => d.name

def node : Declaration → Node
  | sort d => d.node
  | function d => d.node
  | var d => d.node

def render : Declaration → String
  | sort d => "sort " ++ d.name
  | function d =>
    "fun " ++ d.name ++ " (" ++ " ".intercalate (d.args.map SmtSort.render) ++ ") "
      ++ d.result.render
  | var d => "var " ++ d.name ++ " " ++ d.sort.render

end Declaration

end WellSorted
