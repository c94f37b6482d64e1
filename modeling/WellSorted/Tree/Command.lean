import WellSorted.Tree.Term

/-!
# Commands

The commands of a script. Those that neither declare nor mention anything are told apart by name
only (`PlainCommand`).
-/

namespace WellSorted

/-- Commands without arguments that leave the declarations alone. -/
inductive PlainCommand where
  | checkSat
  | exit
  | getAssertions
  | getAssignment
  | getModel
  | getProof
  | getUnsatAssumptions
  | getUnsatCore
  | resetAssertions
deriving DecidableEq, Repr

namespace PlainCommand

def name : PlainCommand → String
  | checkSat => "check-sat"
  | exit => "exit"
  | getAssertions => "get-assertions"
  | getAssignment => "get-assignment"
  | getModel => "get-model"
  | getProof => "get-proof"
  | getUnsatAssumptions => "get-unsat-assumptions"
  | getUnsatCore => "get-unsat-core"
  | resetAssertions => "reset-assertions"

def all : List PlainCommand :=
  [checkSat, exit, getAssertions, getAssignment, getModel, getProof, getUnsatAssumptions,
    getUnsatCore, resetAssertions]

def ofName? (name : String) : Option PlainCommand := all.find? (·.name == name)

@[simp] theorem ofName?_name (c : PlainCommand) : ofName? c.name = some c := by
  cases c <;> decide

end PlainCommand

structure ConstructorDec where
  name : String
  selectors : List SortedVar
deriving DecidableEq

def ConstructorDec.spelling (c : ConstructorDec) : Spelling :=
  .group (.symbol c.name :: c.selectors.map SortedVar.spelling)

/-- A datatype; `binder` holds the sort parameters if `par` introduces some. -/
structure DatatypeDec where
  binder : Option (List String)
  constructors : List ConstructorDec
deriving DecidableEq

namespace DatatypeDec

def params (d : DatatypeDec) : List String := d.binder.getD []

def spelling (d : DatatypeDec) : Spelling :=
  let constructors := .group (d.constructors.map ConstructorDec.spelling)
  match d.binder with
  | none => constructors
  | some params => .group [.word "par", .group (params.map Spelling.symbol), constructors]

end DatatypeDec

/-- A sort name and its arity. -/
structure SortDec where
  name : String
  arity : Nat
deriving DecidableEq

def SortDec.spelling (d : SortDec) : Spelling := .group [.symbol d.name, .numeral d.arity]

/-- The name, variables and result sort of a function. -/
structure FunctionDec where
  name : String
  vars : List SortedVar
  result : SmtSort
deriving DecidableEq

namespace FunctionDec

def spellings (d : FunctionDec) : List Spelling :=
  [.symbol d.name, .group (d.vars.map SortedVar.spelling), d.result.spelling]

def spelling (d : FunctionDec) : Spelling := .group d.spellings

end FunctionDec

inductive Command where
  | assert (t : Term)
  | checkSatAssuming (ts : List Term)
  | declareConst (name : String) (sort : SmtSort)
  | declareDatatype (name : String) (dec : DatatypeDec)
  | declareDatatypes (sorts : List SortDec) (decs : List DatatypeDec)
  | declareFun (name : String) (args : List SmtSort) (result : SmtSort)
  | declareSort (name : String) (arity : Nat)
  | defineConst (name : String) (sort : SmtSort) (body : Term)
  | defineFun (dec : FunctionDec) (body : Term)
  | defineFunRec (dec : FunctionDec) (body : Term)
  | defineFunsRec (decs : List FunctionDec) (bodies : List Term)
  | defineSort (name : String) (params : List String) (sort : SmtSort)
  | echo (s : String)
  | getInfo (keyword : String)
  | getOption (keyword : String)
  | getValue (ts : List Term)
  | pop (levels : Nat)
  | push (levels : Nat)
  | reset
  | setInfo (a : Attribute)
  | setLogic (name : String)
  | setOption (a : Attribute)
  | plain (c : PlainCommand)
deriving DecidableEq

namespace Command

def name : Command → String
  | assert _ => "assert"
  | checkSatAssuming _ => "check-sat-assuming"
  | declareConst _ _ => "declare-const"
  | declareDatatype _ _ => "declare-datatype"
  | declareDatatypes _ _ => "declare-datatypes"
  | declareFun _ _ _ => "declare-fun"
  | declareSort _ _ => "declare-sort"
  | defineConst _ _ _ => "define-const"
  | defineFun _ _ => "define-fun"
  | defineFunRec _ _ => "define-fun-rec"
  | defineFunsRec _ _ => "define-funs-rec"
  | defineSort _ _ _ => "define-sort"
  | echo _ => "echo"
  | getInfo _ => "get-info"
  | getOption _ => "get-option"
  | getValue _ => "get-value"
  | pop _ => "pop"
  | push _ => "push"
  | reset => "reset"
  | setInfo _ => "set-info"
  | setLogic _ => "set-logic"
  | setOption _ => "set-option"
  | plain c => c.name

/-- What follows the name of a command. -/
def arguments : Command → List Spelling
  | assert t => [t.spelling]
  | checkSatAssuming ts => [.group (Term.spellings ts)]
  | declareConst name sort => [.symbol name, sort.spelling]
  | declareDatatype name dec => [.symbol name, dec.spelling]
  | declareDatatypes sorts decs =>
    [.group (sorts.map SortDec.spelling), .group (decs.map DatatypeDec.spelling)]
  | declareFun name args result =>
    [.symbol name, .group (SmtSort.spellings args), result.spelling]
  | declareSort name arity => [.symbol name, .numeral arity]
  | defineConst name sort body => [.symbol name, sort.spelling, body.spelling]
  | defineFun dec body => dec.spellings ++ [body.spelling]
  | defineFunRec dec body => dec.spellings ++ [body.spelling]
  | defineFunsRec decs bodies =>
    [.group (decs.map FunctionDec.spelling), .group (Term.spellings bodies)]
  | defineSort name params sort =>
    [.symbol name, .group (params.map Spelling.symbol), sort.spelling]
  | echo s => [.token (.string s)]
  | getInfo keyword => [.token (.keyword keyword)]
  | getOption keyword => [.token (.keyword keyword)]
  | getValue ts => [.group (Term.spellings ts)]
  | pop levels => [.numeral levels]
  | push levels => [.numeral levels]
  | reset => []
  | setInfo a => a.spellings
  | setLogic name => [.symbol name]
  | setOption a => a.spellings
  | plain _ => []

def spelling (c : Command) : Spelling := .group (.word c.name :: c.arguments)

def render (c : Command) : String := c.spelling.text

end Command

end WellSorted
