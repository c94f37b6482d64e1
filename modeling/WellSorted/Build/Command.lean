import WellSorted.Build.Term
import WellSorted.Tree.Command

/-!
# Commands out of forms

A command is a list whose head symbol names it. The number of arguments is checked first, then the
arguments from left to right.
-/

namespace WellSorted

def ConstructorDec.ofForm : Form → Build ConstructorDec
  | .list _ (name :: selectors) => do
    let name ← name.symbol
    let selectors ← selectors.mapM SortedVar.ofForm
    return ⟨name, selectors⟩
  | f => f.fail (.invalid .constructorDeclaration)

namespace DatatypeDec

def ofConstructors (binder : Option (List String)) (f : Form) : Build DatatypeDec := do
  return ⟨binder, ← (← f.items).mapM ConstructorDec.ofForm⟩

def ofForm (f : Form) : Build DatatypeDec :=
  match f.headed? with
  | some ("par", tail) =>
    match tail with
    | [params, constructors] => do
      ofConstructors (some (← params.symbols)) constructors
    | _ => f.fail (.argumentCount "par" 2 tail.length)
  | _ => ofConstructors none f

end DatatypeDec

def SortDec.ofForm : Form → Build SortDec
  | .list _ [name, arity] => do
    let name ← name.symbol
    let arity ← arity.numeral
    return ⟨name, arity⟩
  | f => f.fail (.invalid .sortDeclaration)

namespace FunctionDec

def ofItems (name vars result : Form) : Build FunctionDec := do
  let name ← name.symbol
  let vars ← SortedVar.listOfForm vars
  let result ← SmtSort.ofForm result
  return ⟨name, vars, result⟩

def ofForm : Form → Build FunctionDec
  | .list _ [name, vars, result] => ofItems name vars result
  | f => f.fail (.invalid .functionDeclaration)

end FunctionDec

namespace Command

/-- The number of levels of `push` and `pop`, which is one unless it is given. -/
def levels (f : Form) (head : String) : List Form → Build Nat
  | [] => .ok 1
  | [n] => n.numeral
  | _ => f.fail (.tooManyLevels head)

/-- The command that the list `f` of a head symbol and a tail writes. -/
def ofHeaded (f : Form) (head : String) (tail : List Form) : Build Command :=
  let miscounted (wanted : Nat) : Build Command :=
    f.fail (.argumentCount head wanted tail.length)
  match head with
  | "assert" =>
    match tail with
    | [t] => do return assert (← Term.ofForm t)
    | _ => miscounted 1
  | "check-sat-assuming" =>
    match tail with
    | [ts] => do return checkSatAssuming (← Term.listOfForm ts)
    | _ => miscounted 1
  | "declare-const" =>
    match tail with
    | [name, sort] => do
      let name ← name.symbol
      let sort ← SmtSort.ofForm sort
      return declareConst name sort
    | _ => miscounted 2
  | "declare-datatype" =>
    match tail with
    | [name, dec] => do
      let name ← name.symbol
      let dec ← DatatypeDec.ofForm dec
      return declareDatatype name dec
    | _ => miscounted 2
  | "declare-datatypes" =>
    match tail with
    | [sorts, decs] => do
      let sorts ← (← sorts.items).mapM SortDec.ofForm
      let decs ← (← decs.items).mapM DatatypeDec.ofForm
      return declareDatatypes sorts decs
    | _ => miscounted 2
  | "declare-fun" =>
    match tail with
    | [name, args, result] => do
      let name ← name.symbol
      let args ← SmtSort.ofForms (← args.items)
      let result ← SmtSort.ofForm result
      return declareFun name args result
    | _ => miscounted 3
  | "declare-sort" =>
    match tail with
    | [name, arity] => do
      let name ← name.symbol
      let arity ← arity.numeral
      return declareSort name arity
    | _ => miscounted 2
  | "define-const" =>
    match tail with
    | [name, sort, body] => do
      let name ← name.symbol
      let sort ← SmtSort.ofForm sort
      let body ← Term.ofForm body
      return defineConst name sort body
    | _ => miscounted 3
  | "define-fun" =>
    match tail with
    | [name, vars, result, body] => do
      let dec ← FunctionDec.ofItems name vars result
      let body ← Term.ofForm body
      return defineFun dec body
    | _ => miscounted 4
  | "define-fun-rec" =>
    match tail with
    | [name, vars, result, body] => do
      let dec ← FunctionDec.ofItems name vars result
      let body ← Term.ofForm body
      return defineFunRec dec body
    | _ => miscounted 4
  | "define-funs-rec" =>
    match tail with
    | [decs, bodies] => do
      let decs ← (← decs.items).mapM FunctionDec.ofForm
      let bodies ← Term.listOfForm bodies
      return defineFunsRec decs bodies
    | _ => miscounted 2
  | "define-sort" =>
    match tail with
    | [name, params, sort] => do
      let name ← name.symbol
      let params ← params.symbols
      let sort ← SmtSort.ofForm sort
      return defineSort name params sort
    | _ => miscounted 3
  | "echo" =>
    match tail with
    | [s] => do return echo (← s.string)
    | _ => miscounted 1
  | "get-info" =>
    match tail with
    | [keyword] => do return getInfo (← keyword.keyword)
    | _ => miscounted 1
  | "get-option" =>
    match tail with
    | [keyword] => do return getOption (← keyword.keyword)
    | _ => miscounted 1
  | "get-value" =>
    match tail with
    | [ts] => do return getValue (← Term.listOfForm ts)
    | _ => miscounted 1
  | "pop" => do return pop (← levels f head tail)
  | "push" => do return push (← levels f head tail)
  | "reset" => if tail.isEmpty then .ok reset else miscounted 0
  | "set-info" => do return setInfo (← Attribute.single f.extent tail)
  | "set-logic" =>
    match tail with
    | [name] => do return setLogic (← name.symbol)
    | _ => miscounted 1
  | "set-option" => do return setOption (← Attribute.single f.extent tail)
  | _ =>
    match PlainCommand.ofName? head with
    | some c => if tail.isEmpty then .ok (plain c) else miscounted 0
    | none => f.fail (.unknownCommand head)

def ofForm (f : Form) : Build Command :=
  match f.headed? with
  | some (head, tail) => ofHeaded f head tail
  | none => f.fail (.expected .command)

end Command

end WellSorted
