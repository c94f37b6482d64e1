import WellSorted.Build.Command
import WellSorted.Tree.Root

/-!
# Theories, logics and roots out of forms

The first form of a text decides whether it is a theory, a logic or a script. The attributes of a
theory or logic are looked at before its name. `:sorts`, `:funs` and `:theories` are taken apart if
their value is a non-empty list of the right declarations, and are plain attributes otherwise.
-/

namespace WellSorted

/-- Why forms are not the tree that a text should hold: a form has the wrong shape, or the whole
is something else. -/
inductive Rejection where
  | malformed (m : Malformed)
  | unexpected (extent : Extent)
deriving DecidableEq, Repr

def SortSymbolDec.ofForm? : Form → Option SortSymbolDec
  | .list _ (name :: arity :: attributes) => do
    let name ← (Identifier.ofForm name).toOption
    let arity ← arity.numeral.toOption
    let attributes ← (Attribute.ofForms attributes).toOption
    return ⟨name, arity, attributes⟩
  | _ => none

namespace FunSymbolDec

/-- The sorts before the first keyword, and the attributes from there on. -/
def signature? (forms : List Form) : Option (List SmtSort × SmtSort × List Attribute) := do
  let sorts := forms.takeWhile (·.keyword?.isNone)
  let sorts ← (SmtSort.ofForms sorts).toOption
  let attributes ← (Attribute.ofForms (forms.dropWhile (·.keyword?.isNone))).toOption
  let result ← sorts.getLast?
  return (sorts.dropLast, result, attributes)

def unparametric? (head : Form) (args : List SmtSort) (result : SmtSort)
    (attributes : List Attribute) : Option FunSymbolDec :=
  match head.symbol?.bind LiteralClass.ofWord?, head with
  | some c, _ => if args.isEmpty then some (literals c result attributes) else none
  | none, .atom _ token =>
    match Constant.ofToken? token with
    | some c => if args.isEmpty then some (literal c result attributes) else none
    | none => do return simple (← (Identifier.ofForm head).toOption) args result attributes
  | none, _ => do return simple (← (Identifier.ofForm head).toOption) args result attributes

def ofForm? (f : Form) : Option FunSymbolDec :=
  match f.headed? with
  | some ("par", tail) =>
    match tail with
    | [params, .list _ (name :: rest)] => do
      let params ← params.symbols.toOption
      let (args, result, attributes) ← signature? rest
      let name ← (Identifier.ofForm name).toOption
      return parametric params name args result attributes
    | _ => none
  | _ =>
    match f with
    | .list _ (head :: rest) => do
      let (args, result, attributes) ← signature? rest
      unparametric? head args result attributes
    | _ => none

end FunSymbolDec

/-- The values of a non-empty list of forms that all have one. -/
def Form.nonemptyItems? {α : Type} (value? : Form → Option α) (f : Form) : Option (List α) :=
  match f with
  | .list _ (item :: items) => (item :: items).mapM value?
  | _ => none

def TheoryAttribute.ofForms (a : AttributeForms) : Build TheoryAttribute :=
  let structured :=
    if a.keyword = ":sorts" then
      (a.value.bind (Form.nonemptyItems? SortSymbolDec.ofForm?)).map sorts
    else if a.keyword = ":funs" then
      (a.value.bind (Form.nonemptyItems? FunSymbolDec.ofForm?)).map funs
    else none
  match structured with
  | some a => .ok a
  | none => do return other (← a.toAttribute)

def LogicAttribute.ofForms (a : AttributeForms) : Build LogicAttribute :=
  let structured :=
    if a.keyword = ":theories" then
      (a.value.bind (Form.nonemptyItems? Form.symbol?)).map theories
    else none
  match structured with
  | some a => .ok a
  | none => do return other (← a.toAttribute)

def Theory.ofItems (f : Form) : List Form → Build Theory
  | [] => f.fail (.missingName .theory)
  | name :: attributes => do
    let attributes ← (← AttributeForms.split none attributes).mapM TheoryAttribute.ofForms
    let name ← name.symbol
    return ⟨name, attributes⟩

def Logic.ofItems (f : Form) : List Form → Build Logic
  | [] => f.fail (.missingName .logic)
  | name :: attributes => do
    let attributes ← (← AttributeForms.split none attributes).mapM LogicAttribute.ofForms
    let name ← name.symbol
    return ⟨name, attributes⟩

def scriptOfForms (forms : List Form) : Build (List Command) := forms.mapM Command.ofForm

namespace Root

/-- A theory or a logic has to be the only form. -/
def alone (what : Library) (build : Build Root) : List Form → Build Root
  | [] => build
  | extra :: _ => extra.fail (.trailingContent what)

/-- The root that the forms of a text of the given length make up. -/
def ofForms (length : Nat) (forms : List Form) : Except Rejection Root :=
  match forms.head?.bind Form.headed?, forms with
  | some ("theory", tail), f :: rest =>
    (alone .theory (theory <$> Theory.ofItems f tail) rest).mapError .malformed
  | some ("logic", tail), f :: rest =>
    (alone .logic (logic <$> Logic.ofItems f tail) rest).mapError .malformed
  | _, _ =>
    if forms.all (·.items?.isSome) then (script <$> scriptOfForms forms).mapError .malformed
    else .error (.unexpected ⟨0, length⟩)

end Root

end WellSorted
