import WellSorted.Build.Sort
import WellSorted.Tree.Term

/-!
# Terms out of forms

The head of a list decides what term it is: `_` and `as` make an identifier, `let`, `forall`,
`exists` and `match` take two arguments, `!` takes a term and attributes, and any other head is a
function with at least one argument. The first fault met is the one reported; the cases of a match
are looked at before its scrutinee.
-/

namespace WellSorted

namespace Datum

mutual

def ofForm : Form → Datum
  | .atom _ (.symbol s) => symbol s
  | .atom _ (.keyword s) => keyword s
  | .atom _ (.numeral n) => constant (.numeral n)
  | .atom _ (.decimal d) => constant (.decimal d)
  | .atom _ (.string s) => constant (.string s)
  | .atom _ (.binary digits) => constant (.binary digits)
  | .atom _ (.hexadecimal digits) => constant (.hexadecimal digits)
  | .list _ items => list (ofForms items)

def ofForms : List Form → List Datum
  | [] => []
  | f :: rest => ofForm f :: ofForms rest

end

end Datum

def AttributeValue.ofForm : Form → Build AttributeValue
  | .atom extent token =>
    match Constant.ofToken? token, token with
    | some c, _ => .ok (constant c)
    | none, .symbol s => .ok (symbol s)
    | none, _ => .error ⟨extent, .invalid .attributeValue⟩
  | .list _ items => .ok (list (Datum.ofForms items))

/-- A keyword and the form that follows it, if that is no keyword. -/
structure AttributeForms where
  keyword : String
  value : Option Form

namespace AttributeForms

/-- Split `:keyword value :keyword ...` into attributes; `pending` is the keyword that was read
last and has no value yet. -/
def split (pending : Option String) : List Form → Build (List AttributeForms)
  | [] => .ok (pending.map (⟨·, none⟩)).toList
  | f :: rest =>
    match pending, f.keyword? with
    | none, none => f.fail (.expected .keyword)
    | none, some keyword => split (some keyword) rest
    | some keyword, none => do return ⟨keyword, some f⟩ :: (← split none rest)
    | some keyword, some next => do return ⟨keyword, none⟩ :: (← split (some next) rest)

def toAttribute (a : AttributeForms) : Build Attribute :=
  match a.value with
  | none => .ok ⟨a.keyword, none⟩
  | some value => do return ⟨a.keyword, some (← AttributeValue.ofForm value)⟩

end AttributeForms

namespace Attribute

def ofForms (forms : List Form) : Build (List Attribute) := do
  (← AttributeForms.split none forms).mapM AttributeForms.toAttribute

/-- The only attribute in the arguments of a command. -/
def single (extent : Extent) (forms : List Form) : Build Attribute := do
  match ← AttributeForms.split none forms with
  | [a] => a.toAttribute
  | _ => .error ⟨extent, .notOneAttribute⟩

end Attribute

def QualIdentifier.ofForm : Form → Build QualIdentifier
  | .list extent (head :: tail) =>
    if head.symbol? = some "as" then
      match tail with
      | [name, sort] => do
        let name ← Identifier.ofForm name
        let sort ← SmtSort.ofForm sort
        return ⟨name, some sort⟩
      | _ => .error ⟨extent, .argumentCount "as" 2 tail.length⟩
    else do
      return ⟨← Identifier.ofItems extent (head :: tail), none⟩
  | f => do return ⟨← Identifier.ofForm f, none⟩

namespace SortedVar

def ofForm : Form → Build SortedVar
  | .list _ [name, sort] => do
    let name ← name.symbol
    let sort ← SmtSort.ofForm sort
    return ⟨name, sort⟩
  | f => f.fail (.invalid .sortedVariable)

def listOfForm (f : Form) : Build (List SortedVar) := do
  (← f.items).mapM ofForm

end SortedVar

def Pattern.ofForm : Form → Build Pattern
  | .atom _ (.symbol s) => .ok (symbol s)
  | .atom extent _ => .error ⟨extent, .invalid .pattern⟩
  | .list extent [] => .error ⟨extent, .invalid .pattern⟩
  | .list extent (head :: tail) =>
    if head.symbol? = some "as" then
      match tail with
      | [ctor, sort] => do
        let ctor ← ctor.symbol
        let sort ← SmtSort.ofForm sort
        return qualified ctor sort
      | _ => .error ⟨extent, .argumentCount "as" 2 tail.length⟩
    else if tail.isEmpty then .error ⟨extent, .invalid .pattern⟩
    else do
      match ← Pattern.ofForm head with
      | symbol ctor => return applied ctor none (← tail.mapM Form.symbol)
      | qualified ctor sort => return applied ctor (some sort) (← tail.mapM Form.symbol)
      | applied _ _ _ => .error ⟨extent, .invalid .pattern⟩

/-- What the head of a list makes of it. -/
inductive TermHead where
  | identifier
  | letIn
  | quantifier (q : Quantifier)
  | matching
  | annotated
  | function
deriving DecidableEq, Repr

def TermHead.ofForm (f : Form) : TermHead :=
  match f.symbol? with
  | none => function
  | some s =>
    if s = "_" ∨ s = "as" then identifier
    else if s = "let" then letIn
    else if s = "forall" then quantifier .all
    else if s = "exists" then quantifier .some
    else if s = "match" then matching
    else if s = "!" then annotated
    else function

namespace Term

mutual

def ofForm : Form → Build Term
  | .atom extent token =>
    match Constant.ofToken? token, token with
    | some c, _ => .ok (constant c)
    | none, .symbol s => .ok (ident (.simple s))
    | none, _ => .error ⟨extent, .invalid .term⟩
  | .list extent items => ofItems extent items

def ofItems (extent : Extent) : List Form → Build Term
  | [] => .error ⟨extent, .invalid .term⟩
  | head :: tail =>
    match TermHead.ofForm head with
    | .identifier => do return ident (← QualIdentifier.ofForm (.list extent (head :: tail)))
    | .letIn =>
      match tail with
      | [bindings, body] => do
        let bindings ← bindingsOfForm bindings
        let body ← ofForm body
        return letIn bindings body
      | _ => .error ⟨extent, .argumentCount "let" 2 tail.length⟩
    | .quantifier q =>
      match tail with
      | [vars, body] => do
        let vars ← SortedVar.listOfForm vars
        let body ← ofForm body
        return quantified q vars body
      | _ => .error ⟨extent, .argumentCount q.word 2 tail.length⟩
    | .matching =>
      match tail with
      | [scrutinee, arms] => do
        let arms ← armsOfForm arms
        let scrutinee ← ofForm scrutinee
        return matching scrutinee arms
      | _ => .error ⟨extent, .argumentCount "match" 2 tail.length⟩
    | .annotated =>
      match tail with
      | [] => .error ⟨extent, .invalid .term⟩
      | term :: attributes => do
        let term ← ofForm term
        let attributes ← Attribute.ofForms attributes
        return annotated term attributes
    | .function =>
      if tail.isEmpty then .error ⟨extent, .invalid .term⟩
      else do
        let function ← QualIdentifier.ofForm head
        let args ← ofForms tail
        return app function args

def ofForms : List Form → Build (List Term)
  | [] => .ok []
  | f :: rest => do
    let t ← ofForm f
    let ts ← ofForms rest
    return t :: ts

def bindingsOfForm : Form → Build (List (String × Term))
  | .atom extent _ => .error ⟨extent, .expected .list⟩
  | .list _ items => bindingsOfForms items

def bindingsOfForms : List Form → Build (List (String × Term))
  | [] => .ok []
  | f :: rest => do
    let binding ← bindingOfForm f
    let bindings ← bindingsOfForms rest
    return binding :: bindings

def bindingOfForm : Form → Build (String × Term)
  | .list _ [name, term] => do
    let name ← name.symbol
    let term ← ofForm term
    return (name, term)
  | f => f.fail (.invalid .letBinding)

def armsOfForm : Form → Build (List (Pattern × Term))
  | .atom extent _ => .error ⟨extent, .expected .list⟩
  | .list _ items => armsOfForms items

def armsOfForms : List Form → Build (List (Pattern × Term))
  | [] => .ok []
  | f :: rest => do
    let arm ← armOfForm f
    let arms ← armsOfForms rest
    return arm :: arms

def armOfForm : Form → Build (Pattern × Term)
  | .list _ [pattern, term] => do
    let pattern ← Pattern.ofForm pattern
    let term ← ofForm term
    return (pattern, term)
  | f => f.fail (.invalid .matchCase)

end

def listOfForm (f : Form) : Build (List Term) := do
  ofForms (← f.items)

end Term

end WellSorted
