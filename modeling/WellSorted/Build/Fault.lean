import WellSorted.Form.Basic

/-!
# Shape faults

Why a form is not the tree it should be. The fault is about one form, whose text the message
quotes.
-/

namespace WellSorted

/-- What a form was expected to be. -/
inductive Expected where
  | symbol
  | keyword
  | string
  | numeral
  | list
  | command
deriving DecidableEq, Repr

def Expected.name : Expected → String
  | symbol => "symbol"
  | keyword => "keyword"
  | string => "string"
  | numeral => "numeral"
  | list => "list"
  | command => "command"

/-- The construct a form is not. -/
inductive Construct where
  | index
  | identifier
  | sort
  | sortedVariable
  | attributeValue
  | pattern
  | letBinding
  | matchCase
  | term
  | constructorDeclaration
  | functionDeclaration
  | sortDeclaration
deriving DecidableEq, Repr

def Construct.name : Construct → String
  | index => "index"
  | identifier => "identifier"
  | sort => "sort"
  | sortedVariable => "sorted variable"
  | attributeValue => "attribute value"
  | pattern => "pattern"
  | letBinding => "let binding"
  | matchCase => "match case"
  | term => "term"
  | constructorDeclaration => "constructor declaration"
  | functionDeclaration => "function declaration"
  | sortDeclaration => "sort declaration"

/-- What a text can declare as a whole, besides scripts. -/
inductive Library where
  | theory
  | logic
deriving DecidableEq, Repr

def Library.name : Library → String
  | theory => "theory"
  | logic => "logic"

inductive Fault where
  | expected (what : Expected)
  | invalid (what : Construct)
  | argumentCount (head : String) (wanted given : Nat)
  | tooManyLevels (head : String)
  | notOneAttribute
  | unknownCommand (head : String)
  | missingName (what : Library)
  | trailingContent (what : Library)
deriving DecidableEq, Repr

/-- The message of a fault in a form of the given text. -/
def Fault.message (text : String) : Fault → String
  | expected what => "expected a " ++ what.name ++ ", but got " ++ text ++ "!"
  | invalid what => "invalid " ++ what.name ++ " " ++ text ++ "!"
  | argumentCount head wanted given =>
    head ++ " expects " ++ toString wanted ++ " argument(s), but got " ++ toString given ++ "!"
  | tooManyLevels head => head ++ " expects at most 1 argument!"
  | notOneAttribute => "expected exactly one attribute in " ++ text ++ "!"
  | unknownCommand head => "unknown command " ++ head ++ "!"
  | missingName what => "missing " ++ what.name ++ " name!"
  | trailingContent what => "unexpected content after the " ++ what.name ++ " declaration!"

/-- A fault and the form it is about. -/
structure Malformed where
  extent : Extent
  fault : Fault
deriving DecidableEq, Repr

abbrev Build (α : Type) := Except Malformed α

namespace Form

def fail {α : Type} (f : Form) (fault : Fault) : Build α := .error ⟨f.extent, fault⟩

def symbol (f : Form) : Build String :=
  match f.symbol? with
  | some s => .ok s
  | none => f.fail (.expected .symbol)

def keyword (f : Form) : Build String :=
  match f.keyword? with
  | some s => .ok s
  | none => f.fail (.expected .keyword)

def string : Form → Build String
  | atom _ (.string s) => .ok s
  | f => f.fail (.expected .string)

def numeral : Form → Build Nat
  | atom _ (.numeral n) => .ok n
  | f => f.fail (.expected .numeral)

def items (f : Form) : Build (List Form) :=
  match f.items? with
  | some items => .ok items
  | none => f.fail (.expected .list)

def symbols (f : Form) : Build (List String) := do
  (← f.items).mapM symbol

end Form

end WellSorted
