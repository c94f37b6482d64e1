import WellSorted.Tree.Command

/-!
# Theories, logics and roots

A theory declares sort and function symbols in its `:sorts` and `:funs` attributes, a logic names
theories in `:theories`. An attribute of that name whose value has another shape stays a plain
attribute. A root is what a whole text holds.
-/

namespace WellSorted

/-- The words that give a sort to a whole class of literals. -/
inductive LiteralClass where
  | numeral
  | decimal
  | string
deriving DecidableEq, Repr

namespace LiteralClass

def word : LiteralClass → String
  | numeral => "NUMERAL"
  | decimal => "DECIMAL"
  | string => "STRING"

def ofWord? (s : String) : Option LiteralClass := [numeral, decimal, string].find? (·.word == s)

@[simp] theorem ofWord?_word (c : LiteralClass) : ofWord? c.word = some c := by
  cases c <;> decide

end LiteralClass

structure SortSymbolDec where
  name : Identifier
  arity : Nat
  attributes : List Attribute
deriving DecidableEq

namespace SortSymbolDec

def spelling (d : SortSymbolDec) : Spelling :=
  .group (d.name.spelling :: .numeral d.arity :: Attribute.allSpellings d.attributes)

def render (d : SortSymbolDec) : String := d.spelling.text

end SortSymbolDec

inductive FunSymbolDec where
  | literal (c : Constant) (sort : SmtSort) (attributes : List Attribute)
  | literals (c : LiteralClass) (sort : SmtSort) (attributes : List Attribute)
  | simple (name : Identifier) (args : List SmtSort) (result : SmtSort)
      (attributes : List Attribute)
  | parametric (params : List String) (name : Identifier) (args : List SmtSort)
      (result : SmtSort) (attributes : List Attribute)
deriving DecidableEq

namespace FunSymbolDec

def attributes : FunSymbolDec → List Attribute
  | literal _ _ attributes => attributes
  | literals _ _ attributes => attributes
  | simple _ _ _ attributes => attributes
  | parametric _ _ _ _ attributes => attributes

/-- A head, the sorts of its signature and its attributes. -/
def signatureSpelling (head : Spelling) (args : List SmtSort) (result : SmtSort)
    (attributes : List Attribute) : Spelling :=
  .group (head :: SmtSort.spellings args ++ result.spelling :: Attribute.allSpellings attributes)

def spelling : FunSymbolDec → Spelling
  | literal c sort attributes => signatureSpelling c.spelling [] sort attributes
  | literals c sort attributes => signatureSpelling (.word c.word) [] sort attributes
  | simple name args result attributes =>
    signatureSpelling name.spelling args result attributes
  | parametric params name args result attributes =>
    .group [.word "par", .group (params.map Spelling.symbol),
      signatureSpelling name.spelling args result attributes]

def render (d : FunSymbolDec) : String := d.spelling.text

end FunSymbolDec

inductive TheoryAttribute where
  | sorts (decs : List SortSymbolDec)
  | funs (decs : List FunSymbolDec)
  | other (a : Attribute)
deriving DecidableEq

namespace TheoryAttribute

def spellings : TheoryAttribute → List Spelling
  | sorts decs => [.token (.keyword ":sorts"), .group (decs.map SortSymbolDec.spelling)]
  | funs decs => [.token (.keyword ":funs"), .group (decs.map FunSymbolDec.spelling)]
  | other a => a.spellings

def render (a : TheoryAttribute) : String := Spelling.sideBySide a.spellings

/-- How many items of the theory an attribute takes. -/
def width : TheoryAttribute → Nat
  | other a => a.width
  | _ => 2

end TheoryAttribute

inductive LogicAttribute where
  | theories (names : List String)
  | other (a : Attribute)
deriving DecidableEq

namespace LogicAttribute

def spellings : LogicAttribute → List Spelling
  | theories names => [.token (.keyword ":theories"), .group (names.map Spelling.symbol)]
  | other a => a.spellings

def render (a : LogicAttribute) : String := Spelling.sideBySide a.spellings

def width : LogicAttribute → Nat
  | other a => a.width
  | _ => 2

end LogicAttribute

structure Theory where
  name : String
  attributes : List TheoryAttribute
deriving DecidableEq

namespace Theory

def spelling (t : Theory) : Spelling :=
  .group (.word "theory" :: .symbol t.name :: t.attributes.flatMap TheoryAttribute.spellings)

def render (t : Theory) : String := t.spelling.text

end Theory

structure Logic where
  name : String
  attributes : List LogicAttribute
deriving DecidableEq

namespace Logic

def spelling (l : Logic) : Spelling :=
  .group (.word "logic" :: .symbol l.name :: l.attributes.flatMap LogicAttribute.spellings)

def render (l : Logic) : String := l.spelling.text

end Logic

/-- The commands of a script stand on lines of their own. -/
def renderScript (commands : List Command) : String :=
  "\n".intercalate (commands.map Command.render)

inductive Root where
  | script (commands : List Command)
  | theory (t : Theory)
  | logic (l : Logic)
deriving DecidableEq

namespace Root

def kind : Root → String
  | script _ => "script"
  | theory _ => "theory"
  | logic _ => "logic"

def render : Root → String
  | script commands => renderScript commands
  | theory t => t.render
  | logic l => l.render

end Root

end WellSorted
