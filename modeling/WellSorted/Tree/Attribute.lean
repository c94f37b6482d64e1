import WellSorted.Form.Spelling

/-!
# Constants and attributes

The value of an attribute is a constant, a symbol or a list of data. The digits of a binary or
hexadecimal constant are kept as written, since their number matters.
-/

namespace WellSorted

inductive Constant where
  | numeral (n : Nat)
  | decimal (d : Decimal)
  | string (s : String)
  | binary (digits : String)
  | hexadecimal (digits : String)
deriving DecidableEq

namespace Constant

def token : Constant → Token
  | numeral n => .numeral n
  | decimal d => .decimal d
  | string s => .string s
  | binary digits => .binary digits
  | hexadecimal digits => .hexadecimal digits

def ofToken? : Token → Option Constant
  | .numeral n => some (numeral n)
  | .decimal d => some (decimal d)
  | .string s => some (string s)
  | .binary digits => some (binary digits)
  | .hexadecimal digits => some (hexadecimal digits)
  | .symbol _ => none
  | .keyword _ => none

def spelling (c : Constant) : Spelling := .token c.token

def render (c : Constant) : String := c.spelling.text

@[simp] theorem ofToken?_token (c : Constant) : ofToken? c.token = some c := by
  cases c <;> rfl

end Constant

/-- An s-expression in the value of an attribute. -/
inductive Datum where
  | constant (c : Constant)
  | symbol (s : String)
  | keyword (s : String)
  | list (items : List Datum)

namespace Datum

mutual

def spelling : Datum → Spelling
  | constant c => c.spelling
  | symbol s => .symbol s
  | keyword s => .token (.keyword s)
  | list items => .group (spellings items)

def spellings : List Datum → List Spelling
  | [] => []
  | d :: rest => d.spelling :: spellings rest

end

/-! ### Equality -/

mutual

def beq : Datum → Datum → Bool
  | constant c, constant c' => c == c'
  | symbol s, symbol s' => s == s'
  | keyword s, keyword s' => s == s'
  | list items, list items' => beqAll items items'
  | _, _ => false

def beqAll : List Datum → List Datum → Bool
  | [], [] => true
  | d :: rest, d' :: rest' => d.beq d' && beqAll rest rest'
  | _, _ => false

end

mutual

theorem beq_iff : ∀ d e : Datum, d.beq e = true ↔ d = e
  | constant c, e => by cases e <;> simp [beq]
  | symbol s, e => by cases e <;> simp [beq]
  | keyword s, e => by cases e <;> simp [beq]
  | list items, e => by
    cases e with
    | list items' => simp [beq, beqAll_iff items items']
    | _ => simp [beq]

theorem beqAll_iff : ∀ ds es : List Datum, beqAll ds es = true ↔ ds = es
  | [], [] => by simp [beqAll]
  | d :: ds, e :: es => by simp [beqAll, beq_iff d e, beqAll_iff ds es]
  | [], _ :: _ => by simp [beqAll]
  | _ :: _, [] => by simp [beqAll]

end

instance : DecidableEq Datum := fun d e => decidable_of_iff _ (beq_iff d e)

end Datum

inductive AttributeValue where
  | constant (c : Constant)
  | symbol (s : String)
  | list (items : List Datum)
deriving DecidableEq

namespace AttributeValue

def spelling : AttributeValue → Spelling
  | constant c => c.spelling
  | symbol s => .symbol s
  | list items => .group (Datum.spellings items)

def isString : AttributeValue → Bool
  | constant (.string _) => true
  | _ => false

def isNumeral : AttributeValue → Bool
  | constant (.numeral _) => true
  | _ => false

def isTruthValue : AttributeValue → Bool
  | symbol s => s == "true" || s == "false"
  | _ => false

end AttributeValue

/-- A keyword, which starts with its colon, and its value. -/
structure Attribute where
  keyword : String
  value : Option AttributeValue
deriving DecidableEq

namespace Attribute

/-- An attribute is written as one or two items of the list it stands in. -/
def spellings (a : Attribute) : List Spelling :=
  .token (.keyword a.keyword) :: (a.value.map AttributeValue.spelling).toList

def allSpellings (as : List Attribute) : List Spelling := as.flatMap spellings

/-- How many items an attribute takes. -/
def width (a : Attribute) : Nat := if a.value.isSome then 2 else 1

def render (a : Attribute) : String := Spelling.sideBySide a.spellings

end Attribute

end WellSorted
