import WellSorted.Form.Spelling

/-!
# Identifiers and sorts

A sort is an identifier applied to sorts. A sort parameter is an atom, that is, a plain symbol
without arguments; the declaration that lists the parameters tells it from a sort of that name.
-/

namespace WellSorted

inductive Index where
  | numeral (n : Nat)
  | symbol (s : String)
deriving DecidableEq, Repr

def Index.spelling : Index → Spelling
  | numeral n => .numeral n
  | symbol s => .symbol s

structure Identifier where
  symbol : String
  indices : List Index
deriving DecidableEq, Repr

namespace Identifier

def simple (s : String) : Identifier := ⟨s, []⟩

def isIndexed (i : Identifier) : Bool := !i.indices.isEmpty

def spelling (i : Identifier) : Spelling :=
  if i.isIndexed then .group (.word "_" :: .symbol i.symbol :: i.indices.map Index.spelling)
  else .symbol i.symbol

/-- The text of an identifier, under which it is declared and looked up. -/
def key (i : Identifier) : String := i.spelling.text

end Identifier

inductive SmtSort where
  | mk (head : Identifier) (args : List SmtSort)
deriving Repr

namespace SmtSort

def head : SmtSort → Identifier
  | mk head _ => head

def args : SmtSort → List SmtSort
  | mk _ args => args

def simple (name : String) : SmtSort := mk (.simple name) []

def bool : SmtSort := simple "Bool"

mutual

def spelling : SmtSort → Spelling
  | mk head [] => head.spelling
  | mk head (s :: args) => .group (head.spelling :: s.spelling :: spellings args)

def spellings : List SmtSort → List Spelling
  | [] => []
  | s :: rest => s.spelling :: spellings rest

end

def render (s : SmtSort) : String := s.spelling.text

def isAtom (s : SmtSort) : Bool := !s.head.isIndexed && s.args.isEmpty

/-- The parameter that a sort is, if it is one of the given ones. -/
def asParam (params : List String) (s : SmtSort) : Option String :=
  if s.isAtom then params.find? (· == s.head.symbol) else none

mutual

/-- Whether a parameter occurs in a sort. -/
def mentions (param : String) : SmtSort → Bool
  | mk head args =>
    (!head.isIndexed && args.isEmpty && head.symbol == param) || anyMentions param args

def anyMentions (param : String) : List SmtSort → Bool
  | [] => false
  | s :: rest => s.mentions param || anyMentions param rest

end

/-! ### Equality -/

mutual

def beq : SmtSort → SmtSort → Bool
  | mk head args, mk head' args' => head == head' && beqAll args args'

def beqAll : List SmtSort → List SmtSort → Bool
  | [], [] => true
  | s :: rest, s' :: rest' => s.beq s' && beqAll rest rest'
  | _, _ => false

end

mutual

theorem beq_iff : ∀ s t : SmtSort, s.beq t = true ↔ s = t
  | mk head args, mk head' args' => by simp [beq, beqAll_iff args args']

theorem beqAll_iff : ∀ ss ts : List SmtSort, beqAll ss ts = true ↔ ss = ts
  | [], [] => by simp [beqAll]
  | s :: ss, t :: ts => by simp [beqAll, beq_iff s t, beqAll_iff ss ts]
  | [], _ :: _ => by simp [beqAll]
  | _ :: _, [] => by simp [beqAll]

end

instance : DecidableEq SmtSort := fun s t => decidable_of_iff _ (beq_iff s t)

def isBool (s : SmtSort) : Bool := s == bool

end SmtSort

end WellSorted
