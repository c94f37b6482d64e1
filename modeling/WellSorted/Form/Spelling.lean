import WellSorted.Lexical.Token

/-!
# Spellings

How a tree is written: tokens, the fixed words of the language, and groups in parentheses with one
space between their items. A fixed word is never quoted, a symbol of the same text is.
-/

namespace WellSorted

inductive Spelling where
  | word (s : String)
  | token (t : Token)
  | group (items : List Spelling)

namespace Spelling

mutual

def chars : Spelling → List Char
  | word s => s.toList
  | token t => t.lexeme
  | group [] => ['(', ')']
  | group (s :: rest) => '(' :: (s.chars ++ charsAfter rest)

/-- The remaining items of a group, and its end. -/
def charsAfter : List Spelling → List Char
  | [] => [')']
  | s :: rest => ' ' :: (s.chars ++ charsAfter rest)

end

def text (s : Spelling) : String := String.ofList s.chars

/-- Items that stand side by side in a list. -/
def sideBySide (items : List Spelling) : String := " ".intercalate (items.map text)

def symbol (s : String) : Spelling := .token (.symbol s)

def numeral (n : Nat) : Spelling := .token (.numeral n)

end Spelling

end WellSorted
