/-!
# Positions in a text

Rows and columns start at 1. A column counts characters, and only a newline ends a row. A span
names its first and its last character.
-/

namespace WellSorted

structure Position where
  row : Nat
  column : Nat
deriving DecidableEq, Repr

namespace Position

/-- The position behind some characters, counted: the newlines among them, and the characters since
the last newline. -/
def after (before : List Char) : Position :=
  ⟨before.count '\n' + 1, (before.reverse.takeWhile (· != '\n')).length + 1⟩

def render (p : Position) : String :=
  toString p.row ++ ":" ++ toString p.column

end Position

structure Span where
  first : Position
  last : Position
deriving DecidableEq, Repr

namespace Span

def render (s : Span) : String :=
  s.first.render ++ " - " ++ s.last.render

end Span

/-- A span and the file it lies in, if the text has one. -/
structure Location where
  file : Option String
  span : Span
deriving DecidableEq, Repr

namespace Location

def render (l : Location) : String :=
  match l.file with
  | none => l.span.render
  | some file => file ++ "@" ++ l.span.render

end Location

end WellSorted
