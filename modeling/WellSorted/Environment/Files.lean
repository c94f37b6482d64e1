/-!
# Files

What stands at a path, as far as reading it as text can tell.
-/

namespace WellSorted

inductive Content where
  | text (s : String)
  /-- A file that is not text. -/
  | garbled
  | directory
  | missing
  /-- The path leads through a file. -/
  | blocked
deriving DecidableEq, Repr

/-- What stands at each path. -/
abbrev Files := String → Content

namespace Content

def isFile : Content → Bool
  | text _ => true
  | garbled => true
  | _ => false

/-- The text of a file, or the reason why it cannot be read. -/
def read : Content → Except String String
  | text s => .ok s
  | garbled => .error "stream did not contain valid UTF-8"
  | directory => .error "Is a directory (os error 21)"
  | missing => .error "No such file or directory (os error 2)"
  | blocked => .error "Not a directory (os error 20)"

end Content

end WellSorted
