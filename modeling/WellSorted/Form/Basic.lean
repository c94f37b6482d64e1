import WellSorted.Lexical.Token
import WellSorted.Text.Bytes

/-!
# Forms

A form is an s-expression together with the range of the text it was read from.
-/

namespace WellSorted

/-- The bytes from `start` up to, and without, `stop`. -/
structure Extent where
  start : Nat
  stop : Nat
deriving DecidableEq, Repr

def Extent.slice (e : Extent) (text : List Char) : String :=
  String.ofList ((Text.slice? text e.start e.stop).getD [])

inductive Form where
  | atom (extent : Extent) (token : Token)
  | list (extent : Extent) (items : List Form)

namespace Form

def extent : Form → Extent
  | atom extent _ => extent
  | list extent _ => extent

def items? : Form → Option (List Form)
  | list _ items => some items
  | atom _ _ => none

def symbol? : Form → Option String
  | atom _ (.symbol s) => some s
  | _ => none

def keyword? : Form → Option String
  | atom _ (.keyword s) => some s
  | _ => none

/-- The head symbol and the other items of a list that starts with a symbol. -/
def headed? : Form → Option (String × List Form)
  | list _ (head :: tail) => head.symbol?.map (·, tail)
  | _ => none

/-- The form that a path of item numbers leads to. -/
def descend : Form → List Nat → Option Form
  | f, [] => some f
  | f, i :: path => (f.items?.getD [])[i]?.bind (descend · path)

/-- The range from the first to the last of some forms. -/
def hull (forms : List Form) : Extent :=
  ⟨(forms.head?.map (·.extent.start)).getD 0, (forms.getLast?.map (·.extent.stop)).getD 0⟩

end Form

end WellSorted
