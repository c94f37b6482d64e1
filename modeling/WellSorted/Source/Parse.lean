import WellSorted.Build.Root
import WellSorted.Form.Reader
import WellSorted.Source.Node

/-!
# Parsing

A text is read into forms and the forms are built into a tree, which may be a whole root or a single
script, theory, logic, command, term or sort. The origin of the text tells its nodes apart from
those of other texts.
-/

namespace WellSorted

inductive ParseError where
  /-- Nothing that is expected at the position can be read there. -/
  | unreadable (position : Position) (expected : List Awaited)
  /-- A form, given by its text, has the wrong shape. -/
  | malformed (location : Location) (text : String) (fault : Fault)
  /-- The text as a whole is something else. -/
  | unexpectedRoot (location : Location)
deriving DecidableEq, Repr

namespace ParseError

/-- The texts of what could have stood at a place, in their order. -/
def expectedTexts (expected : List Awaited) : List String :=
  (expected.map Awaited.text).mergeSort (· ≤ ·)

def message : ParseError → String
  | unreadable position expected =>
    "unbalanced or illegal text: error at " ++ position.render ++ ": expected one of "
      ++ ", ".intercalate (expectedTexts expected)
  | malformed location text fault => location.render ++ ": " ++ fault.message text
  | unexpectedRoot location =>
    location.render ++ ": the input is not a script, a theory, nor a logic!"

end ParseError

/-- A tree and the source it was built from. -/
structure Parsed (α : Type) where
  source : Source
  tree : α

namespace Parsed

def rejection (s : Source) : Rejection → ParseError
  | .malformed m => .malformed (s.locate m.extent) (m.extent.slice s.text) m.fault
  | .unexpected extent => .unexpectedRoot (s.locate extent)

/-- Read the characters of a text and build its forms into a tree. -/
def ofChars {α : Type} (build : Source → Except Rejection α) (origin : Origin)
    (chars : List Char) : Except ParseError (Parsed α) :=
  match Form.read chars with
  | .error e =>
    let before := (Text.slice? chars 0 e.offset).getD []
    .error (.unreadable (.after before) e.expected)
  | .ok forms =>
    let source : Source := ⟨origin, chars, forms⟩
    match build source with
    | .error r => .error (rejection source r)
    | .ok tree => .ok ⟨source, tree⟩

def ofText {α : Type} (build : Source → Except Rejection α) (origin : Origin) (text : String) :
    Except ParseError (Parsed α) :=
  ofChars build origin text.toList

/-- Build a text that has to be a single form. -/
def single {α : Type} (build : Form → Build α) (s : Source) : Except Rejection α :=
  match s.forms with
  | [f] => (build f).mapError .malformed
  | _ => .error (.unexpected ⟨0, Text.byteLength s.text⟩)

end Parsed

def Root.ofSource (s : Source) : Except Rejection Root :=
  Root.ofForms (Text.byteLength s.text) s.forms

def parseRoot (origin : Origin) (text : String) : Except ParseError (Parsed Root) :=
  Parsed.ofText Root.ofSource origin text

def parseScript (origin : Origin) (text : String) : Except ParseError (Parsed (List Command)) :=
  Parsed.ofText (fun s => (scriptOfForms s.forms).mapError .malformed) origin text

def parseTheory (origin : Origin) (text : String) : Except ParseError (Parsed Theory) :=
  Parsed.ofText
    (fun s => do
      match ← Root.ofSource s with
      | .theory t => return t
      | _ => throw (.unexpected (Form.hull s.forms)))
    origin text

def parseLogic (origin : Origin) (text : String) : Except ParseError (Parsed Logic) :=
  Parsed.ofText
    (fun s => do
      match ← Root.ofSource s with
      | .logic l => return l
      | _ => throw (.unexpected (Form.hull s.forms)))
    origin text

def parseCommand (origin : Origin) (text : String) : Except ParseError (Parsed Command) :=
  Parsed.ofText (Parsed.single Command.ofForm) origin text

def parseTerm (origin : Origin) (text : String) : Except ParseError (Parsed Term) :=
  Parsed.ofText (Parsed.single Term.ofForm) origin text

def parseSort (origin : Origin) (text : String) : Except ParseError (Parsed SmtSort) :=
  Parsed.ofText (Parsed.single SmtSort.ofForm) origin text

/-- The spot of the only form of a text. -/
def Parsed.spot {α : Type} (p : Parsed α) : Spot := (Spot.top p.source).item 0

end WellSorted
