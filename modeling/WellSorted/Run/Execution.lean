import WellSorted.Check.Commands
import WellSorted.Findings.Sink

/-!
# Checking a text

A text is parsed, its syntax is checked, and then its sorts, each time in a fresh context. The
first stage that fails ends the check. Both checks can also be run on a sink that holds the findings
of earlier ones.
-/

namespace WellSorted

/-- Check the syntax of a root, and tell whether that recorded nothing. -/
def SyntaxCheck.check (sink : Sink) (p : Parsed Root) : Bool × Sink :=
  sink.judge (SyntaxCheck.root p)

/-- Check the sorts of a root, and tell whether that recorded nothing. -/
def Check.check (setup : Setup) (ctx : Context) (sink : Sink) (p : Parsed Root) :
    Bool × Context × Sink :=
  let r := Check.root setup ctx p
  let (passed, sink) := sink.judge r.findings
  (passed, r.value, sink)

/-- Why a text does not pass. -/
inductive Failure where
  /-- The file cannot be read. -/
  | unreadable (path reason : String)
  | unparsable (e : ParseError)
  /-- Findings of the syntax check. -/
  | illFormed (findings : List Finding)
  /-- Findings of the sort check. -/
  | illSorted (findings : List Finding)

def Failure.message : Failure → String
  | unreadable path reason => "cannot read '" ++ path ++ "': " ++ reason
  | unparsable e => e.message
  | illFormed findings => Report.render findings
  | illSorted findings => Report.render findings

/-- Check a parsed root. -/
def checkRoot (setup : Setup) (p : Parsed Root) : Except Failure Unit :=
  match SyntaxCheck.root p with
  | [] =>
    match (Check.root setup .fresh p).findings with
    | [] => .ok ()
    | findings => .error (.illSorted findings)
  | findings => .error (.illFormed findings)

/-- Check a text, which may have a file name. -/
def checkText (setup : Setup) (file : Option String) (text : String) : Except Failure Unit :=
  match parseRoot ⟨file, 0⟩ text with
  | .error e => .error (.unparsable e)
  | .ok p => checkRoot setup p

/-- Check the text of a file. -/
def checkFile (setup : Setup) (path : String) : Except Failure Unit :=
  match (setup.files path).read with
  | .error reason => .error (.unreadable path reason)
  | .ok text => checkText setup (some path) text

end WellSorted
