import WellSorted.Findings.Logged

/-!
# Reports

Findings are grouped by file, in the order of the file names, and within a file by node, in the
order of their first findings. The report has one section for each file. Long nodes are cut.
-/

namespace WellSorted

/-- A node and what was found there, in order. -/
structure NodeEntry where
  node : Node
  findings : List Finding

/-- A file and its entries. -/
structure FileEntry where
  file : String
  entries : List NodeEntry

namespace FileEntry

/-- Enter a finding at its node, or at a new one after the others. -/
def insertNode (f : Finding) : List NodeEntry → List NodeEntry
  | [] => [⟨f.node, [f]⟩]
  | e :: rest =>
    if e.node.id = f.node.id then ⟨e.node, e.findings ++ [f]⟩ :: rest
    else e :: insertNode f rest

/-- Enter a finding in its file; files are kept in order. -/
def insertFile (f : Finding) : List FileEntry → List FileEntry
  | [] => [⟨f.node.fileName, [⟨f.node, [f]⟩]⟩]
  | e :: rest =>
    if f.node.fileName = e.file then ⟨e.file, insertNode f e.entries⟩ :: rest
    else if f.node.fileName < e.file then ⟨f.node.fileName, [⟨f.node, [f]⟩]⟩ :: e :: rest
    else e :: insertFile f rest

end FileEntry

namespace Report

/-- The findings by file and node. -/
def files (fs : List Finding) : List FileEntry :=
  fs.foldl (fun files f => FileEntry.insertFile f files) []

/-- The entries of all files. -/
def entries (fs : List Finding) : List NodeEntry := (files fs).flatMap (·.entries)

/-- All messages, in the order of the report. -/
def messages (fs : List Finding) : List String :=
  (entries fs).flatMap fun e => e.findings.map Finding.message

/-- The longest text of a node in a report. -/
def textLimit : Nat := 100

/-- Cut a text that is too long, and mark the cut. -/
def cut (marker : String) (text : String) : String :=
  let chars := text.toList
  if chars.length ≤ textLimit then text
  else String.ofList (chars.take textLimit) ++ marker

/-- Where a node stands and its text. -/
def nodeLine (marker : String) (n : Node) : String :=
  n.location.span.render ++ "   " ++ cut marker n.render ++ "\n"

/-- One finding of an entry. An earlier declaration is set off by blank lines. -/
def findingLines (isFirst isLast : Bool) (f : Finding) : String :=
  match f.previous with
  | none => "\t" ++ f.message ++ ".\n"
  | some previous =>
    (if isFirst then "" else "\n")
      ++ "\t" ++ f.message ++ ".\n"
      ++ "\t\tPreviously, in file '" ++ previous.node.fileName ++ "'\n"
      ++ "\t\t" ++ nodeLine "" previous.node
      ++ (if isLast then "" else "\n")

/-- The findings of an entry after some others. -/
def findingsLines (isFirst : Bool) : List Finding → String
  | [] => ""
  | f :: rest => findingLines isFirst rest.isEmpty f ++ findingsLines false rest

def entryLines (e : NodeEntry) : String :=
  nodeLine "[...]" e.node ++ findingsLines true e.findings ++ "\n"

def header (file : String) : String :=
  if file.isEmpty then ""
  else
    let rule := String.ofList (List.replicate (11 + file.length) '-') ++ "\n"
    rule ++ "In file '" ++ file ++ "':\n" ++ rule

def fileLines (e : FileEntry) : String :=
  header e.file ++ String.join (e.entries.map entryLines)

/-- The text of the report. -/
def render (fs : List Finding) : String :=
  String.join ((files fs).map fileLines) ++ "\n"

end Report

end WellSorted
