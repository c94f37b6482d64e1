import WellSorted.Findings.Report

/-!
# Sinks

A sink takes findings one at a time and keeps them grouped, as a report shows them. Checks that run
one after another share a sink. Whether one of them found anything is told from the number of
findings before and after it.
-/

namespace WellSorted

/-- What was recorded so far, by file and node. -/
structure Sink where
  files : List FileEntry

namespace Sink

def empty : Sink := ⟨[]⟩

def record (s : Sink) (f : Finding) : Sink := ⟨FileEntry.insertFile f s.files⟩

def recordAll (s : Sink) (fs : List Finding) : Sink := fs.foldl record s

/-- The entries of all files. -/
def entries (s : Sink) : List NodeEntry := s.files.flatMap (·.entries)

/-- The number of findings, counted entry by entry. -/
def errorCount (s : Sink) : Nat := s.entries.foldl (fun n e => n + e.findings.length) 0

/-- Record the findings of a check. It passes if their number did not grow. -/
def judge (s : Sink) (fs : List Finding) : Bool × Sink :=
  let after := s.recordAll fs
  (after.errorCount == s.errorCount, after)

end Sink

end WellSorted
