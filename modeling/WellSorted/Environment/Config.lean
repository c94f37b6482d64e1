import WellSorted.Build.Fault

/-!
# Configuration

Where theories and logics are looked for, and whether the core theory is part of every check. The
file of a library is its name with an extension, in the directory for its kind.
-/

namespace WellSorted

structure Config where
  theoriesDir : String
  logicsDir : String
  theoryExt : String
  logicExt : String
  coreEnabled : Bool
deriving DecidableEq, Repr

/-- A path below a directory. An absolute path replaces the directory; nothing else is
simplified. -/
def joinPath (dir path : String) : String :=
  if path.toList.head? = some '/' then path
  else if dir.isEmpty || dir.toList.getLast? = some '/' then dir ++ path
  else dir ++ "/" ++ path

namespace Config

def standard : Config := ⟨"theories", "logics", ".smt2", ".smt2", true⟩

/-- The file of a theory or logic. -/
def path (c : Config) : Library → String → String
  | .theory, name => joinPath c.theoriesDir (name ++ c.theoryExt)
  | .logic, name => joinPath c.logicsDir (name ++ c.logicExt)

end Config

end WellSorted
