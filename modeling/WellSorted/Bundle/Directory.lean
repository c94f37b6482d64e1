import WellSorted.Bundle.Logics
import WellSorted.Bundle.Theories
import WellSorted.Environment.Context
import WellSorted.Environment.Directory

/-!
# The bundled directory

A directory tree with the bundled theories and logics where the standard configuration looks for
them.
-/

namespace WellSorted.Bundle

def fileEntry (file : String × String) : String × Entry := (file.1 ++ ".smt2", .text file.2)

def directory : Entry :=
  .directory
    [("theories", .directory (theories.map fileEntry)),
      ("logics", .directory (logics.map fileEntry))]

/-- The standard configuration with the bundled files. -/
def setup : Setup := ⟨.standard, directory.files⟩

end WellSorted.Bundle
