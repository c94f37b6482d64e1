import WellSorted.Run.CommandLine
import WellSorted.Run.Demand

/-!
# The program

Reads the files that the arguments ask for and runs the command line on them.
-/

namespace WellSorted.CommandLine

def usage : String :=
  "Usage: wellsorted [--no-core] [--theories DIR] [--logics DIR] [--theory-ext EXT] "
    ++ "[--logic-ext EXT] FILE..."

/-- What stands at a path of the file system. -/
def contentAt (path : String) : IO Content := do
  try
    let bytes ← IO.FS.readBinFile path
    return (String.fromUTF8? bytes).elim .garbled .text
  catch
    | .inappropriateType _ code _ => return if code = 21 then .directory else .blocked
    | _ => return .missing

/-- Add what stands at some paths to what is known. -/
def lookAt (known : List (String × Content)) (paths : List String) :
    IO (List (String × Content)) := do
  let found ← paths.mapM fun path => return (path, ← contentAt path)
  return known ++ found

/-- The files that a run with the given options can read. -/
def filesFor (o : Options) : IO Files := do
  let c := o.config
  let known ← lookAt [] (Demand.first c o.files)
  let known ← lookAt known (Demand.next c known)
  let known ← lookAt known (Demand.next c known)
  return fun path => (known.lookup path).getD .missing

/-- Run the command line and give its status. -/
def execute (args : List String) : IO UInt32 := do
  let files ← match Options.parse args with
    | .ok o => filesFor o
    | .error _ => do
      IO.eprintln usage
      pure fun _ => .missing
  let r := run files args
  IO.print r.output
  return r.status.toUInt32

end WellSorted.CommandLine

def main (args : List String) : IO UInt32 := WellSorted.CommandLine.execute args
