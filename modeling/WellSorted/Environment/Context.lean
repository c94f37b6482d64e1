import WellSorted.Environment.Config
import WellSorted.Environment.Files
import WellSorted.Symbols.Stack

/-!
# The context of a check

The declarations, the logic that was set, the theories that were named by logics, and the loads
that are under way or were started so far.
-/

namespace WellSorted

/-- What a check can read. -/
structure Setup where
  config : Config
  files : Files

/-- The same setup, with or without the core theory. -/
def Setup.withCore (setup : Setup) (enabled : Bool) : Setup :=
  { setup with config := { setup.config with coreEnabled := enabled } }

/-- A load that was started while others were under way. -/
structure Load where
  what : Library
  name : String
  within : List (Library × String)
deriving DecidableEq, Repr

structure Context where
  stack : Stack
  logic : Option String
  /-- The theories that logics have loaded, in that order. -/
  theories : List String
  /-- Whether the core theory was loaded without being named. -/
  coreLoaded : Bool
  /-- The loads under way, innermost first. -/
  loading : List (Library × String)
  /-- All loads, newest first. -/
  loads : List Load

namespace Context

def fresh : Context := ⟨.empty, none, [], false, [], []⟩

/-- Forget every declaration, the logic and the theories. -/
def reset (ctx : Context) : Context :=
  { ctx with stack := .empty, logic := none, theories := [], coreLoaded := false }

/-- The serial number for the next source that is loaded. -/
def nextSerial (ctx : Context) : Nat := ctx.loads.length + 1

/-- Start a load. -/
def startLoad (ctx : Context) (what : Library) (name : String) : Context :=
  { ctx with
    loading := (what, name) :: ctx.loading
    loads := ⟨what, name, ctx.loading⟩ :: ctx.loads }

/-- End a load. -/
def endLoad (ctx : Context) (what : Library) (name : String) : Context :=
  { ctx with loading := ctx.loading.erase (what, name) }

end Context

end WellSorted
