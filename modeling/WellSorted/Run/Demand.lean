import WellSorted.Check.Loading

/-!
# Files that a check may need

A script may load the logics that it sets and a logic the theories that it names. Two rounds
of looking at the texts found so far therefore give every file that a check can read.
-/

namespace WellSorted

/-- The theories and logics that a root asks for by itself. -/
def Root.libraries : Root → List (Library × String)
  | .script commands =>
    commands.filterMap fun
      | .setLogic name => some (.logic, quoteSymbol name)
      | _ => none
  | .theory _ => []
  | .logic l =>
    l.attributes.flatMap fun
      | .theories names => names.map fun name => (.theory, quoteSymbol name)
      | .other _ => []

namespace Demand

/-- The paths that the text of a file asks for. -/
def ofContent (c : Config) : Content → List String
  | .text text =>
    match parseRoot .nowhere text with
    | .ok p => p.tree.libraries.map fun (what, name) => c.path what name
    | .error _ => []
  | _ => []

/-- The paths to look at first. -/
def first (c : Config) (paths : List String) : List String :=
  c.path .theory Check.coreName :: paths

/-- The paths that known files ask for and that are not known themselves. -/
def next (c : Config) (known : List (String × Content)) : List String :=
  (known.flatMap fun (_, content) => ofContent c content).filter fun path =>
    (known.lookup path).isNone

end Demand

end WellSorted
