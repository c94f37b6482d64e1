import WellSorted.Findings.Logged
import WellSorted.Symbols.Stack

/-!
# Entering declarations

A declaration that conflicts with an earlier one leaves the stack as it is. Declarations of a
command are reported then; bound variables and repeated entries of a definition are dropped.
-/

namespace WellSorted.Stack

/-- Enter a declaration, or drop it if it conflicts. -/
def enter (G : Stack) (d : Declaration) : Logged Stack :=
  match G.insert d with
  | .ok G' => pure G'
  | .error _ => do
    Logged.drop d
    return G

/-- Enter declarations one after another. -/
def enterAll (G : Stack) : List Declaration → Logged Stack
  | [] => pure G
  | d :: rest => do
    let G ← G.enter d
    G.enterAll rest

/-- Enter a declaration, or report a problem together with the declaration it conflicts with. -/
def declare (G : Stack) (n : Node) (p : Problem) (d : Declaration) : Logged Stack :=
  match G.insert d with
  | .ok G' => pure G'
  | .error previous => do
    Logged.report (n.conflict p previous)
    return G

/-- Declare a sort at the node that introduces it. -/
def declareSort (G : Stack) (d : SortDecl) : Logged Stack :=
  G.declare d.node (.sortExists d.name) (.sort d)

/-- Declare a function at the node that introduces it. -/
def declareFun (G : Stack) (f : FunDecl) : Logged Stack :=
  G.declare f.node (.functionExists f.name) (.function f)

end WellSorted.Stack
