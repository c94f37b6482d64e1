import WellSorted.Source.Address
import WellSorted.Tree.Root

/-!
# Nodes

A node is a part of a tree at its address. Two nodes are the same if they are of one kind and stand
at one address of one source; a script of one command and that command, or an identifier and its
symbol, share the place and are still different nodes.
-/

namespace WellSorted

inductive Part where
  /-- A symbol, keyword or string. -/
  | word (s : String)
  | term (t : Term)
  | command (c : Command)
  | script (commands : List Command)
  | sortDec (d : SortSymbolDec)
  | funDec (d : FunSymbolDec)
  | theoryAttribute (a : TheoryAttribute)
  | logicAttribute (a : LogicAttribute)
  | theory (t : Theory)
  | logic (l : Logic)

inductive PartKind where
  | word
  | term
  | command
  | script
  | sortDec
  | funDec
  | theoryAttribute
  | logicAttribute
  | theory
  | logic
deriving DecidableEq, Repr

namespace Part

def kind : Part → PartKind
  | word _ => .word
  | term _ => .term
  | command _ => .command
  | script _ => .script
  | sortDec _ => .sortDec
  | funDec _ => .funDec
  | theoryAttribute _ => .theoryAttribute
  | logicAttribute _ => .logicAttribute
  | theory _ => .theory
  | logic _ => .logic

/-- The text of a part; a word stands for itself, without quotes. -/
def render : Part → String
  | word s => s
  | term t => t.render
  | command c => c.render
  | script commands => renderScript commands
  | sortDec d => d.render
  | funDec d => d.render
  | theoryAttribute a => a.render
  | logicAttribute a => a.render
  | theory t => t.render
  | logic l => l.render

/-- How many neighbouring items a part is built from. -/
def width : Part → Nat
  | theoryAttribute a => a.width
  | logicAttribute a => a.width
  | _ => 1

end Part

structure Node where
  spot : Spot
  part : Part

namespace Node

/-- What tells nodes apart. -/
structure Id where
  serial : Nat
  kind : PartKind
  address : Address
deriving DecidableEq, Repr

def id (n : Node) : Id := ⟨n.spot.source.origin.serial, n.part.kind, n.spot.address⟩

def render (n : Node) : String := n.part.render

def extent (n : Node) : Extent :=
  match n.part with
  | .script _ => Form.hull n.spot.source.forms
  | part =>
    ⟨n.spot.extent.start, (if part.width = 2 then n.spot.next else n.spot).extent.stop⟩

def location (n : Node) : Location := n.spot.source.locate n.extent

/-- The file of a node; nodes without a file share the empty name. -/
def fileName (n : Node) : String := n.spot.source.origin.file.getD ""

/-- A node with its place, as declarations are shown. -/
def describe (n : Node) : String := n.render ++ " @ " ++ n.location.render

end Node

/-! ### Parts of a root -/

namespace Spot

def node (s : Spot) (p : Part) : Node := ⟨s, p⟩

end Spot

namespace Root

/-- The node of a whole root: a theory or a logic is the first form of its text. -/
def node (source : Source) : Root → Node
  | script commands => (Spot.top source).node (.script commands)
  | theory t => ((Spot.top source).item 0).node (.theory t)
  | logic l => ((Spot.top source).item 0).node (.logic l)

end Root

end WellSorted
