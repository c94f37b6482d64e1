import WellSorted.Form.Basic
import WellSorted.Text.LineIndex

/-!
# Sources and addresses

Trees carry no positions. A node of a tree is named by its source and its address, the item numbers
that lead from the top of the text to the form it was built from. The source keeps the forms, so
the address gives the place in the text. Sources that are read one after another have different
serial numbers, also when they have the same file name.
-/

namespace WellSorted

/-- Item numbers, innermost first. -/
abbrev Address := List Nat

/-- Where a text comes from. -/
structure Origin where
  file : Option String
  serial : Nat
deriving DecidableEq, Repr

namespace Origin

/-- A text of its own, without a file. -/
def nowhere : Origin := ⟨none, 0⟩

end Origin

structure Source where
  origin : Origin
  text : List Char
  forms : List Form

namespace Source

def form? (s : Source) (a : Address) : Option Form :=
  match a.reverse with
  | [] => none
  | i :: path => s.forms[i]?.bind (Form.descend · path)

/-- The range of the form at an address. -/
def extent (s : Source) (a : Address) : Extent := ((s.form? a).map Form.extent).getD ⟨0, 0⟩

def locate (s : Source) (e : Extent) : Location :=
  ⟨s.origin.file, (LineIndex.ofText s.text).span e.start e.stop⟩

end Source

/-- An address in a source: where a walk through a tree stands. -/
structure Spot where
  source : Source
  address : Address

namespace Spot

def top (s : Source) : Spot := ⟨s, []⟩

/-- The item of a given number. -/
def item (s : Spot) (i : Nat) : Spot := ⟨s.source, i :: s.address⟩

/-- The item after this one. -/
def next (s : Spot) : Spot :=
  match s.address with
  | [] => s
  | i :: outer => ⟨s.source, (i + 1) :: outer⟩

def extent (s : Spot) : Extent := s.source.extent s.address

/-- Values with the first items they were built from, which start at item `i`; `width` says how many
items each takes. -/
def spread {α : Type} (width : α → Nat) (s : Spot) (i : Nat) : List α → List (Spot × α)
  | [] => []
  | a :: rest => (s.item i, a) :: s.spread width (i + width a) rest

/-- Values with the items they were built from, one item each, which start at item `i`. -/
def along {α : Type} (s : Spot) (i : Nat) (as : List α) : List (Spot × α) :=
  s.spread (fun _ => 1) i as

theorem along_cons {α : Type} (s : Spot) (i : Nat) (a : α) (as : List α) :
    s.along i (a :: as) = (s.item i, a) :: s.along (i + 1) as :=
  rfl

end Spot

end WellSorted
