import WellSorted.Text.Bytes
import WellSorted.Text.Position

/-!
# From offsets to positions

An index of a text keeps the offsets at which its lines start. The row of an offset is found among
them by binary search; its column counts the characters between the start of the line and the
offset.
-/

namespace WellSorted

/-- The number of members before the first one that fails `p`, if no member after that one passes
`p`: the part of the array that is still in question is halved. -/
def partitionPoint {α : Type} (p : α → Bool) (xs : Array α) : Nat :=
  search 0 xs.size
where
  search (low high : Nat) : Nat :=
    if low < high then
      let mid := low + (high - low) / 2
      if xs[mid]?.any p then search (mid + 1) high else search low mid
    else low
  termination_by high - low

structure LineIndex where
  text : List Char
  lineStarts : Array Nat

namespace LineIndex

/-- The offsets behind the newlines of a text that starts at `offset`. -/
def newlineEnds (offset : Nat) (text : List Char) : List Nat :=
  ((Text.charIndices offset text).filter (·.2 = '\n')).map (·.1 + 1)

def ofText (text : List Char) : LineIndex := ⟨text, (0 :: newlineEnds 0 text).toArray⟩

/-- The position of the character at an offset. -/
def position (index : LineIndex) (offset : Nat) : Position :=
  let row := partitionPoint (· ≤ offset) index.lineStarts
  let start := index.lineStarts.getD (row - 1) 0
  ⟨row, ((Text.slice? index.text start offset).map List.length).getD 0 + 1⟩

/-- The offset of the last character before a boundary. -/
def lastBefore? (index : LineIndex) (stop : Nat) : Option Nat := do
  let before ← Text.slice? index.text 0 stop
  let last ← (Text.charIndices 0 before).getLast?
  return last.1

/-- The span of the bytes from `start` up to, and without, `stop`. It ends with the last character;
an empty range has the span of the place where it starts. -/
def span (index : LineIndex) (start stop : Nat) : Span :=
  let last := if start < stop then (index.lastBefore? stop).getD start else start
  ⟨index.position start, index.position last⟩

end LineIndex

end WellSorted
