import WellSorted.Build.Fault
import WellSorted.Tree.Sort

/-!
# Sorts out of forms

An identifier is a symbol or `(_ symbol index ...)` with at least one index. A sort is an
identifier, or an identifier applied to at least one sort.
-/

namespace WellSorted

def Index.ofForm : Form → Build Index
  | .atom _ (.numeral n) => .ok (.numeral n)
  | .atom _ (.symbol s) => .ok (.symbol s)
  | f => f.fail (.invalid .index)

namespace Identifier

def ofItems (extent : Extent) : List Form → Build Identifier
  | head :: name :: index :: indices =>
    if head.symbol? = some "_" then do
      let symbol ← name.symbol
      let indices ← (index :: indices).mapM Index.ofForm
      return ⟨symbol, indices⟩
    else .error ⟨extent, .invalid .identifier⟩
  | _ => .error ⟨extent, .invalid .identifier⟩

def ofForm : Form → Build Identifier
  | .atom _ (.symbol s) => .ok (simple s)
  | .atom extent _ => .error ⟨extent, .invalid .identifier⟩
  | .list extent items => ofItems extent items

end Identifier

namespace SmtSort

mutual

def ofForm : Form → Build SmtSort
  | .atom _ (.symbol s) => .ok (simple s)
  | .atom extent _ => .error ⟨extent, .invalid .sort⟩
  | .list extent [] => .error ⟨extent, .invalid .sort⟩
  | .list extent (head :: tail) =>
    if head.symbol? = some "_" then do
      return mk (← Identifier.ofItems extent (head :: tail)) []
    else if tail.isEmpty then .error ⟨extent, .invalid .sort⟩
    else do
      let name ← Identifier.ofForm head
      let args ← ofForms tail
      return mk name args

def ofForms : List Form → Build (List SmtSort)
  | [] => .ok []
  | f :: rest => do
    let s ← ofForm f
    let ss ← ofForms rest
    return s :: ss

end

end SmtSort

end WellSorted
