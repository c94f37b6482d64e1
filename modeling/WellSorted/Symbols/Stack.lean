import WellSorted.Symbols.Scope
import WellSorted.Symbols.Signature

/-!
# Stacks of scopes

The innermost scope takes new declarations; the bottom scope is never removed. A sort conflicts
with every visible sort of its name, a function with every visible overload of its signature, and a
variable only with a variable of the innermost scope.
-/

namespace WellSorted

structure Stack where
  /-- The innermost scope. -/
  top : Scope
  /-- The scopes around it, innermost first. -/
  outer : List Scope

namespace Stack

def empty : Stack := ⟨.empty, []⟩

/-- All scopes, innermost first. -/
def scopes (s : Stack) : List Scope := s.top :: s.outer

def depth (s : Stack) : Nat := s.outer.length + 1

def push (s : Stack) : Stack := ⟨.empty, s.scopes⟩

/-- Enter `n` new scopes. -/
def pushMany (s : Stack) : Nat → Stack
  | 0 => s
  | n + 1 => ⟨.empty, List.replicate n .empty ++ s.scopes⟩

/-- Leave `n` scopes, if the bottom one remains. -/
def pop? (s : Stack) (n : Nat) : Option Stack :=
  match s.scopes.drop n with
  | [] => none
  | top :: outer => some ⟨top, outer⟩

/-- The innermost sort of a name. -/
def sort? (s : Stack) (name : String) : Option SortDecl := s.scopes.findSome? (·.sort? name)

/-- The innermost variable of a name. -/
def var? (s : Stack) (name : String) : Option VarDecl := s.scopes.findSome? (·.var? name)

/-- Every overload of a name in every scope, outermost first. -/
def allOverloads (s : Stack) (name : String) : List FunDecl :=
  s.scopes.reverse.flatMap (·.overloads name)

/-- Append a function to a list, unless its signature is there. -/
def addOverload (fs : List FunDecl) (f : FunDecl) : List FunDecl :=
  if fs.any f.sameSignature then fs else fs ++ [f]

/-- The overloads of a name, outermost first, each signature once. -/
def overloads (s : Stack) (name : String) : List FunDecl :=
  (s.allOverloads name).foldl addOverload []

/-- The declaration that a new one would conflict with. -/
def conflict? (s : Stack) : Declaration → Option Declaration
  | .sort d => (s.sort? d.name).map .sort
  | .function d => ((s.allOverloads d.name).find? d.sameSignature).map .function
  | .var d => (s.top.var? d.name).map .var

/-- Enter a declaration into the innermost scope; the one it conflicts with is the error. -/
def insert (s : Stack) (d : Declaration) : Except Declaration Stack :=
  match s.conflict? d with
  | some previous => .error previous
  | none => .ok { s with top := s.top.put d }

/-! ### Entering and leaving scopes -/

theorem length_scopes (s : Stack) : s.scopes.length = s.depth := rfl

theorem eq_of_scopes_eq {s t : Stack} (h : s.scopes = t.scopes) : s = t := by
  cases s; cases t; simp_all [scopes]

@[simp] theorem scopes_push (s : Stack) : s.push.scopes = .empty :: s.scopes := rfl

@[simp] theorem scopes_pushMany (s : Stack) (n : Nat) :
    (s.pushMany n).scopes = List.replicate n .empty ++ s.scopes := by
  cases n <;> rfl

theorem pop?_eq_none_iff {s : Stack} {n : Nat} : s.pop? n = none ↔ s.depth ≤ n := by
  unfold pop?
  split
  · next h => simpa [← length_scopes] using h
  · next h =>
    have : s.scopes.drop n ≠ [] := by simp [h]
    simpa [← length_scopes] using this

theorem pop?_eq_some_iff {s t : Stack} {n : Nat} :
    s.pop? n = some t ↔ t.scopes = s.scopes.drop n := by
  unfold pop?
  split
  · next h => rw [h]; exact ⟨nofun, nofun⟩
  · next top outer h =>
    rw [h, Option.some.injEq]
    exact ⟨fun e => by rw [← e]; rfl, fun e => (eq_of_scopes_eq e).symm⟩

@[simp] theorem pop?_pushMany (s : Stack) (n : Nat) : (s.pushMany n).pop? n = some s := by
  rw [pop?_eq_some_iff, scopes_pushMany, List.drop_append_of_le_length (by simp)]
  simp

end Stack

end WellSorted
