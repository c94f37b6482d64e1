import WellSorted.Findings.Logged
import WellSorted.Sorts.Unification
import WellSorted.Symbols.Stack

/-!
# Resolving sorts

Resolving a sort replaces every alias by its definition. Parameters of the enclosing declaration
and unknown names stay, and so does an alias with the wrong number of arguments. Checking a sort
asks that every symbol is known and has as many arguments as it takes.
-/

namespace WellSorted

/-- The sort that an alias stands for, with arguments for all of its parameters. -/
def SortDecl.definedAs? (d : SortDecl) (args : List SmtSort) : Option SmtSort :=
  match d.definition with
  | some sort =>
    if d.params.length = args.length then some (sort.replace (.ofArguments d.params args)) else none
  | none => none

namespace Stack

/-- Apply a sort symbol to arguments, or unfold the alias that it is. -/
def applySort (G : Stack) (head : Identifier) (args : List SmtSort) : SmtSort :=
  ((G.sort? head.key).bind (·.definedAs? args)).getD (.mk head args)

mutual

/-- Replace the aliases in a sort, except for parameters. -/
def resolve (G : Stack) (params : List String) : SmtSort → SmtSort
  | .mk head args =>
    if (SmtSort.asParam params (.mk head args)).isSome then .mk head args
    else G.applySort head (G.resolveAll params args)

def resolveAll (G : Stack) (params : List String) : List SmtSort → List SmtSort
  | [] => []
  | s :: rest => G.resolve params s :: G.resolveAll params rest

end

theorem resolveAll_eq_map (G : Stack) (params : List String) (ss : List SmtSort) :
    G.resolveAll params ss = ss.map (G.resolve params) := by
  induction ss with
  | nil => rfl
  | cons s rest ih => simp [resolveAll, ih]

/-- Replace all aliases in a sort. -/
def expand (G : Stack) (s : SmtSort) : SmtSort := G.resolve [] s

/-- What is wrong with a sort symbol on a number of arguments. -/
def checkHead (G : Stack) (n : Node) (name : String) (count : Nat) : List Finding :=
  match G.sort? name with
  | none => [n.finding (.sortUnknown name)]
  | some d =>
    if d.arity = count then []
    else [n.conflict (.sortArity name d.arity count) (.sort d)]

mutual

/-- What is wrong with a sort, reported at a node. -/
def checkSort (G : Stack) (params : List String) (n : Node) : SmtSort → List Finding
  | .mk head args =>
    if args.isEmpty && params.contains head.key then []
    else G.checkHead n head.key args.length ++ G.checkSorts params n args

/-- What is wrong with some sorts, one after another. -/
def checkSorts (G : Stack) (params : List String) (n : Node) : List SmtSort → List Finding
  | [] => []
  | s :: rest => G.checkSort params n s ++ G.checkSorts params n rest

end

end Stack

end WellSorted
