import WellSorted.Sorts.Unification
import WellSorted.Symbols.Declaration

/-!
# Applying functions

A binary function that associates takes two or more arguments: the further ones have the sort of
its second argument, or of its first one if it associates to the right. A chainable or pairwise
predicate takes any number of arguments of its argument sort. A parametric function is applied
under the substitution that its arguments, and the expected result if one is given, determine.
-/

namespace WellSorted

/-- A substitution that binds all of the parameters. -/
def Subst.total? (σ : Subst) (params : List String) : Option Subst :=
  if (σ.missing params).isEmpty then some σ else none

namespace FunDecl

/-- The argument sorts for an application to `n` arguments. -/
def formals (f : FunDecl) (n : Nat) : List SmtSort :=
  match f.args with
  | [a, b] =>
    if n < 2 then f.args
    else
      match f.assoc, f.chain with
      | some .left, _ => a :: List.replicate (n - 1) b
      | some .right, _ => List.replicate (n - 1) a ++ [b]
      | none, some _ => List.replicate n a
      | none, none => f.args
  | _ => f.args

/-- The substitution under which a function has arguments of the given sorts and, if one is
expected, the given result. -/
def instantiate? (f : FunDecl) (args : List SmtSort) (expected : Option SmtSort) : Option Subst := do
  let σ ← SmtSort.unifyAll f.params [] (f.formals args.length) args
  let σ ← match expected with
    | some result => SmtSort.unify f.params σ f.result result
    | none => some σ
  σ.total? f.params

/-- The result sort of a function on arguments of the given sorts. -/
def result? (f : FunDecl) (args : List SmtSort) (expected : Option SmtSort) : Option SmtSort :=
  (f.instantiate? args expected).map f.result.replace

/-- The argument sorts of a function with `n` arguments that gives a sort: the sorts of the fields
if it is a constructor. -/
def fields? (f : FunDecl) (n : Nat) (sort : SmtSort) : Option (List SmtSort) :=
  if f.args.length = n then
    (do (← SmtSort.unify f.params [] f.result sort).total? f.params).map fun σ =>
      f.args.map (SmtSort.replace σ)
  else none

end FunDecl

end WellSorted
