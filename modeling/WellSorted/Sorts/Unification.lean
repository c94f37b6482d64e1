import WellSorted.Sorts.Substitution

/-!
# Matching a sort against a pattern

Only the parameters of the pattern are bound. A parameter that is bound already has to meet the
same sort again; every other part of the pattern has to agree with the sort as it stands.
-/

namespace WellSorted.SmtSort

mutual

/-- Extend `σ` so that it turns the pattern into the concrete sort. -/
def unify (params : List String) (σ : Subst) : SmtSort → SmtSort → Option Subst
  | mk head args, concrete =>
    match asParam params (mk head args) with
    | some p =>
      match σ.get? p with
      | some bound => if bound = concrete then some σ else none
      | none => some ((p, concrete) :: σ)
    | none => if head = concrete.head then unifyAll params σ args concrete.args else none

def unifyAll (params : List String) (σ : Subst) : List SmtSort → List SmtSort → Option Subst
  | [], [] => some σ
  | pattern :: patterns, concrete :: concretes =>
    match unify params σ pattern concrete with
    | some σ => unifyAll params σ patterns concretes
    | none => none
  | _, _ => none

end

end WellSorted.SmtSort
