import WellSorted.Tree.Sort

/-!
# Substitution of sort parameters

A substitution maps parameter names to sorts; of two entries for a name the first one counts.
Replacing looks at atoms only, so a name applied to arguments or indices stays as it is.
-/

namespace WellSorted

abbrev Subst := List (String × SmtSort)

namespace Subst

def get? (σ : Subst) (param : String) : Option SmtSort := σ.lookup param

/-- Bind each parameter to its argument; of two bindings of a name the last one counts. -/
def ofArguments (params : List String) (args : List SmtSort) : Subst :=
  (params.zip args).reverse

/-- The parameters that are not bound. -/
def missing (σ : Subst) (params : List String) : List String :=
  params.filter fun p => (σ.get? p).isNone

end Subst

namespace SmtSort

mutual

def replace (σ : Subst) : SmtSort → SmtSort
  | mk head args =>
    if !head.isIndexed && args.isEmpty then (σ.get? head.symbol).getD (mk head args)
    else mk head (replaceAll σ args)

def replaceAll (σ : Subst) : List SmtSort → List SmtSort
  | [] => []
  | s :: rest => s.replace σ :: replaceAll σ rest

end

theorem replaceAll_eq_map (σ : Subst) (ss : List SmtSort) :
    replaceAll σ ss = ss.map (replace σ) := by
  induction ss with
  | nil => rfl
  | cons s rest ih => simp [replaceAll, ih]

end SmtSort

end WellSorted
