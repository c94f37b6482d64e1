import WellSorted.Symbols.Declaration

/-!
# Equal signatures

Two functions have the same signature if one is the other with its own sort parameters renamed one
to one. The renaming is found while the two signatures are walked side by side; parameters that do
not occur are never compared.
-/

namespace WellSorted

/-- Pairs of parameters that stand for each other. -/
abbrev Renaming := List (String × String)

/-- Let `p` stand for `q`, unless one of them stands for something else. -/
def Renaming.pair? (ρ : Renaming) (p q : String) : Option Renaming :=
  match ρ.find? (·.1 == p), ρ.find? (·.2 == q) with
  | none, none => some ((p, q) :: ρ)
  | some (_, q'), some (p', _) => if q' = q ∧ p' = p then some ρ else none
  | _, _ => none

namespace SmtSort

mutual

/-- Extend `ρ` to a renaming of the parameters `ps` to `qs` that carries the first sort to the
second. -/
def rename? (ps qs : List String) (ρ : Renaming) : SmtSort → SmtSort → Option Renaming
  | mk head args, t =>
    match asParam ps (mk head args), asParam qs t with
    | some p, some q => ρ.pair? p q
    | none, none => if head = t.head then renameAll? ps qs ρ args t.args else none
    | _, _ => none

def renameAll? (ps qs : List String) (ρ : Renaming) :
    List SmtSort → List SmtSort → Option Renaming
  | [], [] => some ρ
  | s :: ss, t :: ts =>
    match rename? ps qs ρ s t with
    | some ρ => renameAll? ps qs ρ ss ts
    | none => none
  | _, _ => none

end

end SmtSort

/-- Whether two functions have the same signature up to the names of their parameters. -/
def FunDecl.sameSignature (f g : FunDecl) : Bool :=
  if f.args.length ≠ g.args.length ∨ f.params.length ≠ g.params.length then false
  else if f.params.isEmpty then f.args == g.args && f.result == g.result
  else (SmtSort.renameAll? f.params g.params [] f.signature g.signature).isSome

end WellSorted
