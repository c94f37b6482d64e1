import WellSorted.Proofs.Matching
import WellSorted.Sorting.Infer

/-!
# The sorting rules

`HasSort binding G Γ t s`: in the stack `G`, with the local variables `Γ`, the term `t` has the sort
`s`. The declarations of a name are the overloads that the stack lists. A function applies if some
substitution of all its parameters takes its signature to the sorts at hand; `binding` says from
which sorts its parameters have to be bound.
-/

namespace WellSorted

/-- The only member of a list with a property. -/
def Only {α : Type} (P : α → Prop) (l : List α) (a : α) : Prop :=
  a ∈ l ∧ P a ∧ ∀ b ∈ l, P b → b = a

/-- Local variables under their written names, innermost first. -/
abbrev Locals := List (String × SmtSort)

namespace Stack

/-- Whether every symbol of a sort is declared, and is applied to as many sorts as it takes. -/
inductive Known (G : Stack) : SmtSort → Prop
  | mk {head : Identifier} {args : List SmtSort} {d : SortDecl} :
      G.sort? head.key = some d → d.arity = args.length → (∀ s ∈ args, G.Known s) →
      G.Known (.mk head args)

/-- The sort of the innermost variable of a name. -/
def varSort? (G : Stack) (Γ : Locals) (name : String) : Option SmtSort :=
  (Γ.lookup name).or ((G.var? name).map (·.sort))

end Stack

section

variable (binding : FunDecl → List SmtSort → Prop) (G : Stack)

/-- A function that takes arguments of the given sorts. -/
def Takes (args : List SmtSort) (f : FunDecl) : Prop :=
  (∃ s, f.Applies args s) ∧ binding f (f.formals args.length)

/-- A function that gives the expected sort on arguments of the given sorts. -/
def Gives (args : List SmtSort) (expected : SmtSort) (f : FunDecl) : Prop :=
  f.Applies args expected ∧ binding f (f.formals args.length ++ [f.result])

/-- A function with `n` arguments that constructs the sort. -/
def Builds (n : Nat) (sort : SmtSort) (f : FunDecl) : Prop :=
  f.args.length = n ∧ (∃ fields, f.Constructs sort fields) ∧ binding f [f.result]

/-- The variables that a pattern binds for a scrutinee of the given sort. A symbol in the last case
that no constructor has for its name is a variable. -/
inductive Binds (sort : SmtSort) (p : Pattern) (isLast : Bool) : Locals → Prop
  | constructor {f : FunDecl} {fields : List SmtSort} :
      Only (Builds binding p.arguments.length sort) (G.overloads (quoteSymbol p.head)) f →
      f.Constructs sort fields → Binds sort p isLast ((p.arguments.map quoteSymbol).zip fields)
  | rest {x : String} : p = .symbol x → isLast = true →
      (∀ f ∈ G.overloads (quoteSymbol x), ¬ Builds binding 0 sort f) →
      Binds sort p isLast [(quoteSymbol x, sort)]

mutual

inductive HasSort : Locals → Term → SmtSort → Prop
  | literal {Γ : Locals} {c : Constant} {f : FunDecl} :
      Only (·.isConstant = true) (G.overloads c.kind) f → HasSort Γ (.constant c) f.result
  | var {Γ : Locals} {i : Identifier} {s : SmtSort} :
      i.isIndexed = false → G.varSort? Γ i.key = some s → HasSort Γ (.ident ⟨i, none⟩) s
  | constant {Γ : Locals} {i : Identifier} {f : FunDecl} :
      (i.isIndexed = false → G.varSort? Γ i.key = none) →
      Only (·.isConstant = true) (G.overloads i.key) f → HasSort Γ (.ident ⟨i, none⟩) f.result
  | ascribed {Γ : Locals} {i : Identifier} {sort : SmtSort} {f : FunDecl} :
      G.Known sort → f ∈ G.overloads i.key → Gives binding [] (G.resolve [] sort) f →
      HasSort Γ (.ident ⟨i, some sort⟩) (G.resolve [] sort)
  | app {Γ : Locals} {i : Identifier} {args : List Term} {sorts : List SmtSort} {f : FunDecl}
      {s : SmtSort} :
      HaveSorts Γ args sorts → Only (Takes binding sorts) (G.overloads i.key) f →
      f.Applies sorts s → HasSort Γ (.app ⟨i, none⟩ args) s
  | ascribedApp {Γ : Locals} {i : Identifier} {sort : SmtSort} {args : List Term}
      {sorts : List SmtSort} {f : FunDecl} :
      HaveSorts Γ args sorts → G.Known sort → f ∈ G.overloads i.key →
      Gives binding sorts (G.resolve [] sort) f →
      HasSort Γ (.app ⟨i, some sort⟩ args) (G.resolve [] sort)
  | letIn {Γ : Locals} {bindings : List (String × Term)} {sorts : List SmtSort} {body : Term}
      {s : SmtSort} :
      HaveSorts Γ (bindings.map Prod.snd) sorts →
      HasSort ((bindings.map fun b => quoteSymbol b.1).zip sorts ++ Γ) body s →
      HasSort Γ (.letIn bindings body) s
  | quantified {Γ : Locals} {q : Quantifier} {vars : List SortedVar} {body : Term} :
      (∀ v ∈ vars, G.Known v.sort) →
      HasSort (vars.map (fun v => (quoteSymbol v.name, G.resolve [] v.sort)) ++ Γ) body .bool →
      HasSort Γ (.quantified q vars body) .bool
  | matching {Γ : Locals} {t : Term} {arms : List (Pattern × Term)} {sort s : SmtSort} :
      HasSort Γ t sort → arms ≠ [] → ArmsHaveSort Γ sort arms s → HasSort Γ (.matching t arms) s
  | annotated {Γ : Locals} {t : Term} {attributes : List Attribute} {s : SmtSort} :
      HasSort Γ t s → HasSort Γ (.annotated t attributes) s

inductive HaveSorts : Locals → List Term → List SmtSort → Prop
  | nil {Γ : Locals} : HaveSorts Γ [] []
  | cons {Γ : Locals} {t : Term} {ts : List Term} {s : SmtSort} {ss : List SmtSort} :
      HasSort Γ t s → HaveSorts Γ ts ss → HaveSorts Γ (t :: ts) (s :: ss)

/-- All cases of a match have the sort, for a scrutinee of the first sort. -/
inductive ArmsHaveSort : Locals → SmtSort → List (Pattern × Term) → SmtSort → Prop
  | nil {Γ : Locals} {sort s : SmtSort} : ArmsHaveSort Γ sort [] s
  | cons {Γ Δ : Locals} {sort s : SmtSort} {p : Pattern} {t : Term} {arms : List (Pattern × Term)} :
      (∀ q, p.sort? = some q → G.resolve [] q = sort) → Binds binding G sort p arms.isEmpty Δ →
      HasSort (Δ ++ Γ) t s → ArmsHaveSort Γ sort arms s → ArmsHaveSort Γ sort ((p, t) :: arms) s

end

end

/-! ### Inverting the rules

Only an identifier that is not ascribed has two rules, one for a variable and one for a constant. -/

section

variable {binding : FunDecl → List SmtSort → Prop} {G : Stack} {Γ : Locals}

theorem hasSort_literal {c : Constant} {s : SmtSort} :
    HasSort binding G Γ (.constant c) s ↔
      ∃ f, Only (·.isConstant = true) (G.overloads c.kind) f ∧ f.result = s := by
  constructor
  · intro h
    cases h with
    | @literal _ _ f honly => exact ⟨f, honly, rfl⟩
  · rintro ⟨f, honly, rfl⟩
    exact .literal honly

theorem hasSort_ident {i : Identifier} {s : SmtSort} :
    HasSort binding G Γ (.ident ⟨i, none⟩) s ↔
      (i.isIndexed = false ∧ G.varSort? Γ i.key = some s) ∨
      (i.isIndexed = false → G.varSort? Γ i.key = none) ∧
        ∃ f, Only (·.isConstant = true) (G.overloads i.key) f ∧ f.result = s := by
  constructor
  · intro h
    cases h with
    | var hi hvar => exact .inl ⟨hi, hvar⟩
    | @constant _ _ f hvar honly => exact .inr ⟨hvar, f, honly, rfl⟩
  · rintro (⟨hi, hvar⟩ | ⟨hvar, f, honly, rfl⟩)
    · exact .var hi hvar
    · exact .constant hvar honly

theorem hasSort_ascribed {i : Identifier} {sort s : SmtSort} :
    HasSort binding G Γ (.ident ⟨i, some sort⟩) s ↔
      G.Known sort ∧ s = G.resolve [] sort ∧
        ∃ f ∈ G.overloads i.key, Gives binding [] (G.resolve [] sort) f := by
  constructor
  · intro h
    cases h with
    | @ascribed _ _ _ f hknown hf hgives => exact ⟨hknown, rfl, f, hf, hgives⟩
  · rintro ⟨hknown, rfl, f, hf, hgives⟩
    exact .ascribed hknown hf hgives

theorem hasSort_app {i : Identifier} {args : List Term} {s : SmtSort} :
    HasSort binding G Γ (.app ⟨i, none⟩ args) s ↔
      ∃ sorts, HaveSorts binding G Γ args sorts ∧
        ∃ f, Only (Takes binding sorts) (G.overloads i.key) f ∧ f.Applies sorts s := by
  constructor
  · intro h
    cases h with
    | @app _ _ _ sorts f _ hargs honly happlies => exact ⟨sorts, hargs, f, honly, happlies⟩
  · rintro ⟨sorts, hargs, f, honly, happlies⟩
    exact .app hargs honly happlies

theorem hasSort_ascribedApp {i : Identifier} {sort s : SmtSort} {args : List Term} :
    HasSort binding G Γ (.app ⟨i, some sort⟩ args) s ↔
      ∃ sorts, HaveSorts binding G Γ args sorts ∧ G.Known sort ∧ s = G.resolve [] sort ∧
        ∃ f ∈ G.overloads i.key, Gives binding sorts (G.resolve [] sort) f := by
  constructor
  · intro h
    cases h with
    | @ascribedApp _ _ _ _ sorts f hargs hknown hf hgives =>
      exact ⟨sorts, hargs, hknown, rfl, f, hf, hgives⟩
  · rintro ⟨sorts, hargs, hknown, rfl, f, hf, hgives⟩
    exact .ascribedApp hargs hknown hf hgives

theorem hasSort_letIn {bindings : List (String × Term)} {body : Term} {s : SmtSort} :
    HasSort binding G Γ (.letIn bindings body) s ↔
      ∃ sorts, HaveSorts binding G Γ (bindings.map Prod.snd) sorts ∧
        HasSort binding G ((bindings.map fun b => quoteSymbol b.1).zip sorts ++ Γ) body s := by
  constructor
  · intro h
    cases h with
    | @letIn _ _ sorts _ _ hsorts hbody => exact ⟨sorts, hsorts, hbody⟩
  · rintro ⟨sorts, hsorts, hbody⟩
    exact .letIn hsorts hbody

theorem hasSort_quantified {q : Quantifier} {vars : List SortedVar} {body : Term} {s : SmtSort} :
    HasSort binding G Γ (.quantified q vars body) s ↔
      (∀ v ∈ vars, G.Known v.sort) ∧
        HasSort binding G (vars.map (fun v => (quoteSymbol v.name, G.resolve [] v.sort)) ++ Γ)
          body .bool ∧ s = .bool := by
  constructor
  · intro h
    cases h with
    | quantified hknown hbody => exact ⟨hknown, hbody, rfl⟩
  · rintro ⟨hknown, hbody, rfl⟩
    exact .quantified hknown hbody

theorem hasSort_matching {t : Term} {arms : List (Pattern × Term)} {s : SmtSort} :
    HasSort binding G Γ (.matching t arms) s ↔
      ∃ sort, HasSort binding G Γ t sort ∧ arms ≠ [] ∧ ArmsHaveSort binding G Γ sort arms s := by
  constructor
  · intro h
    cases h with
    | @matching _ _ _ sort _ ht hne harms => exact ⟨sort, ht, hne, harms⟩
  · rintro ⟨sort, ht, hne, harms⟩
    exact .matching ht hne harms

theorem hasSort_annotated {t : Term} {attributes : List Attribute} {s : SmtSort} :
    HasSort binding G Γ (.annotated t attributes) s ↔ HasSort binding G Γ t s := by
  constructor
  · intro h
    cases h with
    | annotated h => exact h
  · exact .annotated

theorem haveSorts_nil {ss : List SmtSort} : HaveSorts binding G Γ [] ss ↔ ss = [] := by
  constructor
  · intro h
    cases h
    rfl
  · rintro rfl
    exact .nil

theorem haveSorts_cons {t : Term} {ts : List Term} {ss : List SmtSort} :
    HaveSorts binding G Γ (t :: ts) ss ↔
      ∃ s rest, ss = s :: rest ∧ HasSort binding G Γ t s ∧ HaveSorts binding G Γ ts rest := by
  constructor
  · intro h
    cases h with
    | cons hs hrest => exact ⟨_, _, rfl, hs, hrest⟩
  · rintro ⟨s, rest, rfl, hs, hrest⟩
    exact .cons hs hrest

theorem armsHaveSort_cons {sort s : SmtSort} {p : Pattern} {t : Term}
    {arms : List (Pattern × Term)} :
    ArmsHaveSort binding G Γ sort ((p, t) :: arms) s ↔
      ((∀ q, p.sort? = some q → G.resolve [] q = sort) ∧
        ∃ Δ, Binds binding G sort p arms.isEmpty Δ ∧ HasSort binding G (Δ ++ Γ) t s) ∧
      ArmsHaveSort binding G Γ sort arms s := by
  constructor
  · intro h
    cases h with
    | @cons _ Δ _ _ _ _ _ hquals hbinds ht harms => exact ⟨⟨hquals, Δ, hbinds, ht⟩, harms⟩
  · rintro ⟨⟨hquals, Δ, hbinds, ht⟩, harms⟩
    exact .cons hquals hbinds ht harms

end

end WellSorted
