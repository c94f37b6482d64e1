import WellSorted.Tree.Attribute
import WellSorted.Tree.Sort

/-!
# Terms

Terms as they are written. Bindings of a `let` are parallel. A pattern that is a bare symbol is
either a constructor without fields or a variable, which only the sort of the scrutinee tells.
-/

namespace WellSorted

/-- An identifier with the sort that `as` gives it. -/
structure QualIdentifier where
  name : Identifier
  ascription : Option SmtSort
deriving DecidableEq

namespace QualIdentifier

def simple (s : String) : QualIdentifier := ⟨.simple s, none⟩

def spelling (q : QualIdentifier) : Spelling :=
  match q.ascription with
  | none => q.name.spelling
  | some s => .group [.word "as", q.name.spelling, s.spelling]

end QualIdentifier

structure SortedVar where
  name : String
  sort : SmtSort
deriving DecidableEq

def SortedVar.spelling (v : SortedVar) : Spelling := .group [.symbol v.name, v.sort.spelling]

inductive Pattern where
  | symbol (s : String)
  | qualified (ctor : String) (sort : SmtSort)
  | applied (ctor : String) (sort : Option SmtSort) (arguments : List String)
deriving DecidableEq

namespace Pattern

/-- The constructor or variable that a pattern starts with. -/
def head : Pattern → String
  | symbol s => s
  | qualified ctor _ => ctor
  | applied ctor _ _ => ctor

def sort? : Pattern → Option SmtSort
  | symbol _ => none
  | qualified _ sort => some sort
  | applied _ sort _ => sort

/-- The binders that a constructor is applied to. -/
def arguments : Pattern → List String
  | applied _ _ arguments => arguments
  | _ => []

def isSymbol : Pattern → Bool
  | symbol _ => true
  | _ => false

def spelling : Pattern → Spelling
  | symbol s => .symbol s
  | qualified ctor sort => .group [.word "as", .symbol ctor, sort.spelling]
  | applied ctor none arguments => .group (.symbol ctor :: arguments.map Spelling.symbol)
  | applied ctor (some sort) arguments =>
    .group (.group [.word "as", .symbol ctor, sort.spelling] :: arguments.map Spelling.symbol)

def render (p : Pattern) : String := p.spelling.text

end Pattern

inductive Quantifier where
  | all
  | some
deriving DecidableEq, Repr

def Quantifier.word : Quantifier → String
  | all => "forall"
  | some => "exists"

inductive Term where
  | constant (c : Constant)
  | ident (name : QualIdentifier)
  | app (function : QualIdentifier) (args : List Term)
  | letIn (bindings : List (String × Term)) (body : Term)
  | quantified (q : Quantifier) (vars : List SortedVar) (body : Term)
  | matching (scrutinee : Term) (arms : List (Pattern × Term))
  | annotated (term : Term) (attributes : List Attribute)

namespace Term

mutual

def spelling : Term → Spelling
  | constant c => c.spelling
  | ident name => name.spelling
  | app function args => .group (function.spelling :: spellings args)
  | letIn bindings body =>
    .group [.word "let", .group (bindingSpellings bindings), body.spelling]
  | quantified q vars body =>
    .group [.word q.word, .group (vars.map SortedVar.spelling), body.spelling]
  | matching scrutinee arms =>
    .group [.word "match", scrutinee.spelling, .group (armSpellings arms)]
  | annotated term attributes =>
    .group (.word "!" :: term.spelling :: Attribute.allSpellings attributes)

def spellings : List Term → List Spelling
  | [] => []
  | t :: rest => t.spelling :: spellings rest

def bindingSpellings : List (String × Term) → List Spelling
  | [] => []
  | (x, t) :: rest => .group [.symbol x, t.spelling] :: bindingSpellings rest

def armSpellings : List (Pattern × Term) → List Spelling
  | [] => []
  | (p, t) :: rest => .group [p.spelling, t.spelling] :: armSpellings rest

end

def render (t : Term) : String := t.spelling.text

/-! ### Equality -/

mutual

def beq : Term → Term → Bool
  | constant c, constant c' => c == c'
  | ident name, ident name' => name == name'
  | app function args, app function' args' => function == function' && beqAll args args'
  | letIn bindings body, letIn bindings' body' => beqBindings bindings bindings' && body.beq body'
  | quantified q vars body, quantified q' vars' body' => q == q' && vars == vars' && body.beq body'
  | matching scrutinee arms, matching scrutinee' arms' =>
    scrutinee.beq scrutinee' && beqArms arms arms'
  | annotated term attributes, annotated term' attributes' =>
    term.beq term' && attributes == attributes'
  | _, _ => false

def beqAll : List Term → List Term → Bool
  | [], [] => true
  | t :: rest, t' :: rest' => t.beq t' && beqAll rest rest'
  | _, _ => false

def beqBindings : List (String × Term) → List (String × Term) → Bool
  | [], [] => true
  | (x, t) :: rest, (x', t') :: rest' => x == x' && t.beq t' && beqBindings rest rest'
  | _, _ => false

def beqArms : List (Pattern × Term) → List (Pattern × Term) → Bool
  | [], [] => true
  | (p, t) :: rest, (p', t') :: rest' => p == p' && t.beq t' && beqArms rest rest'
  | _, _ => false

end

mutual

theorem beq_iff : ∀ t u : Term, t.beq u = true ↔ t = u
  | constant c, u => by cases u <;> simp [beq]
  | ident name, u => by cases u <;> simp [beq]
  | app function args, u => by
    cases u with
    | app function' args' => simp [beq, beqAll_iff args args']
    | _ => simp [beq]
  | letIn bindings body, u => by
    cases u with
    | letIn bindings' body' => simp [beq, beqBindings_iff bindings bindings', beq_iff body body']
    | _ => simp [beq]
  | quantified q vars body, u => by
    cases u with
    | quantified q' vars' body' => simp [beq, beq_iff body body', and_assoc]
    | _ => simp [beq]
  | matching scrutinee arms, u => by
    cases u with
    | matching scrutinee' arms' => simp [beq, beq_iff scrutinee scrutinee', beqArms_iff arms arms']
    | _ => simp [beq]
  | annotated term attributes, u => by
    cases u with
    | annotated term' attributes' => simp [beq, beq_iff term term']
    | _ => simp [beq]

theorem beqAll_iff : ∀ ts us : List Term, beqAll ts us = true ↔ ts = us
  | [], [] => by simp [beqAll]
  | t :: ts, u :: us => by simp [beqAll, beq_iff t u, beqAll_iff ts us]
  | [], _ :: _ => by simp [beqAll]
  | _ :: _, [] => by simp [beqAll]

theorem beqBindings_iff : ∀ bs cs : List (String × Term), beqBindings bs cs = true ↔ bs = cs
  | [], [] => by simp [beqBindings]
  | (x, t) :: bs, (y, u) :: cs => by
    simp [beqBindings, beq_iff t u, beqBindings_iff bs cs]
  | [], _ :: _ => by simp [beqBindings]
  | _ :: _, [] => by simp [beqBindings]

theorem beqArms_iff : ∀ bs cs : List (Pattern × Term), beqArms bs cs = true ↔ bs = cs
  | [], [] => by simp [beqArms]
  | (p, t) :: bs, (q, u) :: cs => by simp [beqArms, beq_iff t u, beqArms_iff bs cs]
  | [], _ :: _ => by simp [beqArms]
  | _ :: _, [] => by simp [beqArms]

end

instance : DecidableEq Term := fun t u => decidable_of_iff _ (beq_iff t u)

end Term

end WellSorted
