import WellSorted.Proofs.Likeness.Stacks

/-!
# What a term asks a stack

Sorting a term looks up the keys that are written in it and nothing else: sorts that come out of a
declaration are never looked up again. `Term.lookups` lists these questions. Stacks that answer them
alike (`Stack.AgreeOn`) give the term the same sort with the same findings (`infer_of_agreeOn`), so
that declarations of other names do not matter, in whatever scope they are
(`infer_eq_of_keys`).
-/

namespace WellSorted

/-! ### Keys -/

namespace SmtSort

mutual

/-- The keys of the symbols in a sort. -/
def keys : SmtSort → List String
  | mk head args => head.key :: allKeys args

def allKeys : List SmtSort → List String
  | [] => []
  | s :: rest => s.keys ++ allKeys rest

end

end SmtSort

/-- A question that sorting a term asks a stack. -/
inductive Lookup where
  | sort (key : String)
  | overloads (key : String)
  | var (key : String)
deriving DecidableEq

def Lookup.key : Lookup → String
  | sort key => key
  | overloads key => key
  | var key => key

/-- What is asked about the sort of an ascription. -/
def SmtSort.lookups? : Option SmtSort → List Lookup
  | none => []
  | some sort => sort.keys.map .sort

namespace QualIdentifier

/-- What is asked about a function symbol. -/
def lookups (q : QualIdentifier) : List Lookup :=
  .overloads q.name.key :: SmtSort.lookups? q.ascription

/-- What is asked about a variable: only a plain symbol can be one. -/
def varLookups (q : QualIdentifier) : List Lookup :=
  if q.ascription.isSome || q.name.isIndexed then [] else [.var q.name.key]

end QualIdentifier

def Pattern.lookups (p : Pattern) : List Lookup :=
  .overloads (quoteSymbol p.head) :: SmtSort.lookups? p.sort?

namespace Term

mutual

/-- The questions that sorting a term asks. -/
def lookups : Term → List Lookup
  | constant c => [.overloads c.kind]
  | ident q => q.varLookups ++ q.lookups
  | app q args => q.lookups ++ allLookups args
  | letIn bindings body => bindingLookups bindings ++ body.lookups
  | quantified _ vars body => (SmtSort.allKeys (vars.map (·.sort))).map .sort ++ body.lookups
  | matching scrutinee arms => scrutinee.lookups ++ armLookups arms
  | annotated t _ => t.lookups

def allLookups : List Term → List Lookup
  | [] => []
  | t :: rest => t.lookups ++ allLookups rest

def bindingLookups : List (String × Term) → List Lookup
  | [] => []
  | (_, t) :: rest => t.lookups ++ bindingLookups rest

def armLookups : List (Pattern × Term) → List Lookup
  | [] => []
  | (p, t) :: rest => p.lookups ++ t.lookups ++ armLookups rest

end

/-- The keys that are looked up for a term: those of its identifiers, sort symbols and constructors,
and the kinds of its literals. -/
def keys (t : Term) : List String := t.lookups.map Lookup.key

end Term

/-! ### Agreement -/

/-- Whether two stacks give the same answer; of a variable only the sort counts. -/
def Lookup.Agrees (G H : Stack) : Lookup → Prop
  | sort key => G.sort? key = H.sort? key
  | overloads key => G.overloads key = H.overloads key
  | var key => (G.var? key).map (·.sort) = (H.var? key).map (·.sort)

namespace Stack

/-- Whether two stacks give the same answers to some questions. -/
def AgreeOn (ls : List Lookup) (G H : Stack) : Prop := ∀ l ∈ ls, l.Agrees G H

variable {G H : Stack} {ls ms : List Lookup}

theorem agreeOn_cons {l : Lookup} : AgreeOn (l :: ls) G H ↔ l.Agrees G H ∧ AgreeOn ls G H :=
  List.forall_mem_cons

theorem agreeOn_append : AgreeOn (ls ++ ms) G H ↔ AgreeOn ls G H ∧ AgreeOn ms G H :=
  List.forall_mem_append

theorem agreeOn_sorts {keys : List String} :
    AgreeOn (keys.map .sort) G H ↔ ∀ key ∈ keys, G.sort? key = H.sort? key :=
  List.forall_mem_map

/-- The overloads of an innermost scope come last. -/
theorem overloads_cons (top : Scope) (G : Stack) (name : String) :
    overloads ⟨top, G.scopes⟩ name =
      (top.overloads name).foldl addOverload (G.overloads name) := by
  simp only [overloads, allOverloads, scopes, List.reverse_cons (a := top), List.flatMap_append,
    List.flatMap_singleton, List.foldl_append]

/-- One more scope on both sides. -/
theorem AgreeOn.cons_scope (h : AgreeOn ls G H) (top : Scope) :
    AgreeOn ls ⟨top, G.scopes⟩ ⟨top, H.scopes⟩ := by
  intro l hl
  have hl := h l hl
  cases l with
  | sort key =>
    have hkey : G.scopes.findSome? (·.sort? key) = H.scopes.findSome? (·.sort? key) := hl
    rw [Lookup.Agrees, sort?_eq, sort?_eq, hkey]
  | overloads key => rw [Lookup.Agrees, overloads_cons, overloads_cons, hl]
  | var key =>
    have hkey : (G.scopes.findSome? (·.var? key)).map (·.sort) =
      (H.scopes.findSome? (·.var? key)).map (·.sort) := hl
    rw [Lookup.Agrees, var?_eq, var?_eq, Option.map_or, Option.map_or, hkey]

/-- Entering a variable looks at the innermost scope only. -/
theorem exists_enter_var (v : VarDecl) (top : Scope) : ∃ top' dropped, ∀ outer,
    enter ⟨top, outer⟩ (.var v) = ⟨⟨top', outer⟩, [], dropped⟩ := by
  cases hv : top.var? v.name with
  | none =>
    refine ⟨top.put (.var v), [], fun outer => ?_⟩
    simp only [enter, insert, conflict?, hv, Option.map_none]
    rfl
  | some w =>
    refine ⟨top, [.var v], fun outer => ?_⟩
    simp only [enter, insert, conflict?, hv, Option.map_some]
    rfl

theorem exists_enterAll_vars (vars : List VarDecl) (top : Scope) : ∃ top' dropped, ∀ outer,
    enterAll ⟨top, outer⟩ (vars.map .var) = ⟨⟨top', outer⟩, [], dropped⟩ := by
  induction vars generalizing top with
  | nil => exact ⟨top, [], fun _ => rfl⟩
  | cons v vars ih =>
    obtain ⟨next, dropped, henter⟩ := exists_enter_var v top
    obtain ⟨last, dropped', hrest⟩ := ih next
    refine ⟨last, dropped ++ dropped', fun outer => ?_⟩
    rw [List.map_cons, enterAll, henter]
    exact congrArg
      (fun y : Logged Stack => (⟨y.value, y.findings, dropped ++ y.dropped⟩ : Logged _))
      (hrest outer)

/-- What is done with the same variables in a scope of their own. -/
theorem bindVars_congr {α : Type} {vars : List VarDecl} {k l : Stack → Logged α}
    (h : ∀ top, k ⟨top, G.scopes⟩ = l ⟨top, H.scopes⟩) :
    (G.bind vars >>= k) = (H.bind vars >>= l) := by
  obtain ⟨top, dropped, hbind⟩ := exists_enterAll_vars vars .empty
  have hG : G.bind vars = ⟨⟨top, G.scopes⟩, [], dropped⟩ := hbind G.scopes
  have hH : H.bind vars = ⟨⟨top, H.scopes⟩, [], dropped⟩ := hbind H.scopes
  rw [hG, hH]
  exact congrArg (fun y : Logged α => (⟨y.value, y.findings, dropped ++ y.dropped⟩ : Logged α))
    (h top)

/-! ### Sorts -/

mutual

theorem resolve_of_keys (ps : List String) : ∀ s : SmtSort,
    (∀ key ∈ s.keys, G.sort? key = H.sort? key) → G.resolve ps s = H.resolve ps s
  | .mk head args, h => by
    obtain ⟨hhead, hargs⟩ := List.forall_mem_cons.mp h
    rw [resolve, resolve, resolveAll_of_keys ps args hargs, applySort, applySort, hhead]

theorem resolveAll_of_keys (ps : List String) : ∀ ss : List SmtSort,
    (∀ key ∈ SmtSort.allKeys ss, G.sort? key = H.sort? key) →
      G.resolveAll ps ss = H.resolveAll ps ss
  | [], _ => rfl
  | s :: ss, h => by
    obtain ⟨hs, hss⟩ := List.forall_mem_append.mp h
    rw [resolveAll, resolveAll, resolve_of_keys ps s hs, resolveAll_of_keys ps ss hss]

end

mutual

theorem checkSort_of_keys (ps : List String) (n : Node) : ∀ s : SmtSort,
    (∀ key ∈ s.keys, G.sort? key = H.sort? key) → G.checkSort ps n s = H.checkSort ps n s
  | .mk head args, h => by
    obtain ⟨hhead, hargs⟩ := List.forall_mem_cons.mp h
    rw [checkSort, checkSort, checkSorts_of_keys ps n args hargs, checkHead, checkHead, hhead]

theorem checkSorts_of_keys (ps : List String) (n : Node) : ∀ ss : List SmtSort,
    (∀ key ∈ SmtSort.allKeys ss, G.sort? key = H.sort? key) →
      G.checkSorts ps n ss = H.checkSorts ps n ss
  | [], _ => rfl
  | s :: ss, h => by
    obtain ⟨hs, hss⟩ := List.forall_mem_append.mp h
    rw [checkSorts, checkSorts, checkSort_of_keys ps n s hs, checkSorts_of_keys ps n ss hss]

end

end Stack

/-! ### Terms -/

namespace Sorting

variable {G H : Stack} {n : Node}

open Stack

theorem constantSorts_congr {key : String} (h : G.overloads key = H.overloads key) :
    G.constantSorts key = H.constantSorts key := by
  rw [constantSorts, constantSorts, h]

theorem identifier_of_agreeOn {i : Identifier}
    (h : AgreeOn (QualIdentifier.varLookups ⟨i, none⟩ ++ QualIdentifier.lookups ⟨i, none⟩) G H) :
    identifier G n i = identifier H n i := by
  obtain ⟨hvar, hrest⟩ := agreeOn_append.mp h
  have hsorts : G.constantSorts i.key = H.constantSorts i.key :=
    constantSorts_congr (agreeOn_cons.mp hrest).1
  unfold identifier varOf?
  cases hi : i.isIndexed with
  | true => simp only [hsorts, if_true]
  | false =>
    have hkey : (G.var? i.key).map (·.sort) = (H.var? i.key).map (·.sort) := by
      refine hvar (.var i.key) ?_
      simp [QualIdentifier.varLookups, hi]
    simp only [Bool.false_eq_true, if_false, hsorts]
    cases hG : G.var? i.key with
    | none =>
      rw [hG, Option.map_none, eq_comm, Option.map_eq_none_iff] at hkey
      rw [hkey]
    | some v =>
      rw [hG, Option.map_some, eq_comm, Option.map_eq_some_iff] at hkey
      obtain ⟨w, hw, hsort⟩ := hkey
      rw [hw]
      simp only [hsort]

theorem ascribed_of_agreeOn {sort : SmtSort} (h : AgreeOn (SmtSort.lookups? (some sort)) G H) :
    ascribed G n sort = ascribed H n sort := by
  have hkeys := agreeOn_sorts.mp h
  rw [ascribed, ascribed, checkSort_of_keys [] n sort hkeys, resolve_of_keys [] sort hkeys]

theorem firstFit_congr {key : String} (h : G.overloads key = H.overloads key) :
    firstFit G key = firstFit H key := by
  funext args expected
  rw [firstFit, firstFit, h]

theorem qualIdentifier_of_agreeOn {q : QualIdentifier}
    (h : AgreeOn (q.varLookups ++ q.lookups) G H) :
    qualIdentifier G n q = qualIdentifier H n q := by
  obtain ⟨i, ascription⟩ := q
  cases ascription with
  | none => exact identifier_of_agreeOn h
  | some sort =>
    obtain ⟨hkey, hsort⟩ := agreeOn_cons.mp (agreeOn_append.mp h).2
    have hproblem : constantProblem G i.key = constantProblem H i.key := by
      funext expected
      rw [constantProblem, constantProblem, show G.overloads i.key = H.overloads i.key from hkey]
    simp only [qualIdentifier, ascribedConstant]
    rw [ascribed_of_agreeOn hsort, firstFit_congr hkey, hproblem]

theorem application_of_agreeOn {q : QualIdentifier} (h : AgreeOn q.lookups G H)
    (args : List SmtSort) : application G n q args = application H n q args := by
  obtain ⟨i, ascription⟩ := q
  obtain ⟨hkey, hsort⟩ := agreeOn_cons.mp h
  simp only [application]
  cases ascription with
  | none => rw [show G.overloads i.key = H.overloads i.key from hkey]
  | some sort =>
    simp only
    rw [ascribed_of_agreeOn hsort, firstFit_congr hkey]

theorem quantifierVars_of_keys {vars : List SortedVar} (s : Spot)
    (h : ∀ key ∈ SmtSort.allKeys (vars.map (·.sort)), G.sort? key = H.sort? key) :
    quantifierVars G s vars = quantifierVars H s vars := by
  have hsorts : vars.map (G.resolve [] ·.sort) = vars.map (H.resolve [] ·.sort) := by
    have hall := resolveAll_of_keys [] _ h
    rwa [resolveAll_eq_map, resolveAll_eq_map, List.map_map, List.map_map] at hall
  refine List.map_congr_left fun x hx => ?_
  have hmem : x.2 ∈ vars := by
    rw [← (s.item 1).map_snd_along 0 vars]
    exact List.mem_map_of_mem hx
  simp only [List.map_inj_left.mp hsorts x.2 hmem]

/-- A case goes on in the same variables on both sides. -/
theorem caseScope_of_agreeOn {α : Type} {p : Pattern} (h : AgreeOn p.lookups G H) (sort : SmtSort)
    (s : Spot) (isLast : Bool) {k l : Option Stack → Logged α} (hnone : k none = l none)
    (hsome : ∀ top, k (some ⟨top, G.scopes⟩) = l (some ⟨top, H.scopes⟩)) :
    (caseScope G n sort s p isLast >>= k) = (caseScope H n sort s p isLast >>= l) := by
  obtain ⟨hkey, hsort⟩ := agreeOn_cons.mp h
  have hquals : (p.sort?.any fun q => G.resolve [] q ≠ sort) =
      p.sort?.any fun q => H.resolve [] q ≠ sort := by
    cases hp : p.sort? with
    | none => rfl
    | some q =>
      rw [hp] at hsort
      rw [Option.any_some, Option.any_some, resolve_of_keys [] q (agreeOn_sorts.mp hsort)]
  simp only [caseScope, hquals, show G.overloads (quoteSymbol p.head) = _ from hkey]
  split
  · simp only [bind_assoc, pure_bind, hnone]
  · split
    · simp only [bind_assoc, pure_bind]
      exact bindVars_congr hsome
    · split
      · simp only [bind_assoc, pure_bind]
        exact bindVars_congr hsome
      · simp only [bind_assoc, pure_bind, hnone]
    · simp only [bind_assoc, pure_bind, hnone]

end Sorting

open Sorting Stack

mutual

/-- Stacks that agree on what a term asks for give it the same sort, with the same findings. -/
theorem infer_of_agreeOn : ∀ {G H : Stack} (s : Spot) (t : Term), AgreeOn t.lookups G H →
    infer G s t = infer H s t
  | _, _, _, .constant c, h => by
    rw [infer, infer, literal, literal, constantSorts_congr (h _ List.mem_cons_self)]
  | _, _, _, .ident q, h => by rw [infer, infer, qualIdentifier_of_agreeOn h]
  | G, H, s, .app q args, h => by
    obtain ⟨hq, hargs⟩ := agreeOn_append.mp h
    rw [infer, infer, inferAll_of_agreeOn s 1 args hargs]
    simp only [application_of_agreeOn hq]
  | G, H, s, .letIn bindings body, h => by
    obtain ⟨hbindings, hbody⟩ := agreeOn_append.mp h
    rw [infer, infer, inferBindings_of_agreeOn _ 0 bindings hbindings]
    refine bind_congr fun sorts => ?_
    cases sorts with
    | none => rfl
    | some sorts =>
      exact bindVars_congr fun top => infer_of_agreeOn _ body (hbody.cons_scope top)
  | G, H, s, .quantified q vars body, h => by
    obtain ⟨hvars, hbody⟩ := agreeOn_append.mp h
    have hkeys := agreeOn_sorts.mp hvars
    rw [infer, infer, checkSorts_of_keys [] _ _ hkeys, quantifierVars_of_keys s hkeys]
    refine bind_congr fun _ => bindVars_congr fun top => ?_
    rw [infer_of_agreeOn _ body (hbody.cons_scope top)]
  | G, H, s, .matching scrutinee arms, h => by
    obtain ⟨hscrutinee, harms⟩ := agreeOn_append.mp h
    rw [infer, infer, infer_of_agreeOn _ scrutinee hscrutinee]
    refine bind_congr fun sort => ?_
    cases sort with
    | none => rfl
    | some sort => simp only [inferArms_of_agreeOn _ sort _ 0 arms harms]
  | _, _, s, .annotated t _, h => by
    rw [infer, infer, infer_of_agreeOn _ t h]

theorem inferAll_of_agreeOn : ∀ {G H : Stack} (s : Spot) (i : Nat) (ts : List Term),
    AgreeOn (Term.allLookups ts) G H → inferAll G s i ts = inferAll H s i ts
  | _, _, _, _, [], _ => rfl
  | G, H, s, i, t :: ts, h => by
    obtain ⟨ht, hts⟩ := agreeOn_append.mp h
    rw [inferAll, inferAll, infer_of_agreeOn _ t ht, inferAll_of_agreeOn s (i + 1) ts hts]

theorem inferBindings_of_agreeOn : ∀ {G H : Stack} (s : Spot) (i : Nat)
    (bs : List (String × Term)), AgreeOn (Term.bindingLookups bs) G H →
      inferBindings G s i bs = inferBindings H s i bs
  | _, _, _, _, [], _ => rfl
  | G, H, s, i, (_, t) :: bs, h => by
    obtain ⟨ht, hbs⟩ := agreeOn_append.mp h
    rw [inferBindings, inferBindings, infer_of_agreeOn _ t ht,
      inferBindings_of_agreeOn s (i + 1) bs hbs]

theorem inferArms_of_agreeOn : ∀ {G H : Stack} (n : Node) (sort : SmtSort) (s : Spot) (i : Nat)
    (arms : List (Pattern × Term)), AgreeOn (Term.armLookups arms) G H →
      inferArms G n sort s i arms = inferArms H n sort s i arms
  | _, _, _, _, _, _, [], _ => rfl
  | G, H, n, sort, s, i, (p, t) :: arms, h => by
    obtain ⟨hcase, harms⟩ := agreeOn_append.mp h
    obtain ⟨hp, ht⟩ := agreeOn_append.mp hcase
    have harm : inferArm G n sort (s.item i) p t arms.isEmpty =
        inferArm H n sort (s.item i) p t arms.isEmpty :=
      caseScope_of_agreeOn hp sort _ _ rfl fun top => infer_of_agreeOn _ t (ht.cons_scope top)
    rw [inferArms_cons, inferArms_cons, harm, inferArms_of_agreeOn n sort s (i + 1) arms harms]

end

/-! ### Further declarations -/

/-- Whether a scope is another one with further declarations. -/
def Scope.Adds (P : Declaration → Prop) (scope scope' : Scope) : Prop :=
  ∃ ds : List Declaration, (∀ d ∈ ds, P d) ∧ scope' = ds.foldl Scope.put scope

/-- Whether two scopes answer alike about a key. -/
structure Scope.SameAt (key : String) (scope scope' : Scope) : Prop where
  sort? : scope.sort? key = scope'.sort? key
  var? : scope.var? key = scope'.var? key
  overloads : scope.overloads key = scope'.overloads key

namespace Scope

variable {key : String} {scope scope' scope'' : Scope}

theorem SameAt.trans (h : scope.SameAt key scope') (h' : scope'.SameAt key scope'') :
    scope.SameAt key scope'' :=
  ⟨h.sort?.trans h'.sort?, h.var?.trans h'.var?, h.overloads.trans h'.overloads⟩

theorem sameAt_put {d : Declaration} (h : d.name ≠ key) (scope : Scope) :
    scope.SameAt key (scope.put d) := by
  cases d with
  | sort d =>
    have hd : d.name ≠ key := h
    refine ⟨?_, rfl, rfl⟩
    simp [put, Scope.sort?, hd]
  | function f =>
    have hf : f.name ≠ key := h
    refine ⟨rfl, rfl, ?_⟩
    simp [put, Scope.overloads, hf]
  | var v =>
    have hv : v.name ≠ key := h
    refine ⟨rfl, ?_, rfl⟩
    simp [put, Scope.var?, hv]

/-- Declarations of other names do not matter. -/
theorem Adds.sameAt {keys : List String} (hkey : key ∈ keys)
    (h : scope.Adds (·.name ∉ keys) scope') : scope.SameAt key scope' := by
  obtain ⟨ds, hds, rfl⟩ := h
  induction ds generalizing scope with
  | nil => exact ⟨rfl, rfl, rfl⟩
  | cons d ds ih =>
    obtain ⟨hd, hds⟩ := List.forall_mem_cons.mp hds
    have hne : d.name ≠ key := fun hname => hd (hname ▸ hkey)
    exact (sameAt_put hne scope).trans (ih hds)

end Scope

namespace Stack

/-- Whether two stacks answer alike about a key. -/
structure SameAt (key : String) (G H : Stack) : Prop where
  sort? : G.sort? key = H.sort? key
  var? : G.var? key = H.var? key
  overloads : G.overloads key = H.overloads key

variable {key : String} {G H K : Stack}

theorem SameAt.trans (h : G.SameAt key H) (h' : H.SameAt key K) : G.SameAt key K :=
  ⟨h.sort?.trans h'.sort?, h.var?.trans h'.var?, h.overloads.trans h'.overloads⟩

theorem agreeOn_of_sameAt {ls : List Lookup} (h : ∀ l ∈ ls, G.SameAt l.key H) :
    AgreeOn ls G H := by
  intro l hl
  have hkey := h l hl
  cases l with
  | sort key => exact hkey.sort?
  | overloads key => exact hkey.overloads
  | var key => exact congrArg _ hkey.var?

theorem sameAt_of_scopes (h : List.Forall₂ (Scope.SameAt key) G.scopes H.scopes) :
    G.SameAt key H := by
  have hsorts := map_eq_of_forall₂ (fun _ _ hscope => Scope.SameAt.sort? hscope) h
  have hvars := map_eq_of_forall₂ (fun _ _ hscope => Scope.SameAt.var? hscope) h
  have hfuns := map_eq_of_forall₂ (fun _ _ hscope => Scope.SameAt.overloads hscope)
    (List.rel_reverse h)
  refine ⟨?_, ?_, ?_⟩
  · have hfind := congrArg (List.findSome? id) hsorts
    rwa [List.findSome?_map, List.findSome?_map] at hfind
  · have hfind := congrArg (List.findSome? id) hvars
    rwa [List.findSome?_map, List.findSome?_map] at hfind
  · rw [Stack.overloads, Stack.overloads, allOverloads, allOverloads, List.flatMap_def,
      List.flatMap_def, hfuns]

theorem sameAt_pushMany (key : String) (G : Stack) (n : Nat) : G.SameAt key (G.pushMany n) := by
  induction n with
  | zero => exact ⟨rfl, rfl, rfl⟩
  | succ n ih =>
    have hpush : G.pushMany (n + 1) = (G.pushMany n).push :=
      eq_of_scopes_eq (by simp [List.replicate])
    rw [hpush]
    exact ih.trans ⟨rfl, rfl, (overloads_push _ key).symm⟩

end Stack

/-- Sorting a term gives the same result, with the same findings, in stacks that answer alike about
all keys of the term. So it does not depend on declarations of other names, whether they are made in
the scopes that are there or in new ones. -/
theorem infer_eq_of_keys (t : Term) (s : Spot) :
    (∀ G H : Stack, (∀ key ∈ t.keys, G.SameAt key H) → infer G s t = infer H s t) ∧
    ∀ (G H : Stack) (n : Nat),
      List.Forall₂ (Scope.Adds (·.name ∉ t.keys)) (G.pushMany n).scopes H.scopes →
        infer G s t = infer H s t := by
  have hkeys (G H : Stack) (h : ∀ key ∈ t.keys, G.SameAt key H) : infer G s t = infer H s t :=
    infer_of_agreeOn s t (agreeOn_of_sameAt (List.forall_mem_map.mp h))
  refine ⟨hkeys, fun G H n h => hkeys G H fun key hkey => ?_⟩
  exact (sameAt_pushMany key G n).trans
    (sameAt_of_scopes (h.imp fun _ _ hadds => hadds.sameAt hkey))

/-- A sort with a function and a predicate. -/
def Stack.predicate (n : Node) : Stack :=
  ⟨⟨[.symbol "A" 0 n], [.symbol "f" [] [.simple "A"] (.simple "A") n,
    .symbol "p" [] [.simple "A"] .bool n], []⟩, []⟩

/-- A further sort and another predicate are added below, a variable in a new scope. -/
theorem infer_eq_of_keys_predicate :
    let s : Spot := .top ⟨.nowhere, [], []⟩
    let n := s.node (.word "n")
    let t : Term := .quantified .some [⟨"x", .simple "A"⟩]
      (.app ⟨.simple "p", none⟩ [.app ⟨.simple "f", none⟩ [.ident ⟨.simple "x", none⟩]])
    let G := Stack.predicate n
    let q : FunDecl := .symbol "q" [] [.simple "B"] .bool n
    let H : Stack := ⟨⟨[], [], [⟨"y", .simple "B", n⟩]⟩,
      [⟨[.symbol "A" 0 n, .symbol "B" 0 n], G.top.funs ++ [q], []⟩]⟩
    (infer G s t).value = some .bool ∧ (∀ key ∈ t.keys, G.SameAt key H) ∧
      infer G s t = infer H s t := by
  intro s n t G q H
  have hadds : List.Forall₂ (Scope.Adds (·.name ∉ t.keys)) (G.pushMany 1).scopes H.scopes :=
    .cons ⟨[.var ⟨"y", .simple "B", n⟩], by decide +kernel, rfl⟩
      (.cons ⟨[.sort (.symbol "B" 0 n), .function q], by decide +kernel, rfl⟩ .nil)
  have hkeys : ∀ key ∈ t.keys, G.SameAt key H := fun key hkey =>
    (Stack.sameAt_pushMany key G 1).trans
      (Stack.sameAt_of_scopes (hadds.imp fun _ _ h => h.sameAt hkey))
  exact ⟨by decide +kernel, hkeys, (infer_eq_of_keys t s).2 G H 1 hadds⟩

end WellSorted
