import WellSorted.Proofs.Signatures
import WellSorted.Proofs.Steps

/-!
# The symbol environment

Whatever commands are run and whatever roots are checked, the stack stays consistent
(`Stack.Consistent`): a sort name is bound once, no two functions of a name have the same signature,
every declaration fits, and there are no variables between commands. Entering keeps this up because
it compares a new declaration with the whole stack; opening and leaving scopes adds nothing.
-/

namespace WellSorted

namespace Stack

/-- The sorts of all scopes, innermost scope first. -/
def allSorts (G : Stack) : List SortDecl := G.scopes.flatMap (·.sorts)

/-- The functions of all scopes, innermost scope first. -/
def allFuns (G : Stack) : List FunDecl := G.scopes.flatMap (·.funs)

/-- Two sorts of different names. -/
def DistinctSorts (d e : SortDecl) : Prop := d.name ≠ e.name

/-- Two functions that differ in their names or in their signatures. -/
def DistinctFuns (f g : FunDecl) : Prop := f.name = g.name → f.sameSignature g = false

theorem mem_allSorts {G : Stack} {d : SortDecl} : d ∈ G.allSorts ↔ G.Has (.sort d) :=
  List.mem_flatMap

theorem mem_allFuns {G : Stack} {f : FunDecl} : f ∈ G.allFuns ↔ G.Has (.function f) :=
  List.mem_flatMap

theorem distinctFuns_symm {f g : FunDecl} (h : DistinctFuns f g) : DistinctFuns g f := by
  intro hname
  rw [FunDecl.sameSignature_comm]
  exact h hname.symm

/-- A sort that does not conflict has a new name. -/
theorem distinctSorts_of_no_conflict {G : Stack} {d : SortDecl}
    (h : G.conflict? (.sort d) = none) : ∀ e ∈ G.allSorts, DistinctSorts d e := by
  intro e he hname
  obtain ⟨scope, hscope, he⟩ := mem_allSorts.mp he
  have hnone := List.findSome?_eq_none_iff.mp (conflict?_sort_eq_none.mp h) scope hscope
  exact List.find?_eq_none.mp hnone e he (by simp [hname])

/-- A function that does not conflict has a new signature for its name. -/
theorem distinctFuns_of_no_conflict {G : Stack} {f : FunDecl}
    (h : G.conflict? (.function f) = none) : ∀ g ∈ G.allFuns, DistinctFuns f g := by
  intro g hg hname
  have hnone := List.find?_eq_none.mp (Option.map_eq_none_iff.mp h) g
    (mem_allOverloads.mpr ⟨mem_allFuns.mp hg, hname.symm⟩)
  simpa using hnone

/-- What entering declarations and moving between scopes keeps up. -/
structure Sound (G : Stack) : Prop where
  sorts : G.allSorts.Pairwise DistinctSorts
  funs : G.allFuns.Pairwise DistinctFuns
  fits : ∀ d, G.Has d → d.Fits

theorem sound_empty : Stack.empty.Sound :=
  ⟨.nil, .nil, fun d hd => absurd hd (not_has_empty d)⟩

/-- A member between two lists that is related to all of their members. -/
theorem pairwise_insert {α : Type} {R : α → α → Prop} (hsymm : ∀ {a b}, R a b → R b a) {a : α}
    {l l' : List α} (h : (l ++ l').Pairwise R) (ha : ∀ b ∈ l ++ l', R a b) :
    (l ++ [a] ++ l').Pairwise R := by
  rw [List.append_assoc, List.singleton_append, List.Perm.pairwise_iff hsymm List.perm_middle]
  exact .cons ha h

theorem Sound.insert {G K : Stack} {d : Declaration} (hG : G.Sound) (hd : d.Fits)
    (h : G.insert d = .ok K) : K.Sound := by
  have hfits (e : Declaration) (he : K.Has e) : e.Fits := by
    rcases (has_of_insert h).mp he with he | rfl
    · exact hG.fits e he
    · exact hd
  obtain ⟨hnone, rfl⟩ := insert_eq_ok.mp h
  cases d with
  | sort d =>
    refine ⟨?_, hG.funs, hfits⟩
    exact pairwise_insert Ne.symm hG.sorts (distinctSorts_of_no_conflict hnone)
  | function f =>
    refine ⟨hG.sorts, ?_, hfits⟩
    exact pairwise_insert distinctFuns_symm hG.funs (distinctFuns_of_no_conflict hnone)
  | var v => exact absurd hd not_false

theorem Sound.entered {clean : Prop} {G H : Stack} (hG : G.Sound)
    (h : G.Entered (Introduces clean) H) : H.Sound := by
  induction h with
  | refl => exact hG
  | insert _ hd hinsert ih => exact ih.insert hd.1 hinsert

theorem flatMap_replicate_empty {α : Type} {f : Scope → List α} (h : f .empty = []) (n : Nat) :
    (List.replicate n Scope.empty).flatMap f = [] := by
  rw [List.flatMap_eq_nil_iff]
  intro scope hscope
  rw [List.eq_of_mem_replicate hscope, h]

theorem allFuns_pushMany (G : Stack) (n : Nat) : (G.pushMany n).allFuns = G.allFuns := by
  rw [allFuns, scopes_pushMany, List.flatMap_append, flatMap_replicate_empty rfl]
  rfl

theorem Sound.pushMany {G : Stack} (hG : G.Sound) (n : Nat) : (G.pushMany n).Sound := by
  refine ⟨?_, (G.allFuns_pushMany n).symm ▸ hG.funs, fun d hd => ?_⟩
  · rw [allSorts, scopes_pushMany, List.flatMap_append, flatMap_replicate_empty rfl]
    exact hG.sorts
  · obtain ⟨scope, hscope, hd⟩ := hd
    rw [scopes_pushMany, List.mem_append] at hscope
    rcases hscope with hnew | hold
    · rw [List.eq_of_mem_replicate hnew] at hd
      exact absurd hd (Scope.not_has_empty d)
    · exact hG.fits d ⟨scope, hold, hd⟩

theorem scopes_of_pop {G H : Stack} {n : Nat} (h : G.pop? n = some H) :
    G.scopes = G.scopes.take n ++ H.scopes := by
  rw [pop?_eq_some_iff.mp h, List.take_append_drop]

theorem pairwise_allFuns_of_pop {G H : Stack} {n : Nat} (h : G.pop? n = some H)
    (hG : G.allFuns.Pairwise DistinctFuns) : H.allFuns.Pairwise DistinctFuns := by
  rw [allFuns, scopes_of_pop h, List.flatMap_append, List.pairwise_append] at hG
  exact hG.2.1

theorem Sound.pop {G H : Stack} (hG : G.Sound) {n : Nat} (h : G.pop? n = some H) : H.Sound := by
  have hscopes := scopes_of_pop h
  have hsorts := hG.sorts
  rw [allSorts, hscopes, List.flatMap_append, List.pairwise_append] at hsorts
  refine ⟨hsorts.2.1, pairwise_allFuns_of_pop h hG.funs, fun d hd => ?_⟩
  obtain ⟨scope, hscope, hd⟩ := hd
  refine hG.fits d ⟨scope, ?_, hd⟩
  rw [hscopes]
  exact List.mem_append_right _ hscope

theorem Sound.moves {clean : Prop} {G H : Stack} (hG : G.Sound)
    (h : G.Moves (Introduces clean) H) : H.Sound := by
  cases h with
  | entered h => exact hG.entered h
  | pushed n => exact hG.pushMany n
  | popped h => exact hG.pop h

/-- A sort of a sound stack is found under its name. -/
theorem Sound.sort?_of_has {G : Stack} (hG : G.Sound) {d : SortDecl} (hd : G.Has (.sort d)) :
    G.sort? d.name = some d := by
  cases hfound : G.sort? d.name with
  | none =>
    obtain ⟨scope, hscope, hmem⟩ := hd
    have hnone := List.findSome?_eq_none_iff.mp hfound scope hscope
    exact absurd (beq_self_eq_true _) (List.find?_eq_none.mp hnone d hmem)
  | some e =>
    have he : G.Has (.sort e) := has_of_sort? hfound
    have hsymm : Std.Symm DistinctSorts := ⟨fun _ _ => Ne.symm⟩
    by_contra hne
    refine hG.sorts.forall (mem_allSorts.mpr he) (mem_allSorts.mpr hd) (fun h => ?_)
      (name_of_sort? hfound)
    exact hne (congrArg some h)

/-! ### Consistent stacks -/

structure Consistent (G : Stack) : Prop where
  /-- There is a scope. -/
  scopes : G.scopes ≠ []
  /-- No name stands for two sorts. -/
  sorts : G.allSorts.Pairwise fun d e => d.name ≠ e.name
  /-- No two functions share a name and a signature. -/
  funs : G.allFuns.Pairwise fun f g => f.name = g.name → f.sameSignature g = false
  /-- The overloads that are listed are all there are. -/
  overloads : ∀ name, G.overloads name = G.allOverloads name
  aliases : ∀ d ∈ G.allSorts, d.definition.isSome = true → d.params.length = d.arity
  leftAssoc : ∀ f ∈ G.allFuns, f.assoc = some .left → ∃ b, f.args = [f.result, b]
  rightAssoc : ∀ f ∈ G.allFuns, f.assoc = some .right → ∃ a, f.args = [a, f.result]
  chain : ∀ f ∈ G.allFuns, f.chain.isSome = true → ∃ a, f.args = [a, a] ∧ f.result = .bool
  vars : ∀ scope ∈ G.scopes, scope.vars = []

/-- Functions of different signatures are all added. -/
theorem foldl_addOverload {fs gs : List FunDecl}
    (h : (gs ++ fs).Pairwise fun f g => g.sameSignature f = false) :
    fs.foldl addOverload gs = gs ++ fs := by
  induction fs generalizing gs with
  | nil => rw [List.append_nil, List.foldl_nil]
  | cons f fs ih =>
    have hnew : gs.any f.sameSignature = false := by
      rw [List.any_eq_false]
      intro g hg
      simpa using (List.pairwise_append.mp h).2.2 g hg f List.mem_cons_self
    rw [List.append_cons] at h
    rw [List.foldl_cons, addOverload, if_neg (by simp [hnew]), ih h, ← List.append_cons]

/-- The overloads of a name have different signatures. -/
theorem pairwise_allOverloads {G : Stack} (hG : G.allFuns.Pairwise DistinctFuns) (name : String) :
    (G.allOverloads name).Pairwise fun f g => g.sameSignature f = false := by
  have hperm : (G.allOverloads name).Perm (G.allFuns.filter (·.name == name)) := by
    rw [allFuns, List.filter_flatMap]
    exact (List.reverse_perm G.scopes).flatMap_right _
  have hdistinct := (hperm.pairwise_iff distinctFuns_symm).mpr (hG.filter _)
  refine hdistinct.imp_of_mem fun hf hg h => distinctFuns_symm h ?_
  rw [(mem_allOverloads.mp hf).2, (mem_allOverloads.mp hg).2]

theorem Sound.consistent {G : Stack} (hG : G.Sound) : G.Consistent where
  scopes := List.cons_ne_nil _ _
  sorts := hG.sorts
  funs := hG.funs
  overloads name := foldl_addOverload (pairwise_allOverloads hG.funs name)
  aliases _ hd := hG.fits _ (mem_allSorts.mp hd)
  leftAssoc _ hf := FunDecl.Fits.left (hG.fits _ (mem_allFuns.mp hf))
  rightAssoc _ hf := FunDecl.Fits.right (hG.fits _ (mem_allFuns.mp hf))
  chain _ hf := FunDecl.Fits.chain (hG.fits _ (mem_allFuns.mp hf))
  vars scope hscope := List.eq_nil_iff_forall_not_mem.mpr fun v hv =>
    hG.fits (.var v) ⟨scope, hscope, hv⟩

end Stack

/-! ### Reachable contexts -/

namespace Context

/-- What can be done to a context: run a command, or check a root. -/
inductive Action where
  | command (setup : Setup) (s : Spot) (c : Command)
  | root (setup : Setup) (p : Parsed Root)

def act (ctx : Context) : Action → Context
  | .command setup s c => (Check.command setup ctx s c).value
  | .root setup p => (Check.root setup ctx p).value

/-- The context after some actions, one after another. -/
def after (actions : List Action) : Context := actions.foldl act fresh

theorem sound_command {ctx : Context} (h : ctx.stack.Sound) (setup : Setup) (s : Spot)
    (c : Command) : (Check.command setup ctx s c).value.stack.Sound := by
  by_cases hreset : c = .reset
  · have hcore : ctx.reset.Grows setup False (Check.command setup ctx s c).value := by
      rw [hreset]
      exact grows_loadCore False.elim
    exact Stack.sound_empty.entered hcore.stack
  · exact h.moves (moves_of_ne_reset hreset).stack

theorem sound_foldlM {ctx : Context} (h : ctx.stack.Sound) (setup : Setup)
    (cs : List (Spot × Command)) :
    (cs.foldlM (fun ctx (s, c) => Check.command setup ctx s c) ctx).value.stack.Sound :=
  Logged.foldlM_inv (Q := fun ctx : Context => ctx.stack.Sound) False.elim
    (fun _ _ _ h _ => sound_command h setup _ _) h

theorem sound_root {ctx : Context} (h : ctx.stack.Sound) (setup : Setup) (p : Parsed Root) :
    (Check.root setup ctx p).value.stack.Sound := by
  have hcontents (ctx' : Context) (h : ctx'.stack.Sound) :
      (Check.contents setup p ctx').value.stack.Sound := by
    unfold Check.contents
    cases p.tree with
    | script cs => exact sound_foldlM h setup _
    | theory t =>
      have htheory :
          ctx'.stack.Entered (Introduces False) (Check.theory ctx'.stack p.spot t).value :=
        Stack.entered_theory False.elim False.elim
      exact h.entered htheory
    | logic l =>
      have hlogic : ctx'.Grows setup False (Check.logic setup ctx' p.spot l).value :=
        grows_logic False.elim
      exact h.entered hlogic.stack
  rw [Check.root_eq, Logged.value_bind]
  refine hcontents _ ?_
  split
  · exact h
  · have hcore : ctx.Grows setup False (Check.loadCore setup (p.tree.node p.source) ctx).value :=
      grows_loadCore False.elim
    exact h.entered hcore.stack

theorem sound_act {ctx : Context} (h : ctx.stack.Sound) (a : Action) :
    (ctx.act a).stack.Sound := by
  cases a with
  | command setup s c => exact sound_command h setup s c
  | root setup p => exact sound_root h setup p

theorem sound_after (actions : List Action) : (after actions).stack.Sound := by
  suffices hfold : ∀ ctx : Context, ctx.stack.Sound → (actions.foldl act ctx).stack.Sound from
    hfold fresh Stack.sound_empty
  induction actions with
  | nil => exact fun ctx h => h
  | cons a actions ih => exact fun ctx h => ih _ (sound_act h a)

/-- The stack is consistent after all commands and checks, whatever they find. -/
theorem consistent_after (actions : List Action) : (after actions).stack.Consistent :=
  (sound_after actions).consistent

end Context

end WellSorted
