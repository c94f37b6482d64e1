import WellSorted.Proofs.Dropped

/-!
# Loads

A load is refused, found illegal, or entered (`Check.Loader.Ends`), and only in the last case does
it reach the stack. The records of a context, which are its theories, the flag for the core theory
and the loads so far, are kept orderly by every step (`Context.Orderly`): what was loaded since the
last reset is known to the records, and what is known to them is not loaded again. Since a theory
loads nothing and a logic loads theories only, loads are never nested more than twice; unrolling the
recursion between checks and loads stops at the second level (`Check.unrolled_eq_loads`).
-/

namespace WellSorted

/-! ### What a load can find -/

/-- The library that could not be loaded, if that is the problem. -/
def Problem.refused? : Problem → Option (Library × String)
  | .libraryUnknown what name => some (what, name)
  | .libraryUnloadable what name => some (what, name)
  | .libraryAlreadyLoaded what name => some (what, name)
  | _ => none

namespace Logged

/-- Whether the last problem that is found has a property, if there is one. -/
def EndsIn {α : Type} (P : Problem → Prop) (x : Logged α) : Prop :=
  ∀ f, x.findings.getLast? = some f → P f.problem

variable {α β : Type} {P : Problem → Prop}

theorem endsIn_of_forall {x : Logged α} (h : ∀ f ∈ x.findings, P f.problem) : x.EndsIn P :=
  fun f hf => h f (List.mem_of_getLast? hf)

theorem endsIn_pure (a : α) : (Pure.pure a : Logged α).EndsIn P :=
  endsIn_of_forall fun _ hf => absurd hf List.not_mem_nil

/-- Only the last report counts. -/
theorem endsIn_report {x : Logged β} {n : Node} {p : Problem} {a : α} (hp : P p) :
    (do let _ ← x; report (n.finding p); return a).EndsIn P := by
  intro f hf
  rw [findings_bind, List.getLast?_append] at hf
  have hlast : f = n.finding p := (Option.some.inj hf).symm
  rw [hlast]
  exact hp

theorem EndsIn.bind {x : Logged α} {k : α → Logged β} (hx : x.EndsIn P)
    (hk : ∀ a, (k a).EndsIn P) : (x >>= k).EndsIn P := by
  intro f hf
  rw [findings_bind, List.getLast?_append, Option.or_eq_some_iff] at hf
  rcases hf with hf | ⟨-, hf⟩
  · exact hk x.value f hf
  · exact hx f hf

theorem endsIn_foldlM {σ : Type} {f : σ → α → Logged σ} (hstep : ∀ s a, (f s a).EndsIn P)
    (l : List α) (s : σ) : (l.foldlM f s).EndsIn P := by
  induction l generalizing s with
  | nil => exact endsIn_pure s
  | cons a l ih =>
    rw [List.foldlM_cons]
    exact (hstep s a).bind ih

end Logged

namespace Stack

/-- Checking a sort finds problems with sorts only. -/
theorem refused?_checkHead {G : Stack} {n : Node} {name : String} {count : Nat} :
    ∀ f ∈ G.checkHead n name count, f.problem.refused? = none := by
  intro f hf
  unfold checkHead at hf
  split at hf
  · rw [List.mem_singleton.mp hf]
    rfl
  · split at hf
    · exact absurd hf List.not_mem_nil
    · rw [List.mem_singleton.mp hf]
      rfl

mutual

theorem refused?_checkSort {G : Stack} {ps : List String} {n : Node} : ∀ s : SmtSort,
    ∀ f ∈ G.checkSort ps n s, f.problem.refused? = none
  | .mk head args => by
    intro f hf
    rw [checkSort] at hf
    split at hf
    · exact absurd hf List.not_mem_nil
    · rcases List.mem_append.mp hf with hf | hf
      · exact refused?_checkHead f hf
      · exact refused?_checkSorts args f hf

theorem refused?_checkSorts {G : Stack} {ps : List String} {n : Node} : ∀ ss : List SmtSort,
    ∀ f ∈ G.checkSorts ps n ss, f.problem.refused? = none
  | [] => fun _ hf => absurd hf List.not_mem_nil
  | s :: ss => by
    intro f hf
    rcases List.mem_append.mp hf with hf | hf
    · exact refused?_checkSort s f hf
    · exact refused?_checkSorts ss f hf

end

theorem endsIn_declare {P : Problem → Prop} {G : Stack} {n : Node} {p : Problem} {d : Declaration}
    (hp : P p) : (G.declare n p d).EndsIn P := by
  unfold declare
  split
  · exact Logged.endsIn_pure _
  · intro f hf
    cases hf
    exact hp

end Stack

namespace Check

/-- Whether a problem is not that a library could not be loaded. -/
def IsInside (p : Problem) : Prop := p.refused? = none

theorem endsIn_checkSorts {G : Stack} {ps : List String} {n : Node} {ss : List SmtSort} :
    (Logged.reportAll (G.checkSorts ps n ss)).EndsIn IsInside :=
  Logged.endsIn_of_forall (Stack.refused?_checkSorts ss)

theorem endsIn_checkSort {G : Stack} {ps : List String} {n : Node} {s : SmtSort} :
    (Logged.reportAll (G.checkSort ps n s)).EndsIn IsInside :=
  Logged.endsIn_of_forall (Stack.refused?_checkSort s)

theorem endsIn_accept {α : Type} {n : Node} {problems : List Problem} {a : α}
    (h : ∀ p ∈ problems, IsInside p) : (accept n problems a).EndsIn IsInside := by
  refine Logged.EndsIn.bind (Logged.endsIn_of_forall fun f hf => ?_) fun _ => Logged.endsIn_pure _
  obtain ⟨p, hp, rfl⟩ := List.mem_map.mp hf
  exact h p hp

theorem isInside_assocProblems {side : Assoc} {name : String} {result : SmtSort}
    {args : List SmtSort} : ∀ p ∈ assocProblems side name result args, IsInside p := by
  intro p hp
  unfold assocProblems at hp
  split at hp
  · split at hp
    · exact absurd hp List.not_mem_nil
    · rw [List.mem_singleton.mp hp]
      rfl
  · rw [List.mem_singleton.mp hp]
    rfl

theorem isInside_chainProblems {chain : Chain} {name : String} {result : SmtSort}
    {args : List SmtSort} : ∀ p ∈ chainProblems chain name result args, IsInside p := by
  intro p hp
  unfold chainProblems at hp
  split at hp
  · rw [List.mem_append, List.mem_ite_nil_left, List.mem_ite_nil_left] at hp
    rcases hp with ⟨-, hp⟩ | ⟨-, hp⟩
    · rw [List.mem_singleton.mp hp]
      rfl
    · rw [List.mem_singleton.mp hp]
      rfl
  · rw [List.mem_singleton.mp hp]
    rfl

theorem endsIn_assoc {n : Node} {name : String} {args : List SmtSort} {result : SmtSort}
    {attributes : List Attribute} : (assoc n name args result attributes).EndsIn IsInside := by
  unfold assoc
  split
  · exact endsIn_accept fun p hp => by rw [List.mem_singleton.mp hp]; rfl
  · exact endsIn_accept isInside_assocProblems
  · exact endsIn_accept isInside_assocProblems
  · exact Logged.endsIn_pure _

theorem endsIn_chain {n : Node} {name : String} {args : List SmtSort} {result : SmtSort}
    {attributes : List Attribute} : (chain n name args result attributes).EndsIn IsInside := by
  unfold chain
  split
  · exact endsIn_accept fun p hp => by rw [List.mem_singleton.mp hp]; rfl
  · exact endsIn_accept isInside_chainProblems
  · exact endsIn_accept isInside_chainProblems
  · exact Logged.endsIn_pure _

theorem endsIn_functionSymbol {G : Stack} {n : Node} {params : List String} {name : String}
    {args : List SmtSort} {result : SmtSort} {attributes : List Attribute} :
    (functionSymbol G n params name args result attributes).EndsIn IsInside :=
  endsIn_checkSorts.bind fun _ => endsIn_assoc.bind fun _ => endsIn_chain.bind fun _ =>
    Stack.endsIn_declare rfl

theorem endsIn_literals {G : Stack} {n : Node} {name : String} {sort : SmtSort} :
    (literals G n name sort).EndsIn IsInside := by
  refine endsIn_checkSort.bind fun _ => ?_
  split
  · intro f hf
    rw [Stack.findings_enter] at hf
    cases hf
  · intro f hf
    cases hf
    rfl

theorem endsIn_funSymbolDec (G : Stack) (item : Spot × FunSymbolDec) :
    (funSymbolDec G item).EndsIn IsInside := by
  obtain ⟨s, d⟩ := item
  cases d with
  | literal c sort attributes => exact endsIn_checkSort.bind fun _ => Stack.endsIn_declare rfl
  | literals c sort attributes => exact endsIn_literals
  | simple name args result attributes => exact endsIn_functionSymbol
  | parametric params name args result attributes => exact endsIn_functionSymbol

/-- Entering a theory finds nothing about libraries. -/
theorem endsIn_theory (G : Stack) (s : Spot) (t : Theory) : (theory G s t).EndsIn IsInside := by
  refine Logged.endsIn_foldlM (f := theoryAttribute) (fun G item => ?_) _ G
  obtain ⟨s, a⟩ := item
  cases a with
  | sorts decs =>
    exact Logged.endsIn_foldlM (f := sortSymbolDec) (fun _ _ => Stack.endsIn_declare rfl) _ G
  | funs decs => exact Logged.endsIn_foldlM endsIn_funSymbolDec _ G
  | other a => exact Logged.endsIn_pure G

/-! ### How a load ends -/

section

variable {α : Type} {setup : Setup} {n : Node} {name : String} {ctx : Context}

/-- The ways in which a load can end. -/
inductive Loader.Ends (l : Loader α) (setup : Setup) (n : Node) (name : String) (ctx : Context) :
    Logged Context → Prop
  | refused {p : Problem} : p.refused? = some (l.what, name) →
      l.Ends setup n name ctx (do
        Logged.report (n.finding p)
        return ctx)
  | illegal {findings : List Finding} {p : Problem} : p.refused? = some (l.what, name) →
      l.Ends setup n name ctx (do
        Logged.reportAll findings
        Logged.report (n.finding p)
        return (ctx.startLoad l.what name).endLoad l.what name)
  | entered {p : Parsed α} : l.Ends setup n name ctx (do
      let ctx ← l.enter (ctx.startLoad l.what name) p.spot p.tree
      return ctx.endLoad l.what name)

theorem Loader.refused?_fetch {l : Loader α} {serial : Nat} {problem : Problem}
    (h : l.fetch setup serial name = .error problem) : problem.refused? = some (l.what, name) := by
  unfold fetch at h
  simp only at h
  split at h
  · split at h
    · cases h
      rfl
    · split at h
      · cases h
      · cases h
        rfl
  · cases h
    split <;> rfl

theorem Loader.ends_load (l : Loader α) (setup : Setup) (n : Node) (name : String)
    (ctx : Context) : l.Ends setup n name ctx (l.load setup n name ctx) := by
  unfold load
  split
  · exact .refused rfl
  · cases hfetch : l.fetch setup ctx.nextSerial name with
    | error problem => exact .refused (refused?_fetch hfetch)
    | ok p =>
      simp only [checked]
      split
      · exact .entered
      · rw [bind_assoc]
        exact .illegal (p := .libraryUnloadable l.what name) rfl

/-- A load that ends in a message about its library does not touch the stack, if entering a library
does not end in such a message. -/
theorem Loader.stack_of_refused {l : Loader α}
    (henter : ∀ ctx s a, (l.enter ctx s a).EndsIn fun p => p.refused? ≠ some (l.what, name))
    {f : Finding} (hf : (l.load setup n name ctx).findings.getLast? = some f)
    (hrefused : f.problem.refused? = some (l.what, name)) :
    (l.load setup n name ctx).value.stack = ctx.stack := by
  have hends := l.ends_load setup n name ctx
  generalize l.load setup n name ctx = x at hf hends
  cases hends with
  | refused _ => rfl
  | illegal _ => rfl
  | entered => exact absurd hrefused ((henter _ _ _).bind (fun _ => Logged.endsIn_pure _) f hf)

theorem endsIn_enter_theory (ctx : Context) (s : Spot) (t : Theory) :
    (theoryLoader.enter ctx s t).EndsIn IsInside :=
  (endsIn_theory ctx.stack s t).bind fun _ => Logged.endsIn_pure _

theorem stack_loadTheory_of_refused {f : Finding}
    (hf : (loadTheory setup n name ctx).findings.getLast? = some f)
    (h : f.problem.refused? = some (.theory, name)) :
    (loadTheory setup n name ctx).value.stack = ctx.stack := by
  refine Loader.stack_of_refused (l := theoryLoader) (fun ctx s t f hf hrefused => ?_) hf h
  rw [endsIn_enter_theory ctx s t f hf] at hrefused
  cases hrefused

theorem stack_namedTheory_of_refused {f : Finding}
    (hf : (namedTheory setup n ctx name).findings.getLast? = some f)
    (h : f.problem.refused? = some (.theory, quoteSymbol name)) :
    (namedTheory setup n ctx name).value.stack = ctx.stack := by
  simp only [namedTheory] at hf ⊢
  split
  · rfl
  · next hnew =>
    rw [if_neg hnew] at hf
    split
    · rfl
    · next hcore =>
      rw [if_neg hcore] at hf
      exact stack_loadTheory_of_refused hf h

/-- Loading a theory does not end in a message about a logic. -/
theorem endsIn_loadTheory {logicName : String} :
    (loadTheory setup n name ctx).EndsIn fun p => p.refused? ≠ some (.logic, logicName) := by
  have hends := theoryLoader.ends_load setup n name ctx
  rw [← loadTheory] at hends
  generalize loadTheory setup n name ctx = x at hends
  cases hends with
  | refused hproblem =>
    exact Logged.endsIn_report (x := Pure.pure ()) (by rw [hproblem]; nofun)
  | illegal hproblem => exact Logged.endsIn_report (by rw [hproblem]; nofun)
  | entered =>
    intro f hf hrefused
    rw [(endsIn_enter_theory _ _ _).bind (fun _ => Logged.endsIn_pure _) f hf] at hrefused
    cases hrefused

theorem endsIn_namedTheory {logicName : String} :
    (namedTheory setup n ctx name).EndsIn fun p => p.refused? ≠ some (.logic, logicName) := by
  simp only [namedTheory]
  split
  · intro f hf
    cases hf
    intro hrefused
    cases hrefused
  · split
    · exact Logged.endsIn_pure _
    · exact endsIn_loadTheory

theorem endsIn_logic {s : Spot} {l : Logic} {logicName : String} :
    (logic setup ctx s l).EndsIn fun p => p.refused? ≠ some (.logic, logicName) := by
  refine Logged.endsIn_foldlM (f := logicAttribute setup) (fun ctx item => ?_) _ ctx
  obtain ⟨s, a⟩ := item
  cases a with
  | theories names => exact Logged.endsIn_foldlM (fun _ _ => endsIn_namedTheory) _ ctx
  | other a => exact Logged.endsIn_pure ctx

theorem stack_loadLogic_of_refused {f : Finding}
    (hf : (loadLogic setup n name ctx).findings.getLast? = some f)
    (h : f.problem.refused? = some (.logic, name)) :
    (loadLogic setup n name ctx).value.stack = ctx.stack :=
  Loader.stack_of_refused (l := logicLoader setup) (fun _ _ _ => endsIn_logic) hf h

end

end Check

/-! ### The records of a context -/

/-- The names of the theories among some loads. -/
def theoryNames (loads : List Load) : List String :=
  (loads.filter (·.what == .theory)).map (·.name)

namespace Context

open Check

/-- Whether a theory was loaded, as far as the records tell. -/
def Knows (ctx : Context) (name : String) : Prop :=
  name ∈ ctx.theories ∨ name = coreName ∧ ctx.coreLoaded = true

/-- The records while some loads are under way: of the loads that came after `base`, each is known
and none is of the same theory as another one. -/
structure Orderly (underWay : List (Library × String)) (base : List Load) (ctx : Context) :
    Prop where
  loading : ctx.loading = underWay
  theories : ctx.theories.Nodup
  nesting : ∀ load ∈ ctx.loads, load.within.length ≤ 1
  once : ∃ new, ctx.loads = new ++ base ∧ (theoryNames new).Nodup ∧
    ∀ name ∈ theoryNames new, ctx.Knows name

variable {setup : Setup} {n : Node} {name : String} {ctx : Context} {base : List Load}
  {underWay : List (Library × String)}

theorem endLoad_startLoad (ctx : Context) (what : Library) (name : String) :
    (ctx.startLoad what name).endLoad what name =
      { ctx with loads := ⟨what, name, ctx.loading⟩ :: ctx.loads } := by
  rw [endLoad, startLoad, List.erase_cons_head]

/-- A load of a theory changes the stack, and is recorded if the theory was read. -/
theorem exists_loadTheory (setup : Setup) (n : Node) (name : String) (ctx : Context) :
    ∃ G loads, (loadTheory setup n name ctx).value = { ctx with stack := G, loads := loads } ∧
      (loads = ctx.loads ∨ loads = ⟨.theory, name, ctx.loading⟩ :: ctx.loads) := by
  have hends := theoryLoader.ends_load setup n name ctx
  rw [← loadTheory] at hends
  generalize loadTheory setup n name ctx = x at hends
  cases hends with
  | refused _ => exact ⟨ctx.stack, ctx.loads, rfl, .inl rfl⟩
  | illegal _ => exact ⟨ctx.stack, _, endLoad_startLoad ctx .theory name, .inr rfl⟩
  | @entered p =>
    refine ⟨(theory ctx.stack p.spot p.tree).value, _, ?_, .inr rfl⟩
    exact congrArg (fun ctx' => { ctx' with stack := (theory ctx.stack p.spot p.tree).value })
      (endLoad_startLoad ctx .theory name)

/-- A theory that is not known is loaded once it is noted. -/
theorem Orderly.loadTheory (h : ctx.Orderly underWay base) (hunderWay : underWay.length ≤ 1)
    (hnew : ¬ ctx.Knows name) {theories : List String} {coreLoaded : Bool}
    (htheories : theories.Nodup) (hsubset : ctx.theories ⊆ theories)
    (hcore : ctx.coreLoaded = true → coreLoaded = true)
    (hname : name ∈ theories ∨ name = coreName ∧ coreLoaded = true) :
    (loadTheory setup n name
      { ctx with theories := theories, coreLoaded := coreLoaded }).value.Orderly underWay base := by
  obtain ⟨new, hloads, hnodup, hknown⟩ := h.once
  have hstill (m : String) (hm : m ∈ theoryNames new) :
      m ∈ theories ∨ m = coreName ∧ coreLoaded = true :=
    (hknown m hm).imp (fun hm => hsubset hm) fun hm => ⟨hm.1, hcore hm.2⟩
  obtain ⟨G, loads, hvalue, hrecorded⟩ := exists_loadTheory setup n name
    { ctx with theories := theories, coreLoaded := coreLoaded }
  rw [hvalue]
  rcases hrecorded with rfl | rfl
  · exact ⟨h.loading, htheories, h.nesting, new, hloads, hnodup, hstill⟩
  · refine ⟨h.loading, htheories, ?_, ⟨.theory, name, ctx.loading⟩ :: new, ?_, ?_, ?_⟩
    · refine List.forall_mem_cons.mpr ⟨?_, h.nesting⟩
      show ctx.loading.length ≤ 1
      rw [h.loading]
      exact hunderWay
    · rw [List.cons_append, ← hloads]
    · exact List.nodup_cons.mpr ⟨fun hmem => hnew (hknown name hmem), hnodup⟩
    · exact List.forall_mem_cons.mpr ⟨hname, hstill⟩

theorem Orderly.namedTheory (h : ctx.Orderly underWay base) (hunderWay : underWay.length ≤ 1)
    (name : String) : (namedTheory setup n ctx name).value.Orderly underWay base := by
  simp only [Check.namedTheory]
  split
  · exact h
  · next hmissing =>
    have htheories : (ctx.theories ++ [quoteSymbol name]).Nodup :=
      List.nodup_append_comm.mp (List.nodup_cons.mpr ⟨hmissing, h.theories⟩)
    split
    · obtain ⟨new, hloads, hnodup, hknown⟩ := h.once
      refine ⟨h.loading, htheories, h.nesting, new, hloads, hnodup, fun m hm => ?_⟩
      exact (hknown m hm).imp_left fun hm => List.mem_append_left _ hm
    · next hcore =>
      exact h.loadTheory hunderWay (not_or.mpr ⟨hmissing, hcore⟩) htheories
        (List.subset_append_left _ _) id
        (.inl (List.mem_append_right _ (List.mem_singleton_self _)))

theorem Orderly.logic (h : ctx.Orderly underWay base) (hunderWay : underWay.length ≤ 1) (s : Spot)
    (l : Logic) : (Check.logic setup ctx s l).value.Orderly underWay base := by
  refine Logged.foldlM_inv (f := logicAttribute setup)
    (Q := fun ctx : Context => ctx.Orderly underWay base) False.elim (fun item _ ctx h _ => ?_) h
  obtain ⟨s, a⟩ := item
  cases a with
  | theories names =>
    exact Logged.foldlM_inv (Q := fun ctx : Context => ctx.Orderly underWay base) False.elim
      (fun name _ _ h _ => h.namedTheory hunderWay name) h
  | other a => exact h

/-- The core theory is loaded before any other one. -/
theorem Orderly.loadCore (h : ctx.Orderly [] base) (htheories : ctx.theories = []) (n : Node) :
    (loadCore setup n ctx).value.Orderly [] base := by
  unfold Check.loadCore
  split
  · next henabled =>
    have hcore : ctx.coreLoaded = false := by
      simpa using (Bool.and_eq_true_iff.mp henabled).2
    refine h.loadTheory (Nat.zero_le 1) ?_ h.theories (List.Subset.refl _) (fun _ => rfl)
      (.inr ⟨rfl, rfl⟩)
    simp [Knows, htheories, hcore]
  · exact h

/-- A logic may be recorded at any time. -/
theorem Orderly.note_logic (h : ctx.Orderly [] base) {loading : List (Library × String)}
    (hloading : loading = underWay) (name : String) : Orderly underWay base
      { ctx with loading := loading, loads := ⟨.logic, name, ctx.loading⟩ :: ctx.loads } := by
  obtain ⟨new, hloads, hnodup, hknown⟩ := h.once
  refine ⟨hloading, h.theories, ?_, ⟨.logic, name, ctx.loading⟩ :: new, ?_, hnodup, hknown⟩
  · refine List.forall_mem_cons.mpr ⟨?_, h.nesting⟩
    show ctx.loading.length ≤ 1
    rw [h.loading]
    exact Nat.zero_le 1
  · rw [List.cons_append, ← hloads]

theorem Orderly.loadLogic (h : ctx.Orderly [] base) (n : Node) (name : String) :
    (loadLogic setup n name ctx).value.Orderly [] base := by
  have hends := (logicLoader setup).ends_load setup n name ctx
  rw [← Check.loadLogic] at hends
  generalize Check.loadLogic setup n name ctx = x at hends
  cases hends with
  | refused _ => exact h
  | illegal _ =>
    have hnoted := h.note_logic h.loading name
    rw [← endLoad_startLoad] at hnoted
    exact hnoted
  | @entered p =>
    have hstart : (ctx.startLoad .logic name).Orderly [(.logic, name)] base :=
      h.note_logic (by rw [h.loading]) name
    have hlogic : (Check.logic setup (ctx.startLoad .logic name) p.spot p.tree).value.Orderly
        [(.logic, name)] base := hstart.logic (Nat.le_refl 1) p.spot p.tree
    refine ⟨?_, hlogic.theories, hlogic.nesting, hlogic.once⟩
    calc (Check.logic setup (ctx.startLoad .logic name) p.spot p.tree).value.loading.erase
          (.logic, name)
      _ = [(.logic, name)].erase (.logic, name) := by rw [hlogic.loading]
      _ = [] := List.erase_cons_head _ _

theorem Orderly.setLogic (h : ctx.Orderly [] base) (n : Node) (name : String) :
    (setLogic setup n name ctx).value.Orderly [] base := by
  unfold Check.setLogic
  split
  · exact h
  · have hset : Orderly [] base { ctx with logic := some (quoteSymbol name) } :=
      ⟨h.loading, h.theories, h.nesting, h.once⟩
    exact hset.loadLogic n (quoteSymbol name)

theorem Orderly.command (h : ctx.Orderly [] base) {s : Spot} {c : Command} (hreset : c ≠ .reset) :
    (command setup ctx s c).value.Orderly [] base := by
  cases c with
  | reset => exact absurd rfl hreset
  | setLogic name => exact h.setLogic _ name
  | _ => exact ⟨h.loading, h.theories, h.nesting, h.once⟩

/-- After a reset, all loads so far are forgotten. -/
theorem Orderly.command_reset (h : ctx.Orderly [] base) (s : Spot) :
    (Check.command setup ctx s .reset).value.Orderly [] ctx.loads := by
  have hreset : ctx.reset.Orderly [] ctx.loads :=
    ⟨h.loading, List.nodup_nil, h.nesting, [], rfl, List.nodup_nil, nofun⟩
  exact hreset.loadCore rfl _

theorem Orderly.commands (h : ctx.Orderly [] base) {cs : List (Spot × Command)}
    (hreset : ∀ item ∈ cs, item.2 ≠ .reset) :
    (Check.commands setup ctx cs).value.Orderly [] base := by
  induction cs generalizing ctx with
  | nil => exact h
  | cons item cs ih =>
    rw [commands_cons]
    refine ih (h.command (hreset item List.mem_cons_self)) fun other hother => ?_
    exact hreset other (List.mem_cons_of_mem _ hother)

theorem orderly_fresh : fresh.Orderly [] [] :=
  ⟨rfl, List.nodup_nil, nofun, [], rfl, List.nodup_nil, nofun⟩

/-- Whatever commands are run, the records stay orderly since some point. -/
theorem Orderly.exists_commands (h : ctx.Orderly [] base) (cs : List (Spot × Command)) :
    ∃ base, (Check.commands setup ctx cs).value.Orderly [] base := by
  induction cs generalizing ctx base with
  | nil => exact ⟨base, h⟩
  | cons item cs ih =>
    obtain ⟨s, c⟩ := item
    rw [commands_cons]
    by_cases hc : c = .reset
    · subst hc
      exact ih (h.command_reset s)
    · exact ih (h.command hc)

end Context

/-! ### Unrolling the recursion

A check asks for loads, and a load checks the root that it reads. Here the two call each other
through a parameter, for roots of any kind. -/

namespace Check

/-- A way to carry out loads. -/
abbrev Loading := Library → Node → String → Context → Logged Context

/-- Whether a root is a library of some kind. -/
def isLibrary (what : Library) : Root → Bool
  | .script _ => false
  | .theory _ => what == .theory
  | .logic _ => what == .logic

section

variable (load : Loading) (setup : Setup)

def coreVia (n : Node) (ctx : Context) : Logged Context :=
  if setup.config.coreEnabled && !ctx.coreLoaded then
    load .theory n coreName { ctx with coreLoaded := true }
  else pure ctx

def namedVia (n : Node) (ctx : Context) (name : String) : Logged Context :=
  let name := quoteSymbol name
  let named := { ctx with theories := ctx.theories ++ [name] }
  if name ∈ ctx.theories then do
    Logged.report (n.finding (.libraryAlreadyLoaded .theory name))
    return ctx
  else if name = coreName ∧ ctx.coreLoaded then pure named
  else load .theory n name named

def logicVia (ctx : Context) (s : Spot) (l : Logic) : Logged Context :=
  (l.attributeSpots s).foldlM (fun ctx (s, a) =>
    match a with
    | .theories names => names.foldlM (namedVia load (s.node (.logicAttribute a))) ctx
    | .other _ => pure ctx) ctx

def commandVia (ctx : Context) (s : Spot) (c : Command) : Logged Context :=
  let n := s.node (.command c)
  match c with
  | .reset => coreVia load setup n ctx.reset
  | .setLogic name =>
    match ctx.logic with
    | some current => do
      Logged.report (n.finding (.logicAlreadySet current))
      return ctx
    | none => load .logic n (quoteSymbol name) { ctx with logic := some (quoteSymbol name) }
  | c => ctx.onStack (declarations s c)

/-- Check a root of any kind. -/
def rootVia (ctx : Context) (p : Parsed Root) : Logged Context := do
  let ctx ← if isCore p.tree then pure ctx else coreVia load setup (p.tree.node p.source) ctx
  match p.tree with
  | .script cs =>
    ((Spot.top p.source).along 0 cs).foldlM (fun ctx (s, c) => commandVia load setup ctx s c) ctx
  | .theory t => ctx.onStack (theory · p.spot t)
  | .logic l => logicVia load ctx p.spot l

/-- Libraries of one kind are checked as roots; what they ask for themselves is up to `load`. -/
def rootLoader (what : Library) : Loader Root where
  what := what
  select? r := if isLibrary what r then some r else none
  syntaxCheck s r := SyntaxCheck.root ⟨s.source, r⟩
  enter ctx s r := rootVia load (setup.withCore false) ctx ⟨s.source, r⟩

/-- Carry out a load. -/
def loadVia : Loading := fun what => (rootLoader load setup what).load setup

end

/-- The loads of both kinds. -/
def loads (setup : Setup) : Loading
  | .theory => loadTheory setup
  | .logic => loadLogic setup

theorem coreVia_loads (setup : Setup) : coreVia (loads setup) setup = loadCore setup := rfl

theorem coreVia_withCore (load : Loading) (setup : Setup) (n : Node) (ctx : Context) :
    coreVia load (setup.withCore false) n ctx = pure ctx := rfl

theorem commandVia_loads (setup : Setup) (ctx : Context) (s : Spot) (c : Command) :
    commandVia (loads setup) setup ctx s c = command setup ctx s c := by
  cases c <;> rfl

theorem logicVia_eq_logic {load : Loading} {setup : Setup} (h : load .theory = loadTheory setup) :
    logicVia load = logic setup := by
  have hnamed : namedVia load = namedTheory setup := by
    funext n ctx name
    rw [namedVia, h, namedTheory]
  funext ctx s l
  unfold logicVia logic
  rw [hnamed]
  rfl

theorem rootVia_loads (setup : Setup) (ctx : Context) (p : Parsed Root) :
    rootVia (loads setup) setup ctx p = root setup ctx p := by
  have hlogic : logicVia (loads setup) = logic setup := logicVia_eq_logic rfl
  obtain ⟨source, r⟩ := p
  cases r with
  | script cs => simp only [rootVia, root, script, coreVia_loads, commandVia_loads]
  | theory t => rfl
  | logic l => simp only [rootVia, root, coreVia_loads, hlogic]

/-- Loaders that take the same libraries from files and treat them in the same way. -/
structure Loader.Agrees {α β : Type} (k : Loader β) (l : Loader α) (build : α → β) : Prop where
  what : k.what = l.what
  select? : ∀ r, k.select? r = (l.select? r).map build
  syntaxCheck : ∀ source a, k.syntaxCheck (Parsed.spot ⟨source, build a⟩) (build a) =
    l.syntaxCheck (Parsed.spot ⟨source, a⟩) a
  enter : ∀ ctx source a, k.enter ctx (Parsed.spot ⟨source, build a⟩) (build a) =
    l.enter ctx (Parsed.spot ⟨source, a⟩) a

section

variable {α β : Type} {k : Loader β} {l : Loader α} {build : α → β}

theorem Loader.Agrees.fetch (h : k.Agrees l build) (setup : Setup) (serial : Nat)
    (name : String) : k.fetch setup serial name =
      (l.fetch setup serial name).map fun p => ⟨p.source, build p.tree⟩ := by
  simp only [Loader.fetch, h.what]
  cases setup.files (setup.config.path l.what name) with
  | text text =>
    simp only
    cases parseRoot ⟨some (setup.config.path l.what name), serial⟩ text with
    | error e => rfl
    | ok p =>
      simp only [h.select?]
      cases l.select? p.tree <;> rfl
  | _ => rfl

theorem Loader.Agrees.load (h : k.Agrees l build) (setup : Setup) :
    k.load setup = l.load setup := by
  funext n name ctx
  simp only [Loader.load, h.fetch, h.what]
  cases l.fetch setup ctx.nextSerial name with
  | error problem => rfl
  | ok p =>
    obtain ⟨source, a⟩ := p
    simp only [Except.map, Loader.checked, h.syntaxCheck, h.enter, h.what]

end

/-- A theory loads nothing. -/
theorem loadVia_theory (load : Loading) (setup : Setup) :
    loadVia load setup .theory = loadTheory setup := by
  have hagrees : (rootLoader load setup .theory).Agrees theoryLoader .theory := by
    refine ⟨rfl, fun r => ?_, fun _ _ => rfl, fun ctx source t => ?_⟩
    · cases r <;> rfl
    · show rootVia load (setup.withCore false) ctx ⟨source, .theory t⟩ = _
      simp only [rootVia, coreVia_withCore, ite_self, pure_bind]
      rfl
  exact hagrees.load setup

/-- A logic loads theories only. -/
theorem loadVia_logic {load : Loading} {setup : Setup} (h : load .theory = loadTheory setup) :
    loadVia load setup .logic = loadLogic setup := by
  have hagrees : (rootLoader load setup .logic).Agrees (logicLoader setup) .logic := by
    refine ⟨rfl, fun r => ?_, fun _ _ => rfl, fun ctx source l => ?_⟩
    · cases r <;> rfl
    · show rootVia load (setup.withCore false) ctx ⟨source, .logic l⟩ = _
      simp only [rootVia, coreVia_withCore, ite_self, pure_bind, logicVia_eq_logic h]
      rfl
  exact hagrees.load setup

/-- The recursion between checks and loads, unrolled to some depth. -/
def unrolled (setup : Setup) (load : Loading) : Nat → Loading
  | 0 => load
  | depth + 1 => loadVia (unrolled setup load depth) setup

/-- Two levels are enough: no load asks for a third one. -/
theorem unrolled_eq_loads (setup : Setup) (load : Loading) (depth : Nat) :
    unrolled setup load (depth + 2) = loads setup := by
  funext what
  cases what with
  | theory => exact loadVia_theory _ setup
  | logic => exact loadVia_logic (loadVia_theory _ setup)

end Check

namespace Context

open Check

variable {setup : Setup} {ctx : Context} {base : List Load}

/-- The records when no load is under way: at most one other load was under way when a load was
started. -/
structure Settled (ctx : Context) : Prop where
  loading : ctx.loading = []
  theories : ctx.theories.Nodup
  nesting : ∀ load ∈ ctx.loads, load.within.length ≤ 1

theorem Orderly.settled (h : ctx.Orderly [] base) : ctx.Settled :=
  ⟨h.loading, h.theories, h.nesting⟩

theorem Orderly.exists_new (h : ctx.Orderly [] base) :
    ∃ new, ctx.loads = new ++ base ∧ (theoryNames new).Nodup := by
  obtain ⟨new, hloads, hnodup, -⟩ := h.once
  exact ⟨new, hloads, hnodup⟩

theorem Orderly.nodup_theoryNames (h : ctx.Orderly [] []) : (theoryNames ctx.loads).Nodup := by
  obtain ⟨new, hloads, hnodup⟩ := h.exists_new
  rwa [hloads, List.append_nil]

/-- After a reset, each theory is loaded once again at most. -/
theorem Orderly.commands_reset (h : ctx.Orderly [] base) (past : List (Spot × Command)) (s : Spot)
    {cs : List (Spot × Command)} (hreset : ∀ item ∈ cs, item.2 ≠ .reset) :
    (Check.commands setup ctx (past ++ (s, .reset) :: cs)).value.Orderly []
      (Check.commands setup ctx past).value.loads := by
  obtain ⟨base, hpast⟩ : ∃ base, (Check.commands setup ctx past).value.Orderly [] base :=
    h.exists_commands past
  have hrun : Check.commands setup ctx (past ++ (s, .reset) :: cs) =
      Check.commands setup ctx past >>= fun ctx => Check.command setup ctx s .reset >>= fun ctx =>
        Check.commands setup ctx cs := by
    simp only [Check.commands, List.foldlM_append, List.foldlM_cons]
  rw [hrun]
  exact (hpast.command_reset s).commands hreset

end Context

namespace Check

theorem orderly_start (setup : Setup) (n : Node) :
    (loadCore setup n .fresh).value.Orderly [] [] :=
  Context.orderly_fresh.loadCore rfl n

/-- All loads count unless there is a reset. -/
theorem exists_orderly_root (setup : Setup) (p : Parsed Root) :
    ∃ base, (root setup .fresh p).value.Orderly [] base ∧
      ((∀ item ∈ commandSpots p, item.2 ≠ .reset) → base = []) := by
  obtain ⟨source, r⟩ := p
  rw [root_eq]
  cases r with
  | script cs =>
    have hstart := orderly_start setup (Root.node source (.script cs))
    by_cases hreset : ∀ item ∈ (Spot.top source).along 0 cs, item.2 ≠ .reset
    · exact ⟨[], hstart.commands hreset, fun _ => rfl⟩
    · obtain ⟨base, h⟩ := hstart.exists_commands ((Spot.top source).along 0 cs)
      exact ⟨base, h, fun hnone => absurd hnone hreset⟩
  | theory t =>
    have hstart : (if isCore (.theory t) then pure .fresh
        else loadCore setup (Root.node source (.theory t)) .fresh).value.Orderly [] [] := by
      split
      · exact Context.orderly_fresh
      · exact orderly_start setup _
    exact ⟨[], ⟨hstart.loading, hstart.theories, hstart.nesting, hstart.once⟩, fun _ => rfl⟩
  | logic l => exact ⟨[], (orderly_start setup _).logic (Nat.zero_le 1) _ l, fun _ => rfl⟩

/-- The context after the first commands of a root. -/
def reached (setup : Setup) (p : Parsed Root) (past : List (Spot × Command)) : Context :=
  (commands setup (loadCore setup (p.tree.node p.source) .fresh).value past).value

/-- Checks and loads end at the second level of nesting, whatever stands in the files; no load is
under way after a command, no theory is listed twice, and none is loaded twice between two resets.
A load that ends in a message about its own library leaves the declarations alone. -/
theorem settled_root (setup : Setup) (p : Parsed Root) :
    (∀ (load : Loading) (depth : Nat) (ctx : Context),
      rootVia (unrolled setup load (depth + 2)) setup ctx p = root setup ctx p) ∧
    (root setup .fresh p).value.Settled ∧
    ((∀ item ∈ commandSpots p, item.2 ≠ .reset) →
      (theoryNames (root setup .fresh p).value.loads).Nodup) ∧
    (∀ past, past <+: commandSpots p →
      (reached setup p past).Settled ∧
      ((∀ item ∈ past, item.2 ≠ .reset) → (theoryNames (reached setup p past).loads).Nodup) ∧
      ∀ earlier s recent, past = earlier ++ (s, .reset) :: recent →
        (∀ item ∈ recent, item.2 ≠ .reset) →
        ∃ new, (reached setup p past).loads = new ++ (reached setup p earlier).loads ∧
          (theoryNames new).Nodup) ∧
    ∀ (n : Node) (name : String) (ctx : Context) (f : Finding),
      (∀ what, (loads setup what n name ctx).findings.getLast? = some f →
        f.problem.refused? = some (what, name) →
        (loads setup what n name ctx).value.stack = ctx.stack) ∧
      ((namedTheory setup n ctx name).findings.getLast? = some f →
        f.problem.refused? = some (.theory, quoteSymbol name) →
        (namedTheory setup n ctx name).value.stack = ctx.stack) := by
  obtain ⟨base, hroot, hbase⟩ := exists_orderly_root setup p
  have hstart := orderly_start setup (p.tree.node p.source)
  refine ⟨fun load depth ctx => ?_, hroot.settled, fun hreset => ?_, fun past _ => ?_,
    fun n name ctx f => ⟨fun what hf hrefused => ?_, stack_namedTheory_of_refused⟩⟩
  · rw [unrolled_eq_loads, rootVia_loads]
  · rw [hbase hreset] at hroot
    exact hroot.nodup_theoryNames
  · obtain ⟨base, hpast⟩ := hstart.exists_commands past
    refine ⟨hpast.settled, fun hreset => (hstart.commands hreset).nodup_theoryNames, ?_⟩
    rintro earlier s recent rfl hreset
    exact (hstart.commands_reset earlier s hreset).exists_new
  · cases what with
    | theory => exact stack_loadTheory_of_refused hf hrefused
    | logic => exact stack_loadLogic_of_refused hf hrefused

/-- A theory, and a logic that names it twice, next to the core theory and itself. -/
def shelf : Setup where
  config := .standard
  files path :=
    if path = "theories/Core.smt2" then .text "(theory Core :sorts ((Bool 0)))"
    else if path = "theories/T.smt2" then .text "(theory T :sorts ((A 0)))"
    else if path = "logics/L.smt2" then .text "(logic L :theories (T Core T L))"
    else .missing

/-- The logic is set, and set again after a reset. -/
def setTwice : Parsed Root :=
  ⟨⟨.nowhere, [], []⟩, .script [.setLogic "L", .reset, .setLogic "L"]⟩

theorem settled_root_setTwice :
    let cs := commandSpots setTwice
    let whole := reached shelf setTwice cs
    let first := reached shelf setTwice (cs.take 1)
    let n := setTwice.tree.node setTwice.source
    theoryNames whole.loads = ["T", "Core", "T", "Core"] ∧
    (∃ new, whole.loads = new ++ first.loads ∧ (theoryNames new).Nodup) ∧
    (theoryNames first.loads).Nodup ∧
    ((loads shelf .logic n "M" first).findings.getLast?.bind (·.problem.refused?) =
      some (.logic, "M") ∧ (loads shelf .logic n "M" first).value.stack = first.stack) := by
  intro cs whole first n
  obtain ⟨-, -, -, hcommands, hloads⟩ := settled_root shelf setTwice
  have hsplit : cs = cs.take 1 ++ ((Spot.top setTwice.source).item 1, .reset) :: cs.drop 2 := rfl
  obtain ⟨-, -, hwhole⟩ := hcommands cs List.prefix_rfl
  obtain ⟨-, hfirst, -⟩ := hcommands (cs.take 1) (List.take_prefix 1 cs)
  have hlast : (loads shelf .logic n "M" first).findings.getLast?.bind (·.problem.refused?) =
      some (.logic, "M") := by decide +kernel
  obtain ⟨f, hf, hrefused⟩ := Option.bind_eq_some_iff.mp hlast
  refine ⟨by decide +kernel, ?_, ?_, hlast, ?_⟩
  · exact hwhole (cs.take 1) _ (cs.drop 2) hsplit (by decide)
  · exact hfirst (by decide)
  · exact (hloads n "M" first f).1 .logic hf hrefused

end Check

end WellSorted
