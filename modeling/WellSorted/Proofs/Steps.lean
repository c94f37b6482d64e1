import WellSorted.Proofs.Entering

/-!
# Steps of a check

Loading a theory or a logic enters declarations into the innermost scope and nothing else
(`Context.Grows`). A command enters declarations, opens scopes or leaves scopes (`Stack.Moves`);
only `reset` starts again from an empty stack. What a load enters is checked if no message was
recorded and the theories that were loaded have plain sort parameters.
-/

namespace WellSorted

/-- Whether the theories among the loads have plain sort parameters. -/
def Setup.PlainLoads (setup : Setup) (loads : List Load) : Prop :=
  ∀ load ∈ loads, load.what = .theory → ∀ serial p,
    Check.theoryLoader.fetch setup serial load.name = .ok p → p.tree.Plain

/-- What loading does to a context. -/
structure Context.Grows (setup : Setup) (clean : Prop) (ctx ctx' : Context) : Prop where
  loads : ctx.loads ⊆ ctx'.loads
  stack : ctx.stack.Entered (Introduces (clean ∧ setup.PlainLoads ctx'.loads)) ctx'.stack

namespace Context

variable {setup : Setup} {clean : Prop}

theorem Grows.refl (ctx : Context) : ctx.Grows setup clean ctx :=
  ⟨List.Subset.refl _, .refl⟩

theorem Grows.trans {ctx ctx' ctx'' : Context} (h : ctx.Grows setup clean ctx')
    (h' : ctx'.Grows setup clean ctx'') : ctx.Grows setup clean ctx'' := by
  refine ⟨List.Subset.trans h.loads h'.loads, (h.stack.mono (Introduces.mono ?_)).trans h'.stack⟩
  exact fun hclean => ⟨hclean.1, fun load hload => hclean.2 load (h'.loads hload)⟩

theorem grows_foldlM {α : Type} {f : Context → α → Logged Context} {l : List α} {ctx : Context}
    (h : clean → (l.foldlM f ctx).findings = [])
    (hstep : ∀ a ∈ l, ∀ ctx', (clean → (f ctx' a).findings = []) →
      ctx'.Grows setup clean (f ctx' a).value) :
    ctx.Grows setup clean (l.foldlM f ctx).value :=
  Logged.foldlM_rel (R := Grows setup clean) .refl (fun _ _ _ => .trans) h
    fun a ha ctx' _ hclean => hstep a ha ctx' hclean

/-! ### Loading -/

section

open Check

theorem load_of_fetch {α : Type} {l : Loader α} {n : Node} {name : String} {ctx : Context}
    {p : Parsed α} (hloading : (l.what, name) ∉ ctx.loading)
    (hfetch : l.fetch setup ctx.nextSerial name = .ok p) : l.load setup n name ctx = (do
      let ctx ← l.checked n name p (ctx.startLoad l.what name)
      return ctx.endLoad l.what name) := by
  rw [Loader.load, if_neg hloading, hfetch]

/-- A load without findings enters what was read. -/
theorem load_of_findings {α : Type} {l : Loader α} {n : Node} {name : String} {ctx : Context}
    (h : (l.load setup n name ctx).findings = []) : ∃ p,
      l.fetch setup ctx.nextSerial name = .ok p ∧
      (l.enter (ctx.startLoad l.what name) p.spot p.tree).findings = [] ∧
      (l.load setup n name ctx).value =
        (l.enter (ctx.startLoad l.what name) p.spot p.tree).value.endLoad l.what name := by
  unfold Loader.load at h ⊢
  split at h
  · cases h
  · next hloading =>
    rw [if_neg hloading]
    cases hfetch : l.fetch setup ctx.nextSerial name with
    | error problem =>
      rw [hfetch] at h
      cases h
    | ok p =>
      simp only [hfetch, Loader.checked] at h ⊢
      cases hlegal : l.syntaxCheck p.spot p.tree with
      | cons f fs => simp [hlegal, Logged.reportAll] at h
      | nil =>
        simp only [hlegal, Logged.findings_bind, List.append_eq_nil_iff] at h
        exact ⟨p, rfl, h.1, rfl⟩

/-- A load grows a context if entering what was read does. -/
theorem grows_load {α : Type} {l : Loader α} {n : Node} {name : String} {ctx : Context}
    (henter : ∀ ctx' serial p, l.fetch setup serial name = .ok p →
      (∃ load ∈ ctx'.loads, load.what = l.what ∧ load.name = name) →
      (clean → (l.enter ctx' p.spot p.tree).findings = []) →
      ctx'.Grows setup clean (l.enter ctx' p.spot p.tree).value)
    (h : clean → (l.load setup n name ctx).findings = []) :
    ctx.Grows setup clean (l.load setup n name ctx).value := by
  unfold Loader.load at h ⊢
  split
  · exact .refl ctx
  · next hloading =>
    rw [if_neg hloading] at h
    cases hfetch : l.fetch setup ctx.nextSerial name with
    | error problem => exact .refl ctx
    | ok p =>
      rw [hfetch] at h
      have hstart : ctx.Grows setup clean (ctx.startLoad l.what name) :=
        ⟨List.subset_cons_self _ _, .refl⟩
      have hchecked : (ctx.startLoad l.what name).Grows setup clean
          (l.checked n name p (ctx.startLoad l.what name)).value := by
        simp only [Loader.checked] at h ⊢
        cases hlegal : l.syntaxCheck p.spot p.tree with
        | cons f fs => exact .refl _
        | nil =>
          rw [hlegal] at h
          refine henter _ _ p hfetch ⟨_, List.mem_cons_self, rfl, rfl⟩ fun hclean => ?_
          exact (List.append_eq_nil_iff.mp (h hclean)).1
      have hall := hstart.trans hchecked
      exact ⟨hall.loads, hall.stack⟩

theorem grows_loadTheory {n : Node} {name : String} {ctx : Context}
    (h : clean → (loadTheory setup n name ctx).findings = []) :
    ctx.Grows setup clean (loadTheory setup n name ctx).value := by
  refine grows_load (fun ctx' serial p hfetch hload hclean => ⟨List.Subset.refl _, ?_⟩) h
  obtain ⟨load, hmem, hwhat, hname⟩ := hload
  refine Stack.entered_theory (fun hplain => ?_) fun hplain => ?_
  · exact hplain.2 load hmem hwhat serial p (by rw [hname]; exact hfetch)
  · exact (List.append_eq_nil_iff.mp (hclean hplain.1)).1

theorem grows_loadCore {n : Node} {ctx : Context}
    (h : clean → (loadCore setup n ctx).findings = []) :
    ctx.Grows setup clean (loadCore setup n ctx).value := by
  unfold loadCore at h ⊢
  split
  · next henabled =>
    rw [if_pos henabled] at h
    have hload := grows_loadTheory h
    exact ⟨hload.loads, hload.stack⟩
  · exact .refl ctx

theorem grows_namedTheory {n : Node} {ctx : Context} {name : String}
    (h : clean → (namedTheory setup n ctx name).findings = []) :
    ctx.Grows setup clean (namedTheory setup n ctx name).value := by
  simp only [namedTheory] at h ⊢
  split
  · exact .refl ctx
  · next hnew =>
    rw [if_neg hnew] at h
    split
    · exact ⟨List.Subset.refl _, .refl⟩
    · next hcore =>
      rw [if_neg hcore] at h
      have hload := grows_loadTheory h
      exact ⟨hload.loads, hload.stack⟩

theorem grows_logic {ctx : Context} {s : Spot} {l : Logic}
    (h : clean → (Check.logic setup ctx s l).findings = []) :
    ctx.Grows setup clean (Check.logic setup ctx s l).value := by
  refine grows_foldlM (f := logicAttribute setup) h fun item _ ctx' hclean => ?_
  obtain ⟨s, a⟩ := item
  cases a with
  | theories names =>
    exact grows_foldlM (f := namedTheory setup _) hclean fun _ _ _ hname => grows_namedTheory hname
  | other a => exact .refl ctx'

theorem grows_setLogic {n : Node} {name : String} {ctx : Context}
    (h : clean → (setLogic setup n name ctx).findings = []) :
    ctx.Grows setup clean (setLogic setup n name ctx).value := by
  unfold setLogic at h ⊢
  cases hlogic : ctx.logic with
  | some current => exact .refl ctx
  | none =>
    rw [hlogic] at h
    have hload : Grows setup clean { ctx with logic := some (quoteSymbol name) } _ :=
      grows_load (fun _ _ _ _ _ hclean => grows_logic hclean) h
    exact ⟨hload.loads, hload.stack⟩

end

end Context

/-! ### Commands -/

/-- The lists of sort parameters that a command introduces. -/
def Command.sortParams : Command → List (List String)
  | .declareDatatype _ dec => [dec.params]
  | .declareDatatypes _ decs => decs.map (·.params)
  | .defineSort _ params _ => [params]
  | _ => []

/-- Whether the sort parameters of a command are written without bars, and are not more than a sort
can take. -/
def Command.Plain (c : Command) : Prop :=
  ∀ params ∈ c.sortParams, PlainParams params ∧ params.length ≤ SortDecl.maxArity

/-- What a command does to a stack. -/
inductive Stack.Moves (P : Stack → Declaration → Prop) (G : Stack) : Stack → Prop
  | entered {H : Stack} : G.Entered P H → G.Moves P H
  | pushed (n : Nat) : G.Moves P (G.pushMany n)
  | popped {n : Nat} {H : Stack} : G.pop? n = some H → G.Moves P H

theorem Stack.Moves.mono {P Q : Stack → Declaration → Prop} (hPQ : ∀ H d, P H d → Q H d)
    {G H : Stack} (h : G.Moves P H) : G.Moves Q H := by
  cases h with
  | entered h => exact .entered (h.mono hPQ)
  | pushed n => exact .pushed n
  | popped h => exact .popped h

theorem SyntaxCheck.require_eq_nil {holds : Bool} {n : Node} {p : Problem} :
    require holds n p = [] ↔ holds = true := by
  cases holds <;> simp [require]

theorem SyntaxCheck.arity_of_datatypeArities {n : Node} {sorts : List SortDec}
    {decs : List DatatypeDec} (h : datatypeArities n sorts decs = []) :
    ∀ d ∈ sorts.zip decs, d.1.arity = d.2.params.length := by
  intro d hd
  have hrequire : require _ _ _ = [] := List.flatMap_eq_nil_iff.mp h d hd
  exact eq_of_beq (require_eq_nil.mp hrequire)

namespace Stack

section

open Check

variable {clean : Prop} {G : Stack} {s : Spot}

theorem moves_push {P : Stack → Declaration → Prop} {n : Node} {levels : Nat} :
    G.Moves P (Check.push G n levels).value := by
  unfold Check.push
  split
  · exact .pushed levels
  · exact .entered .refl

theorem moves_pop {P : Stack → Declaration → Prop} {n : Node} {levels : Nat} :
    G.Moves P (Check.pop G n levels).value := by
  unfold Check.pop
  cases h : G.pop? levels with
  | some H => exact .popped h
  | none => exact .entered .refl

theorem moves_declarations {c : Command} (hc : clean → c.Plain)
    (hlegal : clean → SyntaxCheck.command s c = []) (hbool : clean → G.Formed [] .bool)
    (h : clean → (declarations s c G).findings = []) :
    G.Moves (Introduces clean) (declarations s c G).value := by
  cases c with
  | declareConst name sort => exact .entered (entered_declareFun h)
  | declareFun name args result => exact .entered (entered_declareFun h)
  | declareSort name arity => exact .entered entered_declareSort
  | declareDatatype name dec =>
    refine .entered (entered_declareDatatypes hbool (fun hclean d hd => ?_) h)
    obtain ⟨hparams, hmax⟩ := hc hclean dec.params (List.mem_singleton_self _)
    rw [List.mem_singleton.mp hd]
    exact ⟨rfl, hmax, hparams⟩
  | declareDatatypes sorts decs =>
    refine .entered (entered_declareDatatypes hbool (fun hclean d hd => ?_) h)
    obtain ⟨hparams, hmax⟩ := hc hclean d.2.params (List.mem_map_of_mem (List.of_mem_zip hd).2)
    have hnil := hlegal hclean
    simp only [SyntaxCheck.command, List.append_eq_nil_iff] at hnil
    exact ⟨SyntaxCheck.arity_of_datatypeArities hnil.1.1.2 d hd, hmax, hparams⟩
  | defineConst name sort t => exact .entered (entered_defineFun h)
  | defineFun dec t => exact .entered (entered_defineFun h)
  | defineFunRec dec t => exact .entered (entered_defineFun h)
  | defineFunsRec decs ts => exact .entered (entered_defineFunsRec h)
  | defineSort name params sort =>
    refine .entered (entered_defineSort (fun hclean => ?_) h)
    exact (hc hclean params (List.mem_singleton_self _)).1
  | push levels => exact moves_push
  | pop levels => exact moves_pop
  | _ => exact .entered .refl

end

end Stack

/-- What a command does to a context. -/
structure Context.Moves (setup : Setup) (clean : Prop) (ctx ctx' : Context) : Prop where
  loads : ctx.loads ⊆ ctx'.loads
  stack : ctx.stack.Moves (Introduces (clean ∧ setup.PlainLoads ctx'.loads)) ctx'.stack

namespace Context

variable {setup : Setup} {clean : Prop} {ctx : Context} {s : Spot}

theorem Grows.moves {ctx' : Context} (h : ctx.Grows setup clean ctx') :
    ctx.Moves setup clean ctx' :=
  ⟨h.loads, .entered h.stack⟩

theorem moves_command {c : Command} (hreset : c ≠ .reset) (hc : clean → c.Plain)
    (hlegal : clean → SyntaxCheck.command s c = [])
    (hbool : clean → ctx.stack.Formed [] .bool)
    (h : clean → (Check.command setup ctx s c).findings = []) :
    ctx.Moves setup clean (Check.command setup ctx s c).value := by
  have hstack : (clean → (ctx.onStack (Check.declarations s c)).findings = []) →
      ctx.Moves setup clean (ctx.onStack (Check.declarations s c)).value := fun h =>
    ⟨List.Subset.refl _, Stack.Moves.mono (Introduces.mono And.left) <|
      Stack.moves_declarations hc hlegal hbool
        fun hclean => (List.append_eq_nil_iff.mp (h hclean)).1⟩
  cases c with
  | reset => exact absurd rfl hreset
  | setLogic name => exact (grows_setLogic h).moves
  | _ => exact hstack h

/-- A command that is no reset moves the stack, whatever is found. -/
theorem moves_of_ne_reset {c : Command} (hreset : c ≠ .reset) :
    ctx.Moves setup False (Check.command setup ctx s c).value :=
  moves_command hreset False.elim False.elim False.elim False.elim

end Context

/-! ### Roots -/

namespace Check

/-- Check what a root holds, after the core theory. -/
def contents (setup : Setup) (p : Parsed Root) (ctx : Context) : Logged Context :=
  match p.tree with
  | .script cs => script setup ctx p.source cs
  | .theory t => ctx.onStack (theory · p.spot t)
  | .logic l => logic setup ctx p.spot l

theorem root_eq (setup : Setup) (ctx : Context) (p : Parsed Root) :
    root setup ctx p = (if isCore p.tree then pure ctx
      else loadCore setup (p.tree.node p.source) ctx) >>= contents setup p := by
  unfold root
  cases isCore p.tree <;> rfl

end Check

end WellSorted
