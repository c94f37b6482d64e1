import WellSorted.Proofs.Origins

/-!
# Transparent aliases

Only `define-sort` enters aliases. As long as nothing is found, each alias that is entered is
recorded (`Declaration.Recorded`): it is the one that a definition declares, so what entering such
declarations and opening scopes keeps up holds throughout the stack (`Context.throughout_runAll`).
In particular each alias is that of a definition in a stack whose sorts are all still there, so an
alias that spares its parameters stands for its definition as it was written
(`Context.expand_alias`).
-/

namespace WellSorted

/-- Whether a declaration is no alias, or the one of a definition without findings. -/
def Declaration.Recorded (G : Stack) : Declaration → Prop
  | .sort d => d.definition.isSome = true → ∃ name params body,
      d.node.part = .command (.defineSort name params body) ∧
        d = G.aliasFor d.node name params body ∧
        G.checkSort (params.map quoteSymbol) d.node body = []
  | .function _ => True
  | .var _ => True

theorem Declaration.OfTheory.recorded {d : Declaration} (h : d.OfTheory) (G : Stack) :
    d.Recorded G := by
  cases d with
  | sort d =>
    intro halias
    rw [show d.definition = none from h] at halias
    cases halias
  | function f => trivial
  | var v => trivial

theorem Declaration.Arises.recorded {s : Spot} {c : Command} {G : Stack} {d : Declaration}
    (h : d.Arises True s c G) : d.Recorded G := by
  cases h with
  | theory hd => exact hd.recorded G
  | symbol hd => exact OfTheory.recorded (d := .sort _) hd G
  | aliasOf hc hcheck => exact fun _ => ⟨_, _, _, congrArg Part.command hc, rfl, hcheck trivial⟩
  | function _ _ _ => trivial
  | datatype _ _ he => cases he <;> trivial

namespace Stack

/-- Whether a stack is another one with recorded declarations entered. -/
abbrev Records (G H : Stack) : Prop := G.Entered Declaration.Recorded H

theorem Extended.records {G H : Stack} (h : G.Extended H) : G.Records H :=
  h.mono fun G _ hd => hd.recorded G

end Stack

/-- A command without findings enters recorded declarations, opens scopes or leaves scopes. -/
theorem Context.moves_recorded {setup : Setup} {ctx : Context} {s : Spot} {c : Command}
    (hreset : c ≠ .reset) (h : (Check.command setup ctx s c).findings = []) :
    ctx.stack.Moves Declaration.Recorded (Check.command setup ctx s c).value.stack :=
  (moves_arises hreset fun _ : True => h).mono fun _ _ => Declaration.Arises.recorded

/-! ### Runs without findings -/

namespace Stack

/-- A property of stacks that entering recorded declarations and opening scopes keeps up. -/
structure RunInvariant (I : Stack → Prop) : Prop where
  empty : I .empty
  insert {G K : Stack} {d : Declaration} : I G → d.Recorded G → G.insert d = .ok K → I K
  push {G : Stack} : I G → I G.push

variable {I : Stack → Prop} {G H : Stack}

theorem RunInvariant.records (hI : RunInvariant I) (hG : G.Throughout I) (h : G.Records H) :
    H.Throughout I := by
  induction h with
  | refl => exact hG
  | insert _ hd hinsert ih => exact ih.insert hinsert (hI.insert ih.here hd hinsert)

theorem RunInvariant.moves (hI : RunInvariant I) (hG : G.Throughout I)
    (h : G.Moves Declaration.Recorded H) : H.Throughout I := by
  cases h with
  | entered h => exact hI.records hG h
  | pushed n => exact hG.pushMany (fun _ => hI.push) n
  | popped h => exact hG.pop h

theorem RunInvariant.throughout_empty (hI : RunInvariant I) : Stack.empty.Throughout I :=
  throughout_of_outer_eq_nil rfl hI.empty

end Stack

namespace Context

open Check Stack

variable {setup : Setup} {ctx : Context} {I : Stack → Prop}

theorem throughout_command (hI : RunInvariant I) {s : Spot} {c : Command}
    (hctx : ctx.stack.Throughout I) (h : (command setup ctx s c).findings = []) :
    (command setup ctx s c).value.stack.Throughout I := by
  by_cases hreset : c = .reset
  · subst hreset
    exact hI.records hI.throughout_empty (extended_loadCore ctx.reset).records
  · exact hI.moves hctx (moves_recorded hreset h)

theorem throughout_contents (hI : RunInvariant I) {p : Parsed Root} (hctx : ctx.stack.Throughout I)
    (h : (contents setup p ctx).findings = []) :
    (contents setup p ctx).value.stack.Throughout I := by
  obtain ⟨source, tree⟩ := p
  cases tree with
  | script cs =>
    exact Logged.foldlM_inv (Q := fun ctx : Context => ctx.stack.Throughout I)
      (fun _ : True => h) (fun item _ ctx hctx hitem => throughout_command hI hctx (hitem trivial))
      hctx
  | theory t => exact hI.records hctx (ctx.stack.extended_theory _ t).records
  | logic l => exact hI.records hctx (extended_logic ctx _ l).records

theorem throughout_root (hI : RunInvariant I) {p : Parsed Root} (hctx : ctx.stack.Throughout I)
    (h : (root setup ctx p).findings = []) : (root setup ctx p).value.stack.Throughout I := by
  rw [root_eq, Logged.findings_bind, List.append_eq_nil_iff] at h
  rw [root_eq, Logged.value_bind]
  refine throughout_contents hI ?_ h.2
  split
  · exact hctx
  · exact hI.records hctx (extended_loadCore ctx).records

/-- Carry out an action. -/
def run (ctx : Context) : Action → Logged Context
  | .command setup s c => Check.command setup ctx s c
  | .root setup p => Check.root setup ctx p

/-- Carry out actions one after another, from the start. -/
def runAll (actions : List Action) : Logged Context := actions.foldlM run fresh

theorem value_runAll (actions : List Action) : (runAll actions).value = after actions := by
  suffices hfold : ∀ ctx : Context, (actions.foldlM run ctx).value = actions.foldl act ctx from
    hfold fresh
  induction actions with
  | nil => exact fun ctx => rfl
  | cons action actions ih =>
    intro ctx
    rw [List.foldlM_cons, Logged.value_bind, ih]
    cases action with
    | command setup s c => rfl
    | root setup p => rfl

/-- A run without findings keeps an invariant up in all scopes. -/
theorem throughout_runAll (hI : RunInvariant I) {actions : List Action}
    (h : (runAll actions).findings = []) : (runAll actions).value.stack.Throughout I := by
  refine Logged.foldlM_inv (Q := fun ctx : Context => ctx.stack.Throughout I)
    (fun _ : True => h) (fun action _ ctx hctx haction => ?_) hI.throughout_empty
  cases action with
  | command setup s c => exact throughout_command hI hctx (haction trivial)
  | root setup p => exact throughout_root hI hctx (haction trivial)

end Context

/-! ### Where aliases come from -/

namespace Stack

/-- Whether each declaration is recorded in a stack whose sorts are all still there. -/
def Traced (G : Stack) : Prop := ∀ d, G.Has d → ∃ H : Stack, H.Keeps G ∧ d.Recorded H

theorem runInvariant_traced : RunInvariant Traced where
  empty := fun d hd => absurd hd (not_has_empty d)
  insert := by
    intro G K d hG hd h e he
    rcases (has_of_insert h).mp he with he | rfl
    · obtain ⟨H, hkeeps, hrecorded⟩ := hG e he
      exact ⟨H, hkeeps.trans (keeps_of_insert h), hrecorded⟩
    · exact ⟨G, keeps_of_insert h, hd⟩
  push := fun hG d hd => hG d (has_push.mp hd)

end Stack

theorem Context.traced_runAll {actions : List Action} (h : (runAll actions).findings = []) :
    (runAll actions).value.stack.Throughout Stack.Traced :=
  throughout_runAll Stack.runInvariant_traced h

/-! ### What aliases stand for -/

namespace Stack

/-- Whether a name stands for the alias that a definition introduced. -/
def DefinedBy (G : Stack) (name : String) (params : List String) (body : SmtSort) : Prop :=
  ∃ d, G.sort? (quoteSymbol name) = some d ∧ d.definition.isSome = true ∧
    d.node.part = .command (.defineSort name params body)

theorem definedBy_iff {G : Stack} {name : String} {params : List String} {body : SmtSort} :
    G.DefinedBy name params body ↔
      (G.sort? (quoteSymbol name)).map (fun d => (d.definition.isSome, d.node.part)) =
        some (true, .command (.defineSort name params body)) := by
  rw [Option.map_eq_some_iff]
  simp only [DefinedBy, Prod.mk.injEq]

/-- What the alias of a definition stands for on some arguments. -/
theorem Traced.applySort_of_definedBy {G : Stack} (hG : G.Traced) {name : String}
    {params : List String} {body : SmtSort} (h : G.DefinedBy name params body)
    (hparams : PlainParams params) {args : List SmtSort} (hargs : args.length = params.length) :
    G.applySort (.simple name) args =
      (G.resolve params body).replace (.ofArguments params args) := by
  obtain ⟨d, hd, hdef, hnode⟩ := h
  obtain ⟨H, hkeeps, hrecorded⟩ := hG _ (has_of_sort? hd)
  obtain ⟨name', params', body', hnode', halias, hcheck⟩ := hrecorded hdef
  rw [hnode] at hnode'
  cases hnode'
  rw [applySort, Identifier.key_simple, hd, halias, ← resolve_of_keeps hkeeps hcheck]
  simp only [aliasFor, hparams.map_quoteSymbol, Option.bind_some, SortDecl.definedAs?,
    SortDecl.aliasOf, hargs, if_true, Option.getD_some]

end Stack

namespace Context

/-- In every state that was reached without a finding, an alias resolves to what its definition
resolves to with the arguments in place of the parameters. The parameters are written without bars,
and the aliases in the definition spare them. -/
theorem expand_alias {actions : List Action} (hquiet : (runAll actions).findings = [])
    {name : String} {params : List String} {body : SmtSort}
    (hdefined : (runAll actions).value.stack.DefinedBy name params body)
    (hparams : PlainParams params)
    (hspares : (runAll actions).value.stack.spares params body = true) {args : List SmtSort}
    (hargs : args.length = params.length) :
    let G := (runAll actions).value.stack
    G.expand (.mk (.simple name) args) = G.expand (body.replace (.ofArguments params args)) := by
  intro G
  have hG : G.Traced := (traced_runAll hquiet).here
  rw [Stack.expand_mk, hG.applySort_of_definedBy hdefined hparams (by rw [List.length_map, hargs]),
    Subst.ofArguments_map, Stack.replace_resolve (Subst.total_ofArguments hargs.symm) hspares]

/-- An alias of an alias, in an inner scope. -/
def swapScript : List Action :=
  [.root Check.bare ⟨⟨.nowhere, [], []⟩, .script
    [.declareSort "A" 0, .declareSort "Pair" 2,
      .defineSort "Swap" ["p", "q"] (.mk (.simple "Pair") [.simple "q", .simple "p"]), .push 1,
      .defineSort "F" ["p"] (.mk (.simple "Swap") [.simple "p", .simple "A"])]⟩]

theorem expand_alias_swap :
    let G := (runAll swapScript).value.stack
    (runAll swapScript).findings = [] ∧
      ∀ t, G.expand (.mk (.simple "F") [t]) = G.expand (.mk (.simple "Swap") [t, .simple "A"]) := by
  intro G
  have hquiet : (runAll swapScript).findings = [] := by decide +kernel
  have hdefined : G.DefinedBy "F" ["p"] (.mk (.simple "Swap") [.simple "p", .simple "A"]) :=
    Stack.definedBy_iff.mpr rfl
  exact ⟨hquiet, fun t => expand_alias hquiet hdefined (by decide) (by decide +kernel) rfl⟩

/-- The parameter of `F` has the name of a sort that the definition of `G` refers to. -/
def captureScript : List Action :=
  [.root Check.bare ⟨⟨.nowhere, [], []⟩, .script
    [.declareSort "A" 0, .declareSort "p" 0, .declareSort "Pair" 2,
      .defineSort "G" ["q"] (.mk (.simple "Pair") [.simple "q", .simple "p"]),
      .defineSort "F" ["p"] (.mk (.simple "G") [.simple "p"])]⟩]

/-- The sort of that name is taken for the parameter. -/
theorem expand_alias_ne_of_capture :
    let G := (runAll captureScript).value.stack
    let body := SmtSort.mk (.simple "G") [.simple "p"]
    (runAll captureScript).findings = [] ∧ G.DefinedBy "F" ["p"] body ∧ PlainParams ["p"] ∧
      G.expand (.mk (.simple "F") [.simple "A"]) = .mk (.simple "Pair") [.simple "A", .simple "A"] ∧
      G.expand (body.replace (.ofArguments ["p"] [.simple "A"])) =
        .mk (.simple "Pair") [.simple "A", .simple "p"] := by
  intro G body
  have hquiet : (runAll captureScript).findings = [] := by decide +kernel
  exact ⟨hquiet, Stack.definedBy_iff.mpr rfl, by decide, by decide +kernel⟩

end Context

end WellSorted
