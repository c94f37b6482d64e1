import WellSorted.Bundle.Directory
import WellSorted.Proofs.RoundTrip
import WellSorted.Proofs.Steps

/-!
# Well-formed declarations

While a script runs without a message, on top of the bundled core theory and with plain sort
parameters, all declarations are made of formed sorts, and so is every sort that is inferred. A
stack has to be well formed in all of its scopes, so that it stays so when scopes are left. The
tester of a constructor needs the sort of truth values, which the core theory brings into the bottom
scope.
-/

namespace WellSorted

namespace Stack

/-! ### Properties of all scopes -/

/-- Whether a property holds of a stack, also after scopes were left. -/
def Throughout (I : Stack → Prop) (G : Stack) : Prop :=
  ∀ H : Stack, H.scopes <:+ G.scopes → I H

section

variable {I : Stack → Prop} {G H : Stack}

theorem Throughout.here (h : G.Throughout I) : I G := h G List.suffix_rfl

theorem Throughout.cons {top : Scope} (h : G.Throughout I) (htop : I ⟨top, G.scopes⟩) :
    Throughout I ⟨top, G.scopes⟩ := by
  intro H hH
  rcases List.suffix_cons_iff.mp hH with heq | hsuffix
  · rw [show H = ⟨top, G.scopes⟩ from eq_of_scopes_eq heq]
    exact htop
  · exact h H hsuffix

theorem Throughout.insert {d : Declaration} (h : G.Throughout I) (hinsert : G.insert d = .ok H)
    (hH : I H) : H.Throughout I := by
  obtain ⟨-, rfl⟩ := insert_eq_ok.mp hinsert
  intro K hK
  rcases List.suffix_cons_iff.mp hK with heq | hsuffix
  · rw [show K = { G with top := G.top.put d } from eq_of_scopes_eq heq]
    exact hH
  · exact h K (hsuffix.trans (List.suffix_cons _ _))

theorem Throughout.pop {n : Nat} (h : G.Throughout I) (hpop : G.pop? n = some H) :
    H.Throughout I := by
  intro K hK
  rw [pop?_eq_some_iff.mp hpop] at hK
  exact h K (hK.trans (List.drop_suffix _ _))

theorem Throughout.pushMany (h : G.Throughout I) (hpush : ∀ G, I G → I G.push) (n : Nat) :
    (G.pushMany n).Throughout I := by
  induction n with
  | zero => exact h
  | succ n ih =>
    have heq : G.pushMany (n + 1) = (G.pushMany n).push :=
      eq_of_scopes_eq (by simp [List.replicate])
    rw [heq]
    exact ih.cons (hpush _ ih.here)

theorem throughout_of_outer_eq_nil (hG : G.outer = []) (h : I G) : G.Throughout I := by
  have hscopes : G.scopes = [G.top] := by rw [scopes, hG]
  intro H hH
  rw [hscopes] at hH
  rcases List.suffix_cons_iff.mp hH with heq | hsuffix
  · rw [show H = G from eq_of_scopes_eq (heq.trans hscopes.symm)]
    exact h
  · exact absurd (List.suffix_nil.mp hsuffix) (List.cons_ne_nil _ _)

end

/-! ### Entering keeps stacks well formed -/

theorem WellFormed.formed_of_admits {G : Stack} (hG : G.WellFormed) {params : List String}
    (hparams : PlainParams params) {s : SmtSort} (hs : G.Admits params s) : G.Formed params s := by
  cases hs with
  | resolved hs => exact hG.aliases.formed_resolve hparams hs
  | formed hs => exact hs

theorem WellFormed.formed_of_checked {G : Stack} (hG : G.WellFormed) {d : Declaration}
    (hfits : d.Fits) (hd : d.Checked G) : d.Formed G := by
  cases d with
  | sort d =>
    intro s hs
    obtain ⟨hparams, hadmits⟩ := hd s hs
    exact ⟨hfits (by rw [hs]; rfl), hG.formed_of_admits hparams hadmits⟩
  | function f => exact fun s hs => hG.formed_of_admits hd.1 (hd.2 s hs)
  | var v => exact absurd hfits not_false

theorem WellFormed.insert {G K : Stack} (hG : G.WellFormed) {d : Declaration} (hd : d.Formed G)
    (h : G.insert d = .ok K) : K.WellFormed := by
  intro e he
  rcases (has_of_insert h).mp he with he | rfl
  · exact (hG e he).mono (keeps_of_insert h)
  · exact hd.mono (keeps_of_insert h)

theorem keeps_push (G : Stack) : G.Keeps G.push := fun _ _ hd => hd

theorem WellFormed.push {G : Stack} (hG : G.WellFormed) : G.push.WellFormed :=
  fun d hd => (hG d (has_push.mp hd)).mono G.keeps_push

theorem wellFormed_empty : Stack.empty.WellFormed := fun d hd => absurd hd (not_has_empty d)

theorem WellFormed.entered {clean : Prop} (hclean : clean) {G H : Stack} (hG : G.WellFormed)
    (h : G.Entered (Introduces clean) H) : H.WellFormed := by
  induction h with
  | refl => exact hG
  | insert _ hd hinsert ih => exact ih.insert (ih.formed_of_checked hd.1 (hd.2 hclean)) hinsert

/-- What holds of the stack of a script without messages. -/
structure Proper (G : Stack) : Prop where
  wellFormed : G.WellFormed
  bool : G.Formed [] .bool

theorem Proper.insert {G K : Stack} (hG : G.Proper) {d : Declaration} (hd : d.Formed G)
    (h : G.insert d = .ok K) : K.Proper :=
  ⟨hG.wellFormed.insert hd h, hG.bool.mono (keeps_of_insert h)⟩

theorem Proper.push {G : Stack} (hG : G.Proper) : G.push.Proper :=
  ⟨hG.wellFormed.push, hG.bool.mono G.keeps_push⟩

theorem Throughout.entered {clean : Prop} (hclean : clean) {G H : Stack}
    (hG : G.Throughout Proper) (h : G.Entered (Introduces clean) H) : H.Throughout Proper := by
  induction h with
  | refl => exact hG
  | insert _ hd hinsert ih =>
    have hformed := ih.here.wellFormed.formed_of_checked hd.1 (hd.2 hclean)
    exact ih.insert hinsert (ih.here.insert hformed hinsert)

theorem Throughout.moves {clean : Prop} (hclean : clean) {G H : Stack} (hG : G.Throughout Proper)
    (h : G.Moves (Introduces clean) H) : H.Throughout Proper := by
  cases h with
  | entered h => exact hG.entered hclean h
  | pushed n => exact hG.pushMany (fun _ hH => hH.push) n
  | popped h => exact hG.pop h

/-! ### The core theory -/

/-- Whether a name stands for a sort symbol of some arity. -/
def IsSymbol (name : String) (arity : Nat) (G : Stack) : Prop :=
  ∃ d, G.sort? name = some d ∧ d.definition = none ∧ d.arity = arity

theorem IsSymbol.mono {name : String} {arity : Nat} {G H : Stack} (hG : G.IsSymbol name arity)
    (h : G.Keeps H) : H.IsSymbol name arity := by
  obtain ⟨d, hd, hrest⟩ := hG
  exact ⟨d, h _ _ hd, hrest⟩

theorem isSymbol_sortSymbolDec {G : Stack} {s : Spot} {d : SortSymbolDec}
    (h : (Check.sortSymbolDec G (s, d)).findings = []) (hd : d.arity ≤ SortDecl.maxArity) :
    (Check.sortSymbolDec G (s, d)).value.IsSymbol d.name.key d.arity :=
  ⟨_, sort?_of_insert_sort (insert_of_findings_declare h), rfl, Nat.min_eq_left hd⟩

theorem exists_spot {α : Type} {items : List (Spot × α)} {as : List α} (h : items.map Prod.snd = as)
    {a : α} (ha : a ∈ as) : ∃ s, (s, a) ∈ items := by
  rw [← h] at ha
  obtain ⟨⟨s, b⟩, hb, rfl⟩ := List.mem_map.mp ha
  exact ⟨s, hb⟩

/-- A theory that is entered without a finding declares the sorts it lists. -/
theorem isSymbol_theory {G : Stack} {s : Spot} {t : Theory} {decs : List SortSymbolDec}
    {d : SortSymbolDec} (ht : .sorts decs ∈ t.attributes) (hd : d ∈ decs)
    (hmax : d.arity ≤ SortDecl.maxArity) (h : (Check.theory G s t).findings = []) :
    (Check.theory G s t).value.IsSymbol d.name.key d.arity := by
  obtain ⟨s', hs'⟩ := exists_spot (s.map_snd_spread TheoryAttribute.width 2 t.attributes) ht
  refine Logged.foldlM_reaches (Q := IsSymbol d.name.key d.arity) (fun H a hH => ?_)
    (fun H hH => ?_) hs' h
  · have ha : H.Entered (Introduces False) (Check.theoryAttribute H a).value :=
      entered_theoryAttribute False.elim False.elim
    exact hH.mono ha.keeps
  · obtain ⟨s'', hs''⟩ := exists_spot (s'.next.map_snd_along 0 decs) hd
    refine Logged.foldlM_reaches (Q := IsSymbol d.name.key d.arity) (fun K e hK => ?_)
      (fun K hK => isSymbol_sortSymbolDec hK hmax) hs'' hH
    have he : K.Entered (Introduces False) (Check.sortSymbolDec K e).value := entered_sortSymbolDec
    exact hK.mono he.keeps

theorem IsSymbol.formed {G : Stack} {head : Identifier} (h : G.IsSymbol head.key 0) :
    G.Formed [] (.mk head []) := by
  obtain ⟨d, hd, hdef, harity⟩ := h
  exact .symbol hd hdef harity fun _ hs => absurd hs List.not_mem_nil

end Stack

instance (params : List String) : Decidable (PlainParams params) :=
  inferInstanceAs (Decidable (∀ p ∈ params, _))

instance (t : Theory) : Decidable t.Plain := inferInstanceAs (Decidable (∀ d ∈ t.funSymbols, _))

/-- Whether some characters are a theory that passes a check. -/
def isTheory (check : List Form → Theory → Bool) (chars : List Char) : Bool :=
  match Form.read chars with
  | .error _ => false
  | .ok fs =>
    match Root.ofForms (Text.byteLength chars) fs with
    | .ok (.theory t) => check fs t
    | _ => false

theorem exists_of_isTheory {check : List Form → Theory → Bool} {text : String}
    (h : isTheory check text.toList = true) (origin : Origin) : ∃ fs t,
      parseRoot origin text = .ok ⟨⟨origin, text.toList, fs⟩, .theory t⟩ ∧ check fs t = true := by
  unfold isTheory at h
  split at h
  · cases h
  · next fs hfs =>
    split at h
    · next t ht => exact ⟨fs, t, Parsed.ofText_eq_ok.mpr ⟨fs, hfs, rfl, ht⟩, h⟩
    · cases h

/-- The attribute in which the core theory declares the sort of truth values. -/
def boolAttribute : TheoryAttribute := .sorts [⟨.simple "Bool", 0, []⟩]

theorem isTheory_core : isTheory (fun _ t => t.attributes.contains boolAttribute && decide t.Plain)
    Bundle.core.toList = true := by
  rw [Bundle.core, String.toList_ofList]
  decide +kernel

/-- Whether the core theory is the bundled one, and is loaded first. -/
structure Setup.HasCore (setup : Setup) : Prop where
  enabled : setup.config.coreEnabled = true
  file : setup.files (setup.config.path .theory Check.coreName) = .text Bundle.core

namespace Context

open Check

theorem fetch_theory {setup : Setup} {serial : Nat} {name text : String} {source : Source}
    {t : Theory} (hfile : setup.files (setup.config.path .theory name) = .text text)
    (hparse : parseRoot ⟨some (setup.config.path .theory name), serial⟩ text =
      .ok ⟨source, .theory t⟩) : theoryLoader.fetch setup serial name = .ok ⟨source, t⟩ := by
  simp only [Loader.fetch]
  rw [show theoryLoader.what = .theory from rfl, hfile]
  simp only [hparse]
  rfl

theorem exists_fetch_core {setup : Setup} (hcore : setup.HasCore) (serial : Nat) :
    ∃ p, theoryLoader.fetch setup serial coreName = .ok p ∧
      boolAttribute ∈ p.tree.attributes ∧ p.tree.Plain := by
  obtain ⟨fs, t, hparse, ht⟩ := exists_of_isTheory isTheory_core
    ⟨some (setup.config.path .theory coreName), serial⟩
  rw [Bool.and_eq_true, List.contains_iff_mem, decide_eq_true_iff] at ht
  exact ⟨_, fetch_theory hcore.file hparse, ht⟩

/-- The core theory brings the sort of truth values. -/
theorem formed_bool_loadCore {setup : Setup} (hcore : setup.HasCore) {n : Node} {ctx : Context}
    (hctx : ctx.coreLoaded = false) (h : (loadCore setup n ctx).findings = []) :
    (loadCore setup n ctx).value.stack.Formed [] .bool := by
  have henabled : (setup.config.coreEnabled && !ctx.coreLoaded) = true := by
    rw [hcore.enabled, hctx]
    rfl
  rw [loadCore, if_pos henabled, loadTheory] at h ⊢
  obtain ⟨p, hfetch, hfindings, hvalue⟩ := load_of_findings h
  obtain ⟨p', hfetch', hbool, -⟩ :=
    exists_fetch_core hcore (nextSerial { ctx with coreLoaded := true })
  rw [hfetch'] at hfetch
  cases hfetch
  rw [hvalue]
  exact (Stack.isSymbol_theory hbool List.mem_cons_self (Nat.zero_le _)
    (List.append_eq_nil_iff.mp hfindings).1).formed

/-! ### Scripts -/

/-- A context into which the core theory was loaded from the start. -/
theorem proper_loadCore {setup : Setup} (hcore : setup.HasCore) {n : Node} {ctx : Context}
    (hctx : ctx.coreLoaded = false) (hstack : ctx.stack = .empty)
    (h : (loadCore setup n ctx).findings = [])
    (hloads : setup.PlainLoads (loadCore setup n ctx).value.loads) :
    (loadCore setup n ctx).value.stack.Throughout Stack.Proper := by
  have hgrows : ctx.Grows setup True (loadCore setup n ctx).value := grows_loadCore fun _ => h
  have hentered := hgrows.stack
  rw [hstack] at hentered
  refine Stack.throughout_of_outer_eq_nil hentered.outer_eq ?_
  exact ⟨Stack.wellFormed_empty.entered ⟨trivial, hloads⟩ hentered,
    formed_bool_loadCore hcore hctx h⟩

/-- How a quiet command leads from one context to another. -/
structure Quiet (setup : Setup) (ctx ctx' : Context) : Prop where
  loads : ctx.loads ⊆ ctx'.loads
  stack : setup.PlainLoads ctx'.loads → ctx.stack.Throughout Stack.Proper →
    ctx'.stack.Throughout Stack.Proper

theorem Quiet.trans {setup : Setup} {ctx ctx' ctx'' : Context} (h : Quiet setup ctx ctx')
    (h' : Quiet setup ctx' ctx'') : Quiet setup ctx ctx'' := by
  refine ⟨List.Subset.trans h.loads h'.loads, fun hloads hctx => h'.stack hloads (h.stack ?_ hctx)⟩
  exact fun load hload => hloads load (h'.loads hload)

theorem quiet_command {setup : Setup} (hcore : setup.HasCore) {ctx : Context} {s : Spot}
    {c : Command} (hc : c.Plain) (hlegal : SyntaxCheck.command s c = [])
    (h : (command setup ctx s c).findings = []) :
    Quiet setup ctx (command setup ctx s c).value := by
  by_cases hreset : c = .reset
  · subst hreset
    have hgrows : ctx.reset.Grows setup True (command setup ctx s .reset).value :=
      grows_loadCore fun _ => h
    exact ⟨hgrows.loads, fun hloads _ => proper_loadCore hcore rfl rfl h hloads⟩
  · have hmoves : ctx.Moves setup (ctx.stack.Throughout Stack.Proper)
        (command setup ctx s c).value :=
      moves_command hreset (fun _ => hc) (fun _ => hlegal) (fun hG => hG.here.bool) fun _ => h
    exact ⟨hmoves.loads, fun hloads hG => hG.moves ⟨hG, hloads⟩ hmoves.stack⟩

end Context

/-- Load the core theory and run the first `n` commands of a script. -/
def Check.upTo (setup : Setup) (source : Source) (cs : List Command) (n : Nat) :
    Logged Context := do
  let ctx ← loadCore setup ((Root.script cs).node source) .fresh
  (((Spot.top source).along 0 cs).take n).foldlM (fun ctx (s, c) => command setup ctx s c) ctx

/-- Checking a script is running all of its commands. -/
theorem Check.root_script (setup : Setup) (source : Source) (cs : List Command) :
    root setup .fresh ⟨source, .script cs⟩ = upTo setup source cs cs.length := by
  have hlength : ((Spot.top source).along 0 cs).length = cs.length := by
    rw [← (Spot.top source).map_snd_along 0 cs, List.length_map, Spot.map_snd_along]
  rw [root_eq, upTo, List.take_of_length_le (Nat.le_of_eq hlength)]
  rfl

theorem proper_upTo {setup : Setup} (hcore : setup.HasCore) {source : Source} {cs : List Command}
    (hlegal : SyntaxCheck.root ⟨source, .script cs⟩ = []) (hplain : ∀ c ∈ cs, c.Plain) {n : Nat}
    (h : (Check.upTo setup source cs n).findings = [])
    (hloads : setup.PlainLoads (Check.upTo setup source cs n).value.loads) :
    (Check.upTo setup source cs n).value.stack.Throughout Stack.Proper := by
  simp only [Check.upTo, Logged.findings_bind, List.append_eq_nil_iff, Logged.value_bind]
    at h hloads ⊢
  have hrun := Logged.foldlM_rel (R := Context.Quiet setup)
    (fun _ => ⟨List.Subset.refl _, fun _ => id⟩)
    (fun _ _ _ => Context.Quiet.trans) (fun _ : True => h.2) fun item hitem ctx _ hctx => ?_
  · refine hrun.stack hloads (Context.proper_loadCore hcore rfl rfl h.1 fun load hload => ?_)
    exact hloads load (hrun.loads hload)
  · have hmem := List.mem_of_mem_take hitem
    refine Context.quiet_command hcore (hplain item.2 ?_) ?_ (hctx trivial)
    · rw [← (Spot.top source).map_snd_along 0 cs]
      exact List.mem_map_of_mem hmem
    · exact List.flatMap_eq_nil_iff.mp hlegal item hmem

/-- What a script does once the core theory was read. -/
def Check.afterCore (setup : Setup) (source : Source) (cs : List Command) (n : Nat)
    (p : Parsed Theory) : Logged Context := do
  let ctx ← theoryLoader.checked ((Root.script cs).node source) coreName p
    (Context.startLoad { Context.fresh with coreLoaded := true } .theory coreName)
  (((Spot.top source).along 0 cs).take n).foldlM (fun ctx (s, c) => command setup ctx s c)
    (ctx.endLoad .theory coreName)

theorem Check.upTo_eq_afterCore {setup : Setup} (henabled : setup.config.coreEnabled = true)
    {p : Parsed Theory} (hfetch : theoryLoader.fetch setup 1 coreName = .ok p) (source : Source)
    (cs : List Command) (n : Nat) : upTo setup source cs n = afterCore setup source cs n p := by
  have hcore : loadCore setup ((Root.script cs).node source) .fresh = (do
      let ctx ← theoryLoader.checked ((Root.script cs).node source) coreName p
        (Context.startLoad { Context.fresh with coreLoaded := true } .theory coreName)
      return ctx.endLoad .theory coreName) := by
    rw [loadCore, if_pos (by rw [henabled]; rfl)]
    exact Context.load_of_fetch List.not_mem_nil hfetch
  rw [upTo, hcore, bind_assoc]
  rfl

/-- The stacks that inference meets within a command: scopes are opened on top of a stack, and
declarations of formed sorts are entered. -/
inductive Stack.Within (G : Stack) : Stack → Prop
  | here : G.Within G
  | push {H : Stack} : G.Within H → G.Within H.push
  | enter {H : Stack} {d : Declaration} : G.Within H → d.Formed H → G.Within (H.enter d).value

theorem Stack.Within.wellFormed {G H : Stack} (h : G.Within H) (hG : G.WellFormed) :
    H.WellFormed := by
  induction h with
  | here => exact hG
  | push _ ih => exact ih.push
  | @enter H d _ hd ih =>
    unfold Stack.enter
    cases hinsert : H.insert d with
    | ok K => exact ih.insert hd hinsert
    | error _ => exact ih

theorem Bundle.hasCore : Bundle.setup.HasCore := ⟨rfl, by rfl⟩

/-- Lists, with an alias in the sort of a field. -/
def listScript : List Command :=
  [.defineSort "Same" ["A"] (.simple "A"),
    .declareDatatypes [⟨"List", 1⟩]
      [⟨some ["T"], [⟨"nil", []⟩,
        ⟨"cons", [⟨"head", .simple "T"⟩,
          ⟨"tail", .mk (.simple "List") [.mk (.simple "Same") [.simple "T"]]⟩]⟩]⟩]]

/-- The run of the script on lists finds nothing and loads nothing but the core theory. -/
def listsPass (source : Source) (fs : List Form) (t : Theory) : Bool :=
  let m := Check.afterCore Bundle.setup source listScript 2
    ⟨⟨⟨some (Bundle.setup.config.path .theory Check.coreName), 1⟩, Bundle.core.toList, fs⟩, t⟩
  m.findings.isEmpty && m.value.loads == [⟨.theory, Check.coreName, []⟩]

theorem isTheory_core_lists :
    isTheory (listsPass ⟨.nowhere, [], []⟩) Bundle.core.toList = true := by
  unfold listsPass
  rw [Bundle.core, String.toList_ofList]
  decide +kernel

/-- As long as a script that passes the syntax check runs without a message, every signature, every
definition of an alias and every inferred sort is formed. Sort parameters are plain, in the script
and in the theories that were loaded. No list of them is longer than the greatest arity, which is
the greatest length of a list in memory. -/
theorem formed_of_quiet_script {setup : Setup} (hcore : setup.HasCore) {source : Source}
    {cs : List Command} (hlegal : SyntaxCheck.root ⟨source, .script cs⟩ = [])
    (hparams : ∀ c ∈ cs, ∀ params ∈ c.sortParams, PlainParams params)
    (hlength : ∀ c ∈ cs, ∀ params ∈ c.sortParams, params.length ≤ SortDecl.maxArity) {n : Nat}
    (hquiet : (Check.upTo setup source cs n).findings = [])
    (hloads : setup.PlainLoads (Check.upTo setup source cs n).value.loads) :
    let G := (Check.upTo setup source cs n).value.stack
    (∀ scope ∈ G.scopes, ∀ f ∈ scope.funs, ∀ s ∈ f.signature, G.Formed f.params s) ∧
      (∀ scope ∈ G.scopes, ∀ d ∈ scope.sorts, ∀ s, d.definition = some s → G.Formed d.params s) ∧
      ∀ H, G.Within H → ∀ spot t s, (infer H spot t).value = some s →
        (infer H spot t).findings = [] → H.Formed [] s := by
  intro G
  have hG : G.WellFormed := (proper_upTo hcore hlegal
    (fun c hc params hmem => ⟨hparams c hc params hmem, hlength c hc params hmem⟩)
    hquiet hloads).here.wellFormed
  refine ⟨fun scope hscope f hf => hG (.function f) ⟨scope, hscope, hf⟩, ?_, ?_⟩
  · intro scope hscope d hd s hs
    exact (hG (.sort d) ⟨scope, hscope, hd⟩ s hs).2
  · intro H hH spot t s hvalue hfindings
    have hsort := (infer_iff H.under_nil spot t).mp ⟨hvalue, hfindings⟩
    exact hsort.formed (hH.wellFormed hG) fun x hx => absurd hx List.not_mem_nil

theorem formed_of_quiet_script_lists :
    (Check.upTo Bundle.setup ⟨.nowhere, [], []⟩ listScript 2).findings = [] ∧
      let G := (Check.upTo Bundle.setup ⟨.nowhere, [], []⟩ listScript 2).value.stack
      ∀ scope ∈ G.scopes, ∀ f ∈ scope.funs, ∀ s ∈ f.signature, G.Formed f.params s := by
  obtain ⟨fs, t, hparse, hpass⟩ := exists_of_isTheory isTheory_core_lists
    ⟨some (Bundle.setup.config.path .theory Check.coreName), 1⟩
  have hrun := Check.upTo_eq_afterCore rfl (Context.fetch_theory Bundle.hasCore.file hparse)
    ⟨.nowhere, [], []⟩ listScript 2
  obtain ⟨hfindings, hloads⟩ := (Bool.and_eq_true_iff.mp hpass)
  have hquiet : (Check.upTo Bundle.setup ⟨.nowhere, [], []⟩ listScript 2).findings = [] := by
    rw [hrun]
    exact List.isEmpty_iff.mp hfindings
  refine ⟨hquiet, (formed_of_quiet_script Bundle.hasCore (by decide +kernel) (by decide) (by decide)
    hquiet fun load hload _ serial p hp => ?_).1⟩
  rw [hrun, eq_of_beq hloads, List.mem_singleton] at hload
  obtain ⟨p', hp', -, hplain⟩ := Context.exists_fetch_core Bundle.hasCore serial
  rw [hload, hp'] at hp
  cases hp
  exact hplain

end WellSorted
