import WellSorted.Proofs.Aliases
import WellSorted.Proofs.Likeness.Checks
import WellSorted.Proofs.Loads

/-!
# Available theories

A theory that is loaded without a finding is in the stack (`Stack.HasTheory`): its sorts are symbols
there, and its functions have the signatures that they were declared with. It stays there as long as
the scope that took it is not left. The core theory is in the bottom scope, which is never left; the
theories of a logic are in the scope in which the logic was set (`Check.visible_of_quiet`).
-/

namespace WellSorted

/-- The name under which a function symbol is declared. -/
def FunSymbolDec.key : FunSymbolDec → String
  | .literal c _ _ => c.render
  | .literals c _ _ => c.word
  | .simple name _ _ _ => name.key
  | .parametric _ name _ _ _ => name.key

/-- The sort symbols of a theory. -/
def Theory.sortSymbols (t : Theory) : List SortSymbolDec :=
  t.attributes.flatMap fun
    | .sorts decs => decs
    | _ => []

namespace Stack

/-! ### Stacks within stacks -/

/-- Whether all sorts and functions of a stack are in another one. -/
structure Includes (H G : Stack) : Prop where
  keeps : G.Keeps H
  functions : ∀ f, G.Has (.function f) → H.Has (.function f)

variable {G H K : Stack}

theorem has_of_entered {P : Stack → Declaration → Prop} (h : G.Entered P H) {d : Declaration}
    (hd : G.Has d) : H.Has d := by
  induction h with
  | refl => exact hd
  | insert _ _ hinsert ih => exact (has_of_insert hinsert).mpr (.inl ih)

theorem Entered.includes {P : Stack → Declaration → Prop} (h : G.Entered P H) : H.Includes G :=
  ⟨h.keeps, fun _ => has_of_entered h⟩

/-- A sound stack includes what is left of it when scopes are left. -/
theorem Sound.includes_of_suffix (hG : G.Sound) (h : K.scopes <:+ G.scopes) : G.Includes K := by
  have hhas {d : Declaration} (hd : K.Has d) : G.Has d := by
    obtain ⟨scope, hscope, hd⟩ := hd
    exact ⟨scope, h.subset hscope, hd⟩
  refine ⟨fun name d hd => ?_, fun f hf => hhas hf⟩
  rw [← name_of_sort? hd]
  exact hG.sort?_of_has (hhas (has_of_sort? hd))

/-! ### Theories in stacks -/

/-- Whether a stack has a function symbol with its signature. -/
def HasSymbol (G : Stack) (d : FunSymbolDec) : Prop :=
  ∃ f, G.Has (.function f) ∧ f.name = d.key ∧ f.params = d.params.map quoteSymbol ∧
    f.signature = G.resolveAll f.params d.signature ∧
    ∃ n, G.checkSorts f.params n d.signature = []

/-- Whether a stack has the sorts and the functions of a theory. -/
structure HasTheory (G : Stack) (t : Theory) : Prop where
  sorts : ∀ d ∈ t.sortSymbols, G.IsSymbol d.name.key (min d.arity SortDecl.maxArity)
  funs : ∀ d ∈ t.funSymbols, G.HasSymbol d

theorem checkSort_of_keeps (h : H.Keeps G) {params : List String} {n : Node} {s : SmtSort}
    (hs : H.checkSort params n s = []) : G.checkSort params n s = [] := by
  induction s using SmtSort.ind with
  | h head args ih =>
    rw [checkSort] at hs ⊢
    split
    · rfl
    · next hparam =>
      rw [if_neg hparam, List.append_eq_nil_iff, checkHead_eq_nil, checkSorts_eq_flatMap,
        List.flatMap_eq_nil_iff] at hs
      obtain ⟨⟨d, hd, harity⟩, hargs⟩ := hs
      rw [List.append_eq_nil_iff, checkHead_eq_nil, checkSorts_eq_flatMap,
        List.flatMap_eq_nil_iff]
      exact ⟨⟨d, h _ _ hd, harity⟩, fun t ht => ih t ht (hargs t ht)⟩

/-- A signature that passes the check means the same in a stack with more sorts. -/
theorem signature_of_keeps (h : H.Keeps G) {params : List String} (hparams : PlainParams params)
    {n : Node} {ss : List SmtSort} (hs : H.checkSorts (params.map quoteSymbol) n ss = []) :
    G.checkSorts (params.map quoteSymbol) n ss = [] ∧
      H.resolveAll (params.map quoteSymbol) ss = G.resolveAll (params.map quoteSymbol) ss := by
  rw [checkSorts_eq_flatMap, List.flatMap_eq_nil_iff] at hs
  rw [checkSorts_eq_flatMap, List.flatMap_eq_nil_iff, resolveAll_eq_map, resolveAll_eq_map]
  refine ⟨fun s hmem => checkSort_of_keeps h (hs s hmem), List.map_congr_left fun s hmem => ?_⟩
  have hresolve := resolve_of_keeps h (hs s hmem)
  rwa [← hparams.map_quoteSymbol] at hresolve

/-- A function with the signature of a function symbol in a stack, found in one with more sorts. -/
theorem hasSymbol_of_keeps {d : FunSymbolDec} (hd : PlainParams d.params) {f : FunDecl}
    (h : G.Keeps H) (hf : H.Has (.function f)) (hname : f.name = d.key)
    (hparams : f.params = d.params.map quoteSymbol) {n : Node}
    (hcheck : G.checkSorts f.params n d.signature = [])
    (hsignature : f.signature = G.resolveAll f.params d.signature) : H.HasSymbol d := by
  rw [hparams] at hcheck hsignature
  obtain ⟨hcheck', hresolve⟩ := signature_of_keeps h hd hcheck
  refine ⟨f, hf, hname, hparams, ?_, n, ?_⟩
  · rw [hparams, hsignature, hresolve]
  · rw [hparams, hcheck']

theorem HasSymbol.mono {d : FunSymbolDec} (hd : PlainParams d.params) (hG : G.HasSymbol d)
    (h : H.Includes G) : H.HasSymbol d := by
  obtain ⟨f, hf, hname, hparams, hsignature, n, hcheck⟩ := hG
  exact hasSymbol_of_keeps hd h.keeps (h.functions f hf) hname hparams hcheck hsignature

theorem HasTheory.mono {t : Theory} (ht : t.Plain) (hG : G.HasTheory t) (h : H.Includes G) :
    H.HasTheory t :=
  ⟨fun d hd => (hG.sorts d hd).mono h.keeps, fun d hd => (hG.funs d hd).mono (ht d hd) h⟩

/-- A function that is entered with the signature of a function symbol. -/
theorem hasSymbol_of_insert {d : FunSymbolDec} (hd : PlainParams d.params) {f : FunDecl}
    (h : G.insert (.function f) = .ok K) (hname : f.name = d.key)
    (hparams : f.params = d.params.map quoteSymbol) {n : Node}
    (hcheck : G.checkSorts f.params n d.signature = [])
    (hsignature : f.signature = G.resolveAll f.params d.signature) : K.HasSymbol d :=
  hasSymbol_of_keeps hd (keeps_of_insert h) ((has_of_insert h).mpr (.inr rfl)) hname hparams hcheck
    hsignature

section

open Check

/-- A function symbol that is declared without a finding is there. -/
theorem hasSymbol_functionSymbol {d : FunSymbolDec} (hd : PlainParams d.params) {n : Node}
    {args : List SmtSort} {result : SmtSort} {attributes : List Attribute}
    (hsignature : d.signature = args ++ [result])
    (h : (functionSymbol G n (d.params.map quoteSymbol) d.key args result attributes).findings =
      []) :
    (functionSymbol G n (d.params.map quoteSymbol) d.key args result attributes).value.HasSymbol
      d := by
  simp only [functionSymbol, Logged.findings_bind, List.append_eq_nil_iff] at h
  have hresolved : G.resolveAll (d.params.map quoteSymbol) d.signature =
      G.resolveAll (d.params.map quoteSymbol) args ++
        [G.resolve (d.params.map quoteSymbol) result] := by
    rw [hsignature, resolveAll_eq_map, List.map_append, ← resolveAll_eq_map]
    rfl
  exact hasSymbol_of_insert hd (insert_of_findings_declare h.2.2.2) rfl rfl (hsignature ▸ h.1)
    hresolved.symm

theorem hasSymbol_funSymbolDec {s : Spot} {d : FunSymbolDec} (hd : PlainParams d.params)
    (h : (funSymbolDec G (s, d)).findings = []) : (funSymbolDec G (s, d)).value.HasSymbol d := by
  cases d with
  | literal c sort attributes =>
    obtain ⟨hcheck, hdeclare⟩ := List.append_eq_nil_iff.mp h
    refine hasSymbol_of_insert hd (insert_of_findings_declare hdeclare) rfl rfl
      (n := s.node (.funDec (.literal c sort attributes))) ?_ rfl
    exact List.append_eq_nil_iff.mpr ⟨hcheck, rfl⟩
  | literals c sort attributes =>
    simp only [funSymbolDec, literals, Logged.findings_bind, List.append_eq_nil_iff] at h
    simp only [funSymbolDec, literals, Logged.value_bind]
    cases hnone : G.overloads c.word with
    | cons previous rest =>
      rw [hnone] at h
      cases h.2
    | nil =>
      let n := s.node (.funDec (.literals c sort attributes))
      let f := FunDecl.symbol c.word [] [] (G.resolve [] sort) n
      have hinsert : G.insert (.function f) = .ok { G with top := G.top.put (.function f) } := by
        refine insert_eq_ok.mpr ⟨?_, rfl⟩
        rw [conflict?, show f.name = c.word from rfl, allOverloads_eq_nil hnone]
        rfl
      have hvalue : (G.enter (.function f)).value = { G with top := G.top.put (.function f) } := by
        rw [enter, hinsert]
        rfl
      rw [hvalue]
      exact hasSymbol_of_insert hd hinsert rfl rfl (List.append_eq_nil_iff.mpr ⟨h.1, rfl⟩) rfl
  | simple name args result attributes => exact hasSymbol_functionSymbol hd rfl h
  | parametric params name args result attributes => exact hasSymbol_functionSymbol hd rfl h

/-- What entering one of some items brings about, and more declarations keep. -/
theorem reaches_foldlM {α : Type} {f : Stack → Spot × α → Logged Stack} {Q : Stack → Prop}
    (hf : ∀ G item, (f G item).value.Includes G) (hQ : ∀ G H, H.Includes G → Q G → Q H)
    {items : List (Spot × α)} {as : List α} (hitems : items.map Prod.snd = as) {a : α}
    (ha : a ∈ as) (hreach : ∀ G s, (f G (s, a)).findings = [] → Q (f G (s, a)).value) {G : Stack}
    (h : (items.foldlM f G).findings = []) : Q (items.foldlM f G).value := by
  obtain ⟨s, hs⟩ := exists_spot hitems ha
  exact Logged.foldlM_reaches (fun H item => hQ H _ (hf H item)) (fun H => hreach H s) hs h

theorem includes_sortSymbolDec (G : Stack) (item : Spot × SortSymbolDec) :
    (sortSymbolDec G item).value.Includes G := by
  have h : G.Entered (Introduces False) (sortSymbolDec G item).value := entered_sortSymbolDec
  exact h.includes

theorem includes_funSymbolDec (G : Stack) (item : Spot × FunSymbolDec) :
    (funSymbolDec G item).value.Includes G := by
  have h : G.Entered (Introduces False) (funSymbolDec G item).value :=
    entered_funSymbolDec False.elim False.elim
  exact h.includes

theorem includes_theoryAttribute (G : Stack) (item : Spot × TheoryAttribute) :
    (theoryAttribute G item).value.Includes G := by
  have h : G.Entered (Introduces False) (theoryAttribute G item).value :=
    entered_theoryAttribute False.elim False.elim
  exact h.includes

theorem isSymbol_min_sortSymbolDec {s : Spot} {d : SortSymbolDec}
    (h : (sortSymbolDec G (s, d)).findings = []) :
    (sortSymbolDec G (s, d)).value.IsSymbol d.name.key (min d.arity SortDecl.maxArity) :=
  ⟨_, sort?_of_insert_sort (insert_of_findings_declare h), rfl, rfl⟩

/-- A theory that is entered without a finding is there. -/
theorem hasTheory_theory {s : Spot} {t : Theory} (ht : t.Plain)
    (h : (theory G s t).findings = []) : (theory G s t).value.HasTheory t := by
  have hattributes := s.map_snd_spread TheoryAttribute.width 2 t.attributes
  refine ⟨fun d hd => ?_, fun d hd => ?_⟩
  · obtain ⟨a, ha, hda⟩ := List.mem_flatMap.mp hd
    cases a with
    | sorts decs =>
      have hmono : ∀ H K : Stack, K.Includes H →
          H.IsSymbol d.name.key (min d.arity SortDecl.maxArity) →
          K.IsSymbol d.name.key (min d.arity SortDecl.maxArity) :=
        fun _ _ hK hH => hH.mono hK.keeps
      refine reaches_foldlM (f := theoryAttribute) includes_theoryAttribute hmono hattributes ha
        (fun H s' hH => ?_) h
      exact reaches_foldlM (f := sortSymbolDec) includes_sortSymbolDec hmono
        (s'.next.map_snd_along 0 decs) hda (fun _ _ => isSymbol_min_sortSymbolDec) hH
    | funs decs => cases hda
    | other a => cases hda
  · have hplain := ht d hd
    obtain ⟨a, ha, hda⟩ := List.mem_flatMap.mp hd
    cases a with
    | sorts decs => cases hda
    | funs decs =>
      have hmono : ∀ H K : Stack, K.Includes H → H.HasSymbol d → K.HasSymbol d :=
        fun _ _ hK hH => hH.mono hplain hK
      refine reaches_foldlM (f := theoryAttribute) includes_theoryAttribute hmono hattributes ha
        (fun H s' hH => ?_) h
      exact reaches_foldlM (f := funSymbolDec) includes_funSymbolDec hmono
        (s'.next.map_snd_along 0 decs) hda (fun _ _ => hasSymbol_funSymbolDec hplain) hH
    | other a => cases hda

end

end Stack

/-! ### Loads -/

/-- The theory that is read under a name. -/
def Setup.theory? (setup : Setup) (name : String) : Option Theory :=
  (Check.theoryLoader.fetch setup 0 name).toOption.map (·.tree)

/-- Whether the sort parameters in all theories are written without bars. -/
def Setup.PlainTheories (setup : Setup) : Prop := ∀ name t, setup.theory? name = some t → t.Plain

/-- Whether a stack has the theory of a name. -/
def Setup.Shows (setup : Setup) (name : String) (G : Stack) : Prop :=
  ∃ t, setup.theory? name = some t ∧ t.Plain ∧ G.HasTheory t

theorem Setup.Shows.mono {setup : Setup} {name : String} {G H : Stack} (hG : setup.Shows name G)
    (h : H.Includes G) : setup.Shows name H := by
  obtain ⟨t, ht, hplain, htheory⟩ := hG
  exact ⟨t, ht, hplain, htheory.mono hplain h⟩

theorem Setup.shows_of_includes (setup : Setup) (name : String) :
    ∀ H K : Stack, K.Includes H → setup.Shows name H → setup.Shows name K :=
  fun _ _ h hH => hH.mono h

theorem Setup.theory?_of_fetch {setup : Setup} {serial : Nat} {name : String} {p : Parsed Theory}
    (h : Check.theoryLoader.fetch setup serial name = .ok p) :
    setup.theory? name = some p.tree := by
  have hserial : (Likeness.anywhere True).serial serial 0 := trivial
  rcases Context.fetch_serial hserial Check.theoryLoader setup name with
    ⟨problem, hi, -⟩ | ⟨source, source', t, hi, hj, -⟩
  · rw [h] at hi
    cases hi
  · rw [h] at hi
    cases hi
    rw [Setup.theory?, hj]
    rfl

namespace Context

open Check

variable {setup : Setup} {n : Node} {ctx : Context}

/-- Whether the stack has the theories that are on record. -/
structure Backed (setup : Setup) (ctx : Context) : Prop where
  core : ctx.coreLoaded = true → setup.Shows coreName ctx.stack
  theories : ∀ name ∈ ctx.theories, setup.Shows name ctx.stack

/-- What loads of theories without findings do to the records. -/
structure Notes (setup : Setup) (ctx ctx' : Context) : Prop where
  coreLoaded : ctx'.coreLoaded = ctx.coreLoaded
  logic : ctx'.logic = ctx.logic
  backed : ctx.Backed setup → ctx'.Backed setup

theorem Notes.refl (ctx : Context) : ctx.Notes setup ctx := ⟨rfl, rfl, id⟩

theorem Notes.trans {ctx ctx' ctx'' : Context} (h : ctx.Notes setup ctx')
    (h' : ctx'.Notes setup ctx'') : ctx.Notes setup ctx'' :=
  ⟨h'.coreLoaded.trans h.coreLoaded, h'.logic.trans h.logic, h'.backed ∘ h.backed⟩

theorem includes_loadTheory (setup : Setup) (n : Node) (name : String) (ctx : Context) :
    (loadTheory setup n name ctx).value.stack.Includes ctx.stack := by
  have hgrows : ctx.Grows setup False (loadTheory setup n name ctx).value :=
    grows_loadTheory False.elim
  exact hgrows.stack.includes

theorem shows_loadTheory (hplain : setup.PlainTheories) {name : String}
    (h : (loadTheory setup n name ctx).findings = []) :
    setup.Shows name (loadTheory setup n name ctx).value.stack := by
  obtain ⟨p, hfetch, hfindings, hvalue⟩ := load_of_findings h
  have hp := Setup.theory?_of_fetch hfetch
  refine ⟨p.tree, hp, hplain name p.tree hp, ?_⟩
  rw [loadTheory, hvalue]
  exact Stack.hasTheory_theory (hplain name p.tree hp) (List.append_eq_nil_iff.mp hfindings).1

theorem notes_namedTheory (hplain : setup.PlainTheories) {name : String}
    (h : (namedTheory setup n ctx name).findings = []) :
    ctx.Notes setup (namedTheory setup n ctx name).value := by
  simp only [namedTheory] at h ⊢
  split
  · exact .refl ctx
  · next hnew =>
    rw [if_neg hnew] at h
    split
    · next hcore =>
      refine ⟨rfl, rfl, fun hctx => ⟨hctx.core, fun name' hname' => ?_⟩⟩
      rcases List.mem_append.mp hname' with hold | hthis
      · exact hctx.theories name' hold
      · rw [List.mem_singleton.mp hthis, hcore.1]
        exact hctx.core hcore.2
    · next hcore =>
      rw [if_neg hcore] at h
      have hshows := shows_loadTheory hplain h
      have hincludes := includes_loadTheory setup n (quoteSymbol name)
        { ctx with theories := ctx.theories ++ [quoteSymbol name] }
      obtain ⟨G, loads, hvalue, -⟩ := exists_loadTheory setup n (quoteSymbol name)
        { ctx with theories := ctx.theories ++ [quoteSymbol name] }
      rw [hvalue] at hshows hincludes ⊢
      refine ⟨rfl, rfl, fun hctx => ⟨fun h => (hctx.core h).mono hincludes, ?_⟩⟩
      intro name' hname'
      rcases List.mem_append.mp hname' with hold | hthis
      · exact (hctx.theories name' hold).mono hincludes
      · rw [List.mem_singleton.mp hthis]
        exact hshows

theorem notes_foldlM {α : Type} {f : Context → α → Logged Context}
    (hstep : ∀ ctx a, (f ctx a).findings = [] → ctx.Notes setup (f ctx a).value) {l : List α}
    (h : (l.foldlM f ctx).findings = []) : ctx.Notes setup (l.foldlM f ctx).value :=
  Logged.foldlM_rel (R := Notes setup) .refl (fun _ _ _ => .trans) (fun _ : True => h)
    fun a _ ctx _ ha => hstep ctx a (ha trivial)

theorem notes_logic (hplain : setup.PlainTheories) {s : Spot} {l : Logic}
    (h : (Check.logic setup ctx s l).findings = []) :
    ctx.Notes setup (Check.logic setup ctx s l).value := by
  refine notes_foldlM (f := logicAttribute setup) (fun ctx item hitem => ?_) h
  obtain ⟨s, a⟩ := item
  cases a with
  | theories names =>
    exact notes_foldlM (f := namedTheory setup _) (fun _ _ => notes_namedTheory hplain) hitem
  | other a => exact .refl ctx

/-- A logic that is set without a finding is the first one, and brings its theories. -/
theorem notes_setLogic (hplain : setup.PlainTheories) {name : String}
    (h : (setLogic setup n name ctx).findings = []) :
    ctx.logic = none ∧ Notes setup { ctx with logic := some (quoteSymbol name) }
      (setLogic setup n name ctx).value := by
  unfold setLogic at h ⊢
  cases hlogic : ctx.logic with
  | some current =>
    rw [hlogic] at h
    cases h
  | none =>
    rw [hlogic] at h
    obtain ⟨p, -, hfindings, hvalue⟩ := load_of_findings h
    have hnotes := notes_logic hplain hfindings
    refine ⟨rfl, ?_⟩
    simp only [loadLogic]
    rw [hvalue]
    exact ⟨hnotes.coreLoaded, hnotes.logic, fun hctx =>
      have hbacked := hnotes.backed ⟨hctx.core, hctx.theories⟩
      ⟨hbacked.core, hbacked.theories⟩⟩

/-- The core theory is loaded without being noted among the theories. -/
theorem shows_loadCore (hplain : setup.PlainTheories) (hcore : ctx.coreLoaded = false)
    (h : (loadCore setup n ctx).findings = []) :
    let ctx' := (loadCore setup n ctx).value
    ctx'.theories = ctx.theories ∧
      (ctx'.coreLoaded = true → setup.Shows coreName ctx'.stack) := by
  unfold loadCore at h ⊢
  split
  · next henabled =>
    rw [if_pos henabled] at h
    have hshows := shows_loadTheory hplain h
    obtain ⟨G, loads, hvalue, -⟩ :=
      exists_loadTheory setup n coreName { ctx with coreLoaded := true }
    rw [hvalue] at hshows ⊢
    exact ⟨rfl, fun _ => hshows⟩
  · exact ⟨rfl, fun hloaded => absurd (hcore.symm.trans hloaded) Bool.false_ne_true⟩

theorem depth_loadCore (hstack : ctx.stack = .empty) :
    (loadCore setup n ctx).value.stack.depth = 1 := by
  have hgrows : ctx.Grows setup False (loadCore setup n ctx).value := grows_loadCore False.elim
  rw [Stack.depth, hgrows.stack.outer_eq, hstack]
  rfl

end Context

/-! ### Scopes that are not left -/

namespace Stack

/-- Whether a property holds of the scopes up to some depth. -/
def AtDepth (I : Stack → Prop) (depth : Nat) (G : Stack) : Prop :=
  ∃ K : Stack, K.scopes <:+ G.scopes ∧ K.depth = depth ∧ I K

variable {I : Stack → Prop} {G H : Stack} {depth : Nat}

theorem atDepth_self (h : I G) : G.AtDepth I G.depth := ⟨G, List.suffix_rfl, rfl, h⟩

/-- A step keeps what holds up to a depth, unless it ends above. -/
theorem AtDepth.moves (hI : ∀ H K : Stack, K.Includes H → I H → I K)
    {P : Stack → Declaration → Prop} (h : G.AtDepth I depth) (hmoves : G.Moves P H)
    (hdepth : depth ≤ H.depth) : H.AtDepth I depth := by
  obtain ⟨K, hsuffix, rfl, hK⟩ := h
  cases hmoves with
  | entered hentered =>
    rcases List.suffix_cons_iff.mp hsuffix with heq | houter
    · -- What is entered goes into the innermost scope, which is the one of that depth.
      have hKG : K = G := eq_of_scopes_eq heq
      subst hKG
      refine ⟨H, List.suffix_rfl, ?_, hI K H hentered.includes hK⟩
      rw [Stack.depth, Stack.depth, hentered.outer_eq]
    · rw [← hentered.outer_eq] at houter
      exact ⟨K, houter.trans (List.suffix_cons _ _), rfl, hK⟩
  | pushed n => exact ⟨K, hsuffix.trans (G.suffix_pushMany n), rfl, hK⟩
  | popped hpop => exact ⟨K, suffix_pop hsuffix hpop hdepth, rfl, hK⟩

/-- What holds up to a depth holds of a sound stack. -/
theorem AtDepth.here (hI : ∀ H K : Stack, K.Includes H → I H → I K) (h : G.AtDepth I depth)
    (hG : G.Sound) : I G := by
  obtain ⟨K, hsuffix, -, hK⟩ := h
  exact hI K G (hG.includes_of_suffix hsuffix) hK

end Stack

/-! ### Scripts -/

namespace Check

variable {setup : Setup} {source : Source} {cs : List Command}

theorem upTo_zero (setup : Setup) (source : Source) (cs : List Command) :
    upTo setup source cs 0 = loadCore setup ((Root.script cs).node source) .fresh := by
  rw [upTo, List.take_zero]
  exact bind_pure _

theorem depth_upTo_zero (setup : Setup) (source : Source) (cs : List Command) :
    (upTo setup source cs 0).value.stack.depth = 1 := by
  rw [upTo_zero]
  exact Context.depth_loadCore rfl

theorem upTo_succ (setup : Setup) (source : Source) {j : Nat} {c : Command}
    (hc : cs[j]? = some c) : ∃ s, upTo setup source cs (j + 1) =
      upTo setup source cs j >>= fun ctx => command setup ctx s c := by
  have hitem : (((Spot.top source).along 0 cs)[j]?).map Prod.snd = some c := by
    rw [← List.getElem?_map, Spot.map_snd_along]
    exact hc
  obtain ⟨⟨s, _⟩, hs, rfl⟩ := Option.map_eq_some_iff.mp hitem
  refine ⟨s, ?_⟩
  rw [upTo, upTo, bind_assoc, List.take_add_one, hs]
  simp only [List.foldlM_append, Option.toList_some, List.foldlM_cons, List.foldlM_nil, bind_pure]

/-- Commands that neither reset nor set a logic leave the records alone. -/
theorem command_onStack (setup : Setup) (ctx : Context) (s : Spot) {c : Command}
    (hreset : c ≠ .reset) (hset : ∀ name, c ≠ .setLogic name) : (command setup ctx s c).value =
      { ctx with stack := (command setup ctx s c).value.stack } := by
  cases c with
  | reset => exact absurd rfl hreset
  | setLogic name => exact absurd rfl (hset name)
  | _ => rfl

/-- Where the theories on record come from: a logic was set, and its scope has them unless it was
left. -/
def SetBefore (setup : Setup) (source : Source) (cs : List Command) (j : Nat) : Prop :=
  ∃ i name, i < j ∧ cs[i]? = some (.setLogic name) ∧
    (∀ k, i < k → k < j → cs[k]? ≠ some .reset) ∧
    let scope := (upTo setup source cs i).value.stack.depth
    ((∀ m, i < m → m ≤ j → scope ≤ (upTo setup source cs m).value.stack.depth) →
      ∀ t ∈ (upTo setup source cs j).value.theories,
        (upTo setup source cs j).value.stack.AtDepth (setup.Shows t) scope)

/-- What holds while a script runs without findings. -/
structure Tracked (setup : Setup) (source : Source) (cs : List Command) (j : Nat) : Prop where
  sound : (upTo setup source cs j).value.stack.Sound
  core : (upTo setup source cs j).value.coreLoaded = true →
    (upTo setup source cs j).value.stack.AtDepth (setup.Shows coreName) 1
  unset : (upTo setup source cs j).value.logic = none →
    (upTo setup source cs j).value.theories = []
  theories : (upTo setup source cs j).value.theories = [] ∨ SetBefore setup source cs j

theorem tracked_zero (hplain : setup.PlainTheories)
    (h : (upTo setup source cs 0).findings = []) : Tracked setup source cs 0 := by
  have hgrows : Context.fresh.Grows setup False (upTo setup source cs 0).value := by
    rw [upTo_zero]
    exact Context.grows_loadCore False.elim
  have hsound := Stack.sound_empty.entered hgrows.stack
  rw [upTo_zero] at h
  obtain ⟨htheories, hcore⟩ := Context.shows_loadCore hplain rfl h
  rw [← upTo_zero] at htheories hcore
  refine ⟨hsound, fun hloaded => ?_, fun _ => htheories, .inl htheories⟩
  rw [← depth_upTo_zero setup source cs]
  exact Stack.atDepth_self (hcore hloaded)

section

variable {j : Nat} {s : Spot} {c : Command}

theorem Tracked.reset (hplain : setup.PlainTheories) (h : Tracked setup source cs j)
    (hvalue : (upTo setup source cs (j + 1)).value =
      (command setup (upTo setup source cs j).value s .reset).value)
    (hfindings : (command setup (upTo setup source cs j).value s .reset).findings = []) :
    Tracked setup source cs (j + 1) := by
  have hdepth : (command setup (upTo setup source cs j).value s .reset).value.stack.depth = 1 :=
    Context.depth_loadCore rfl
  obtain ⟨htheories, hcore⟩ := Context.shows_loadCore hplain rfl hfindings
  constructor
  all_goals rw [hvalue]
  · exact Context.sound_command h.sound setup s .reset
  · exact fun hloaded => hdepth ▸ Stack.atDepth_self (hcore hloaded)
  · exact fun _ => htheories
  · exact .inl htheories

/-- The core theory stays in the bottom scope. -/
theorem Tracked.core_of_moves (h : Tracked setup source cs j) (hreset : c ≠ .reset)
    (hcore : (upTo setup source cs j).value.coreLoaded = true) :
    (command setup (upTo setup source cs j).value s c).value.stack.AtDepth
      (setup.Shows coreName) 1 := by
  exact (h.core hcore).moves (setup.shows_of_includes _) (Context.moves_of_ne_reset hreset).stack
    (Nat.le_add_left 1 _)

theorem Tracked.setLogic (hplain : setup.PlainTheories) (h : Tracked setup source cs j)
    {name : String} (hc : cs[j]? = some (.setLogic name))
    (hvalue : (upTo setup source cs (j + 1)).value =
      (command setup (upTo setup source cs j).value s (.setLogic name)).value)
    (hfindings : (command setup (upTo setup source cs j).value s (.setLogic name)).findings = []) :
    Tracked setup source cs (j + 1) := by
  obtain ⟨hlogic, hnotes⟩ := Context.notes_setLogic hplain hfindings
  have hgrows : (upTo setup source cs j).value.Grows setup False
      (command setup (upTo setup source cs j).value s (.setLogic name)).value :=
    Context.grows_setLogic False.elim
  have hbacked := hnotes.backed ⟨fun hcore => ?_, fun t ht => ?_⟩
  · refine ⟨?_, fun hcore => ?_, fun hnone => ?_, .inr ⟨j, name, Nat.lt_succ_self j, hc, ?_, ?_⟩⟩
    · rw [hvalue]
      exact h.sound.entered hgrows.stack
    · rw [hvalue] at hcore ⊢
      exact h.core_of_moves nofun (hnotes.coreLoaded.symm.trans hcore)
    · rw [hvalue] at hnone
      cases hnotes.logic.symm.trans hnone
    · intro k hjk hkj
      omega
    · intro scope _ t ht
      rw [hvalue] at ht ⊢
      refine ⟨_, List.suffix_rfl, ?_, hbacked.theories t ht⟩
      rw [Stack.depth, show Stack.outer _ = _ from hgrows.stack.outer_eq]
      rfl
  · exact (h.core hcore).here (setup.shows_of_includes _) h.sound
  · rw [show Context.theories _ = [] from h.unset hlogic] at ht
    cases ht

theorem Tracked.onStack (h : Tracked setup source cs j) (hc : cs[j]? = some c)
    (hreset : c ≠ .reset) (hset : ∀ name, c ≠ .setLogic name)
    (hvalue : (upTo setup source cs (j + 1)).value =
      (command setup (upTo setup source cs j).value s c).value) :
    Tracked setup source cs (j + 1) := by
  have hmoves : (upTo setup source cs j).value.Moves setup False
      (command setup (upTo setup source cs j).value s c).value :=
    Context.moves_of_ne_reset hreset
  have hrecords := command_onStack setup (upTo setup source cs j).value s hreset hset
  refine ⟨?_, fun hcore => ?_, fun hnone => ?_, ?_⟩
  · rw [hvalue]
    exact h.sound.moves hmoves.stack
  · rw [hvalue] at hcore ⊢
    rw [hrecords] at hcore
    exact h.core_of_moves hreset hcore
  · rw [hvalue, hrecords] at hnone ⊢
    exact h.unset hnone
  · have htheories : (upTo setup source cs (j + 1)).value.theories =
        (upTo setup source cs j).value.theories := by
      rw [hvalue, hrecords]
    rcases h.theories with hnil | ⟨i, name, hij, hi, hquiet, hscope⟩
    · exact .inl (htheories.trans hnil)
    · refine .inr ⟨i, name, Nat.lt_succ_of_lt hij, hi, fun k hik hkj => ?_, fun hkept t ht => ?_⟩
      · by_cases hk : k = j
        · rw [hk, hc]
          exact fun heq => hreset (Option.some.inj heq)
        · exact hquiet k hik (by omega)
      · have hdepth := hkept (j + 1) (by omega) (Nat.le_refl _)
        have hbefore := hscope (fun m him hmj => hkept m him (by omega)) t (htheories ▸ ht)
        rw [hvalue] at hdepth ⊢
        exact hbefore.moves (setup.shows_of_includes _) hmoves.stack hdepth

end

/-- While nothing is found, the theories on record are tracked. -/
theorem tracked_upTo (hplain : setup.PlainTheories) {j : Nat} (hj : j ≤ cs.length)
    (h : (upTo setup source cs j).findings = []) : Tracked setup source cs j := by
  induction j with
  | zero => exact tracked_zero hplain h
  | succ j ih =>
    have hc : cs[j]? = some cs[j] := List.getElem?_eq_getElem hj
    obtain ⟨s, hs⟩ := upTo_succ setup source hc
    have hvalue : (upTo setup source cs (j + 1)).value =
        (command setup (upTo setup source cs j).value s cs[j]).value := by
      rw [hs]
      rfl
    rw [hs, Logged.findings_bind, List.append_eq_nil_iff] at h
    have htracked := ih (Nat.le_of_succ_le hj) h.1
    by_cases hreset : cs[j] = .reset
    · rw [hreset] at hvalue h
      exact htracked.reset hplain hvalue h.2
    · by_cases hset : ∃ name, cs[j] = .setLogic name
      · obtain ⟨name, hname⟩ := hset
        rw [hname] at hc hvalue h
        exact htracked.setLogic hplain hc hvalue h.2
      · exact htracked.onStack hc hreset (fun name hname => hset ⟨name, hname⟩) hvalue

end Check

/-! ### Visible theories -/

/-- Whether all sorts and functions of a theory are found in a stack under their names: the sorts as
symbols, and the functions with their signatures. -/
structure Theory.VisibleIn (t : Theory) (G : Stack) : Prop where
  sorts : ∀ d ∈ t.sortSymbols, G.IsSymbol d.name.key (min d.arity SortDecl.maxArity)
  funs : ∀ d ∈ t.funSymbols, ∃ f ∈ G.overloads d.key,
    f.params = d.params.map quoteSymbol ∧ f.signature = G.resolveAll f.params d.signature

theorem Setup.Shows.visible {setup : Setup} {name : String} {G : Stack} (hG : G.Sound)
    (h : setup.Shows name G) : ∃ t, setup.theory? name = some t ∧ t.VisibleIn G := by
  obtain ⟨t, ht, -, hsorts, hfuns⟩ := h
  refine ⟨t, ht, hsorts, fun d hd => ?_⟩
  obtain ⟨f, hf, hname, hparams, hsignature, -⟩ := hfuns d hd
  refine ⟨f, ?_, hparams, hsignature⟩
  rw [hG.consistent.overloads]
  exact Stack.mem_allOverloads.mpr ⟨hf, hname⟩

namespace Check

/-- Whether the scope in which the logic was set is not left, where no reset comes after it. -/
def KeepsLogicScope (setup : Setup) (source : Source) (cs : List Command) : Prop :=
  ∀ i name, cs[i]? = some (.setLogic name) → (∀ k, i < k → cs[k]? ≠ some .reset) →
    ∀ j, i < j → j ≤ cs.length →
      (upTo setup source cs i).value.stack.depth ≤ (upTo setup source cs j).value.stack.depth

/-- After a script without findings, the core theory is visible if it was loaded, and the theories
of the logic are if the scope in which the logic was set was not left. -/
theorem visible_of_quiet {setup : Setup} (hplain : setup.PlainTheories) {source : Source}
    {cs : List Command} (h : (root setup .fresh ⟨source, .script cs⟩).findings = []) :
    let ctx := (root setup .fresh ⟨source, .script cs⟩).value
    (ctx.coreLoaded = true →
      ∃ t, setup.theory? coreName = some t ∧ t.VisibleIn ctx.stack) ∧
    (KeepsLogicScope setup source cs →
      ∀ name ∈ ctx.theories, ∃ t, setup.theory? name = some t ∧ t.VisibleIn ctx.stack) := by
  rw [root_script] at h ⊢
  intro ctx
  have htracked := tracked_upTo hplain (Nat.le_refl cs.length) h
  refine ⟨fun hcore => ?_, fun hkeeps name hname => ?_⟩
  · exact ((htracked.core hcore).here (setup.shows_of_includes _) htracked.sound).visible
      htracked.sound
  · rcases htracked.theories with hnil | ⟨i, logic, hi, hset, hreset, hscope⟩
    · rw [show ctx.theories = [] from hnil] at hname
      cases hname
    · -- Behind the end of the script there is no reset either.
      have hlast : ∀ k, i < k → cs[k]? ≠ some .reset := by
        intro k hik
        by_cases hk : k < cs.length
        · exact hreset k hik hk
        · rw [List.getElem?_eq_none (by omega)]
          nofun
      have hshows := hscope (hkeeps i logic hset hlast) name hname
      exact (hshows.here (setup.shows_of_includes _) htracked.sound).visible htracked.sound

end Check

end WellSorted
