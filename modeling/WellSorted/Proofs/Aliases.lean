import WellSorted.Proofs.Dropped
import WellSorted.Proofs.WellFormed

/-!
# Aliases

An alias is stored with its definition resolved, in which the parameters stand as atoms. Sorts can
have the names of parameters, so a later substitution for the parameters is the one meant only if
the aliases that were unfolded in the definition spare these names (`Stack.spares`): they mention
them as parameters of their own, if at all. Then unfolding an alias is resolving its definition with
the arguments in place of the parameters (`Stack.replace_resolve`), and parameters that are written
without bars can be renamed (`Context.rename_sort_params`).
-/

namespace WellSorted

/-! ### Substitutions -/

namespace Subst

theorem ofArguments_map (f : SmtSort → SmtSort) (params : List String) (args : List SmtSort) :
    ofArguments params (args.map f) = (ofArguments params args).mapSorts f := by
  rw [ofArguments, List.zip_map_right, ← List.map_reverse]
  rfl

theorem total_ofArguments {params : List String} {args : List SmtSort}
    (h : params.length = args.length) : (ofArguments params args).Total params := by
  refine fun p => ⟨ofArguments_total h p, fun hp => ?_⟩
  obtain ⟨t, ht⟩ := Option.isSome_iff_exists.mp hp
  obtain ⟨i, hi, -⟩ := exists_of_get?_ofArguments ht
  exact List.mem_of_getElem? hi

/-- Distinct parameters are bound to the arguments at their places. -/
theorem get?_ofArguments {params : List String} (hparams : params.Nodup) {args : List SmtSort}
    (h : params.length = args.length) {i : Nat} {p : String} (hi : params[i]? = some p) :
    (ofArguments params args).get? p = args[i]? := by
  obtain ⟨t, ht⟩ := Option.isSome_iff_exists.mp (ofArguments_total h p (List.mem_of_getElem? hi))
  obtain ⟨j, hj, hjt⟩ := exists_of_get?_ofArguments ht
  have hlt : i < params.length := (List.getElem?_eq_some_iff.mp hi).1
  have hij : i = j := (List.getElem?_inj hlt hparams).mp (hi.trans hj.symm)
  rw [ht, hij, hjt]

end Subst

/-! ### Aliases that spare names -/

/-- Whether the definition of a sort, if it is an alias, mentions none of the names except for its
own parameters. -/
def SortDecl.spares (d : SortDecl) (names : List String) : Bool :=
  names.all fun p => d.params.contains p || !d.definition.any (·.mentions p)

namespace Stack

mutual

/-- Whether the aliases in a sort spare the names, which are sorts of their own there. -/
def spares (G : Stack) (names : List String) : SmtSort → Bool
  | .mk head args =>
    (SmtSort.asParam names (.mk head args)).isSome ||
      ((G.sort? head.key).all (·.spares names) && G.sparesAll names args)

def sparesAll (G : Stack) (names : List String) : List SmtSort → Bool
  | [] => true
  | s :: rest => G.spares names s && G.sparesAll names rest

end

theorem sparesAll_eq_true {G : Stack} {names : List String} {ss : List SmtSort} :
    G.sparesAll names ss = true ↔ ∀ s ∈ ss, G.spares names s = true := by
  induction ss with
  | nil => simp [sparesAll]
  | cons s ss ih => rw [sparesAll, Bool.and_eq_true, ih, List.forall_mem_cons]

theorem spares_mk {G : Stack} {names : List String} {head : Identifier} {args : List SmtSort}
    (hparam : SmtSort.asParam names (.mk head args) = none)
    (h : G.spares names (.mk head args) = true) :
    (∀ d, G.sort? head.key = some d → d.spares names = true) ∧
      ∀ s ∈ args, G.spares names s = true := by
  rw [spares, hparam, Option.isSome_none, Bool.false_or, Bool.and_eq_true, sparesAll_eq_true] at h
  refine ⟨fun d hd => ?_, h.2⟩
  rw [hd] at h
  exact h.1

end Stack

/-- Substituting in what an alias stands for is substituting in its arguments. -/
theorem SortDecl.replace_definedAs? {d : SortDecl} {names : List String} {σ : Subst}
    (hσ : σ.Within names) (hd : d.spares names = true) (args : List SmtSort) :
    (d.definedAs? args).map (SmtSort.replace σ) = d.definedAs? (args.map (SmtSort.replace σ)) := by
  rw [definedAs?, definedAs?, List.length_map]
  cases hdef : d.definition with
  | none => rfl
  | some s =>
    by_cases hlength : d.params.length = args.length
    · simp only [if_pos hlength, Option.map_some, Option.some.injEq]
      rw [Subst.ofArguments_map]
      refine SmtSort.replace_replace fun p hp hσp => ?_
      obtain ⟨t, ht⟩ := Option.isSome_iff_exists.mp hσp
      have hspared := List.all_eq_true.mp hd p (hσ p t ht)
      rw [hdef, Option.any_some, hp, Bool.not_true, Bool.or_false, List.contains_iff_mem] at hspared
      exact Subst.ofArguments_total hlength p hspared
    · simp only [if_neg hlength, Option.map_none]

namespace Stack

theorem replace_applySort {G : Stack} {names : List String} {σ : Subst} (hσ : σ.Within names)
    {head : Identifier} {args : List SmtSort}
    (hparam : SmtSort.asParam names (.mk head args) = none)
    (hhead : ∀ d, G.sort? head.key = some d → d.spares names = true) :
    (G.applySort head args).replace σ = G.applySort head (args.map (SmtSort.replace σ)) := by
  have hself : (SmtSort.mk head args).replace σ = .mk head (args.map (SmtSort.replace σ)) := by
    rw [SmtSort.replace_of_asParam_eq_none hσ hparam, SmtSort.replaceAll_eq_map]
  rw [applySort, applySort]
  cases hd : G.sort? head.key with
  | none => exact hself
  | some d =>
    rw [Option.bind_some, Option.bind_some, ← SortDecl.replace_definedAs? hσ (hhead d hd)]
    cases d.definedAs? args with
    | none => exact hself
    | some s => rfl

theorem resolve_of_asParam_eq_none (G : Stack) {params : List String} {head : Identifier}
    {args : List SmtSort} (h : SmtSort.asParam params (.mk head args) = none) :
    G.resolve params (.mk head args) = G.applySort head (args.map (G.resolve params)) := by
  rw [resolve, h, ← resolveAll_eq_map]
  rfl

theorem expand_mk (G : Stack) (head : Identifier) (args : List SmtSort) :
    G.expand (.mk head args) = G.applySort head (args.map G.expand) :=
  G.resolve_of_asParam_eq_none (SmtSort.asParam_eq_none.mpr nofun)

theorem resolve_simple (G : Stack) {params : List String} {p : String} (hp : p ∈ params) :
    G.resolve params (.simple p) = .simple p := by
  have hparam : SmtSort.asParam params (.simple p) = some p :=
    SmtSort.asParam_eq_some.mpr ⟨rfl, hp⟩
  rw [SmtSort.simple] at hparam ⊢
  rw [resolve, hparam]
  rfl

/-- A substitution after resolving, where sorts are resolved separately. -/
theorem replace_resolve_of_asParam_eq_none {G : Stack} {params : List String} {σ : Subst}
    (hσ : σ.Within params) {head : Identifier} {args : List SmtSort}
    (hparam : SmtSort.asParam params (.mk head args) = none)
    (hspares : G.spares params (.mk head args) = true) :
    (G.resolve params (.mk head args)).replace σ =
      G.applySort head (args.map fun s => (G.resolve params s).replace σ) := by
  have hresolved : SmtSort.asParam params (.mk head (args.map (G.resolve params))) = none :=
    SmtSort.asParam_eq_none_of_length (List.length_map _) hparam
  rw [resolve_of_asParam_eq_none G hparam,
    replace_applySort hσ hresolved (spares_mk hparam hspares).1, List.map_map]
  rfl

/-- Substituting resolved sorts in a resolved sort is resolving after substituting. -/
theorem replace_resolve {G : Stack} {params : List String} {σ : Subst} (hσ : σ.Total params)
    {s : SmtSort} (hs : G.spares params s = true) :
    (G.resolve params s).replace (σ.mapSorts G.expand) = G.expand (s.replace σ) := by
  have hwithin : (σ.mapSorts G.expand).Within params := by
    intro p t ht
    rw [Subst.get?_mapSorts, Option.map_eq_some_iff] at ht
    obtain ⟨u, hu, -⟩ := ht
    exact hσ.within p u hu
  induction s using SmtSort.ind with
  | h head args ih =>
    cases hparam : SmtSort.asParam params (.mk head args) with
    | some p =>
      obtain ⟨heq, hp⟩ := SmtSort.asParam_eq_some.mp hparam
      obtain ⟨t, ht⟩ := Option.isSome_iff_exists.mp ((hσ p).mp hp)
      rw [heq, resolve_simple G hp, SmtSort.replace_simple, SmtSort.replace_simple,
        Subst.get?_mapSorts, ht]
      rfl
    | none =>
      rw [replace_resolve_of_asParam_eq_none hwithin hparam hs,
        SmtSort.replace_of_asParam_eq_none hσ.within hparam, SmtSort.replaceAll_eq_map, expand_mk,
        List.map_map]
      refine congrArg (G.applySort head) (List.map_congr_left fun s' hs' => ?_)
      exact ih s' hs' ((spares_mk hparam hs).2 s' hs')

end Stack

/-! ### Renaming parameters -/

/-- A key is the quoted form of a symbol only if it is the key of this symbol. -/
theorem Identifier.key_eq_quoteSymbol {i : Identifier} {p : String} :
    i.key = quoteSymbol p ↔ i = simple p := by
  refine ⟨fun h => ?_, fun h => by rw [h, key_simple]⟩
  obtain ⟨x, indices⟩ := i
  cases indices with
  | nil =>
    have hkey : key ⟨x, []⟩ = quoteSymbol x := key_simple x
    rw [hkey] at h
    rw [quoteSymbol_injective h, simple]
  | cons index indices =>
    by_cases hp : isPlainSymbol p = true
    · rw [quoteSymbol_of_isPlainSymbol hp] at h
      have hsimple := eq_simple_of_isPlainSymbol_key (h ▸ hp)
      exact absurd (congrArg Identifier.indices hsimple) (List.cons_ne_nil _ _)
    · have hbars : quoteSymbol p = "|" ++ p ++ "|" := if_neg hp
      have hfirst := congrArg (fun text : String => text.toList.head?) h
      rw [hbars, String.toList_append, String.toList_append, key, Spelling.text,
        String.toList_ofList] at hfirst
      cases hfirst

/-- Rename parameters in a sort. -/
def SmtSort.renamed (ps qs : List String) (s : SmtSort) : SmtSort :=
  s.replace (.ofArguments ps (qs.map .simple))

/-- Whether distinct parameters can be renamed to others that are not in a sort. -/
structure Renames (ps qs : List String) (s : SmtSort) : Prop where
  length : qs.length = ps.length
  old : ps.Nodup
  new : qs.Nodup
  absent : ∀ q ∈ qs, s.mentions q = false

namespace Renames

variable {ps qs : List String}

theorem arg {head : Identifier} {args : List SmtSort} (h : Renames ps qs (.mk head args))
    {s : SmtSort} (hs : s ∈ args) : Renames ps qs s := by
  refine ⟨h.length, h.old, h.new, fun q hq => ?_⟩
  rw [← Bool.not_eq_true]
  intro hmentions
  have hmk : (SmtSort.mk head args).mentions q = true := SmtSort.mentions_of_mem hs hmentions
  rw [h.absent q hq] at hmk
  cases hmk

/-- A parameter is renamed to the one at its place. -/
theorem renamed_simple {s : SmtSort} (h : Renames ps qs s) {p : String} (hp : p ∈ ps) :
    ∃ (i : Nat) (q : String), ps[i]? = some p ∧ qs[i]? = some q ∧
      (SmtSort.simple p).renamed ps qs = .simple q := by
  obtain ⟨i, hi, rfl⟩ := List.getElem_of_mem hp
  have hp' : ps[i]? = some ps[i] := List.getElem?_eq_getElem hi
  have hi' : i < qs.length := h.length ▸ hi
  have hq' : qs[i]? = some qs[i] := List.getElem?_eq_getElem hi'
  refine ⟨i, qs[i], hp', hq', ?_⟩
  rw [SmtSort.renamed, SmtSort.replace_simple,
    Subst.get?_ofArguments h.old (by rw [List.length_map, h.length]) hp', List.getElem?_map, hq']
  rfl

theorem renamed_mk {head : Identifier} {args : List SmtSort} (h : Renames ps qs (.mk head args))
    (hparam : SmtSort.asParam ps (.mk head args) = none) :
    (SmtSort.mk head args).renamed ps qs = .mk head (args.map (SmtSort.renamed ps qs)) ∧
      SmtSort.asParam qs (.mk head (args.map (SmtSort.renamed ps qs))) = none := by
  have hwithin : (Subst.ofArguments ps (qs.map .simple)).Within ps :=
    (Subst.total_ofArguments (by rw [List.length_map, h.length])).within
  refine ⟨?_, SmtSort.asParam_eq_none_of_length (List.length_map _) ?_⟩
  · rw [SmtSort.renamed, SmtSort.replace_of_asParam_eq_none hwithin hparam,
      SmtSort.replaceAll_eq_map]
    rfl
  · refine SmtSort.asParam_eq_none.mpr fun q hq heq => ?_
    have habsent := h.absent q hq
    rw [heq, SmtSort.mentions_simple, beq_self_eq_true] at habsent
    cases habsent

end Renames

namespace Stack

theorem checkSorts_eq_flatMap (G : Stack) (params : List String) (n : Node) (ss : List SmtSort) :
    G.checkSorts params n ss = ss.flatMap (G.checkSort params n) := by
  induction ss with
  | nil => rfl
  | cons s ss ih => rw [checkSorts, ih, List.flatMap_cons]

/-- The check knows a parameter by its quoted form. -/
theorem checkSort_simple (G : Stack) {params : List String} (n : Node) {p : String}
    (hp : p ∈ params) : G.checkSort (params.map quoteSymbol) n (.simple p) = [] := by
  rw [SmtSort.simple, checkSort, Identifier.key_simple, if_pos]
  rw [Bool.and_eq_true, List.contains_iff_mem]
  exact ⟨rfl, List.mem_map_of_mem hp⟩

theorem checkSort_of_asParam_eq_none (G : Stack) {params : List String} (n : Node)
    {head : Identifier} {args : List SmtSort}
    (h : SmtSort.asParam params (.mk head args) = none) :
    G.checkSort (params.map quoteSymbol) n (.mk head args) =
      G.checkHead n head.key args.length ++
        args.flatMap (G.checkSort (params.map quoteSymbol) n) := by
  rw [checkSort, if_neg, checkSorts_eq_flatMap]
  rw [Bool.and_eq_true, List.isEmpty_iff, List.contains_iff_mem]
  rintro ⟨hargs, hkey⟩
  obtain ⟨p, hp, hpkey⟩ := List.mem_map.mp hkey
  exact SmtSort.asParam_eq_none.mp h p hp
    (SmtSort.mk_eq_simple.mpr ⟨Identifier.key_eq_quoteSymbol.mp hpkey.symm, hargs⟩)

/-- Sorts that pass the check resolve to the same after more sorts were declared. -/
theorem resolve_of_keeps {G H : Stack} (h : H.Keeps G) {params : List String} {n : Node}
    {s : SmtSort} (hs : H.checkSort (params.map quoteSymbol) n s = []) :
    H.resolve params s = G.resolve params s := by
  induction s using SmtSort.ind with
  | h head args ih =>
    cases hparam : SmtSort.asParam params (.mk head args) with
    | some p =>
      obtain ⟨heq, hp⟩ := SmtSort.asParam_eq_some.mp hparam
      rw [heq, resolve_simple H hp, resolve_simple G hp]
    | none =>
      rw [checkSort_of_asParam_eq_none H n hparam, List.append_eq_nil_iff, checkHead_eq_nil,
        List.flatMap_eq_nil_iff] at hs
      obtain ⟨⟨d, hd, -⟩, hargs⟩ := hs
      rw [resolve_of_asParam_eq_none H hparam, resolve_of_asParam_eq_none G hparam, applySort,
        applySort, hd, h _ _ hd, List.map_congr_left fun t ht => ih t ht (hargs t ht)]

theorem length_checkHead (G : Stack) (n n' : Node) (name : String) (count : Nat) :
    (G.checkHead n name count).length = (G.checkHead n' name count).length := by
  unfold checkHead
  cases G.sort? name with
  | none => rfl
  | some d => by_cases h : d.arity = count <;> simp [h]

/-- As many messages are recorded for a sort if parameters are renamed in it. -/
theorem length_checkSort_renamed (G : Stack) (n n' : Node) {ps qs : List String} {s : SmtSort}
    (h : Renames ps qs s) : (G.checkSort (ps.map quoteSymbol) n s).length =
      (G.checkSort (qs.map quoteSymbol) n' (s.renamed ps qs)).length := by
  induction s using SmtSort.ind with
  | h head args ih =>
    cases hparam : SmtSort.asParam ps (.mk head args) with
    | some p =>
      obtain ⟨heq, hp⟩ := SmtSort.asParam_eq_some.mp hparam
      obtain ⟨i, q, -, hq, hrenamed⟩ := h.renamed_simple hp
      rw [heq, hrenamed, checkSort_simple G n hp, checkSort_simple G n' (List.mem_of_getElem? hq)]
    | none =>
      obtain ⟨hrenamed, hparam'⟩ := h.renamed_mk hparam
      rw [hrenamed, checkSort_of_asParam_eq_none G n hparam,
        checkSort_of_asParam_eq_none G n' hparam', List.length_append, List.length_append,
        List.length_map, G.length_checkHead n n', List.length_flatMap, List.length_flatMap,
        List.map_map]
      refine congrArg _ (congrArg List.sum (List.map_congr_left fun s hs => ?_))
      exact ih s hs (h.arg hs)

/-- Definitions that differ in the names of their parameters stand for the same sorts. -/
theorem replace_resolve_renamed {G : Stack} {ps qs : List String} {s : SmtSort}
    (h : Renames ps qs s) (hs : G.spares ps s = true)
    (hs' : G.spares qs (s.renamed ps qs) = true) {args : List SmtSort}
    (hargs : args.length = ps.length) :
    (G.resolve ps s).replace (.ofArguments ps args) =
      (G.resolve qs (s.renamed ps qs)).replace (.ofArguments qs args) := by
  have hlength' : qs.length = args.length := h.length.trans hargs.symm
  have hwithin := (Subst.total_ofArguments hargs.symm).within
  have hwithin' := (Subst.total_ofArguments hlength').within
  induction s using SmtSort.ind with
  | h head sorts ih =>
    cases hparam : SmtSort.asParam ps (.mk head sorts) with
    | some p =>
      obtain ⟨heq, hp⟩ := SmtSort.asParam_eq_some.mp hparam
      obtain ⟨i, q, hpi, hqi, hrenamed⟩ := h.renamed_simple hp
      have hi : i < args.length := hargs ▸ (List.getElem?_eq_some_iff.mp hpi).1
      rw [heq, hrenamed, resolve_simple G hp, resolve_simple G (List.mem_of_getElem? hqi),
        SmtSort.replace_simple, SmtSort.replace_simple, Subst.get?_ofArguments h.old hargs.symm hpi,
        Subst.get?_ofArguments h.new hlength' hqi, List.getElem?_eq_getElem hi]
      rfl
    | none =>
      obtain ⟨hrenamed, hparam'⟩ := h.renamed_mk hparam
      rw [hrenamed] at hs' ⊢
      rw [replace_resolve_of_asParam_eq_none hwithin hparam hs,
        replace_resolve_of_asParam_eq_none hwithin' hparam' hs', List.map_map]
      refine congrArg (G.applySort head) (List.map_congr_left fun s hmem => ?_)
      exact ih s hmem (h.arg hmem) ((spares_mk hparam hs).2 s hmem)
        ((spares_mk hparam' hs').2 _ (List.mem_map_of_mem hmem))

/-- Stacks whose aliases stand for the same sorts resolve sorts in the same way. -/
theorem expand_congr {G H : Stack} (h : ∀ name args,
    (G.sort? name).bind (·.definedAs? args) = (H.sort? name).bind (·.definedAs? args))
    (s : SmtSort) : G.expand s = H.expand s := by
  induction s using SmtSort.ind with
  | h head args ih =>
    rw [expand_mk, expand_mk, applySort, applySort, h, List.map_congr_left ih]

/-- Declaring a sort under a name that is taken. -/
theorem declareSort_of_some {G : Stack} {d e : SortDecl} (h : G.sort? d.name = some e) :
    (G.declareSort d).findings.length = 1 ∧ (G.declareSort d).value = G := by
  have hinsert : G.insert (.sort d) = .error (.sort e) := by rw [insert, conflict?, h]; rfl
  rw [declareSort, declare, hinsert]
  exact ⟨rfl, rfl⟩

theorem declareSort_of_none {G : Stack} {d : SortDecl} (h : G.sort? d.name = none) :
    (G.declareSort d).findings.length = 0 ∧ ∀ name,
      (G.declareSort d).value.sort? name = if d.name = name then some d else G.sort? name := by
  have hinsert : G.insert (.sort d) = .ok { G with top := G.top.put (.sort d) } :=
    insert_eq_ok.mpr ⟨conflict?_sort_eq_none.mpr h, rfl⟩
  have hvalue : (G.declareSort d).value = { G with top := G.top.put (.sort d) } := by
    rw [declareSort, declare, hinsert]
    rfl
  refine ⟨by rw [declareSort, declare, hinsert]; rfl, fun name => ?_⟩
  rw [hvalue]
  split
  · next hname => exact hname ▸ sort?_of_insert_sort hinsert
  · next hname =>
    have hlast : [d].find? (·.name == name) = none := by simpa using hname
    rw [sort?_eq, sort?_eq, Scope.put, Scope.sort?, List.find?_append, hlast, Option.or_none]
    rfl

/-- The alias that a definition declares. -/
def aliasFor (G : Stack) (n : Node) (name : String) (params : List String) (body : SmtSort) :
    SortDecl :=
  let params := params.map quoteSymbol
  .aliasOf (quoteSymbol name) params (G.resolve params body) n

/-- Two sorts of one name are declared alike if they stand for the same sorts. -/
theorem declareSort_congr (G : Stack) (d d' : SortDecl) (hname : d'.name = d.name) :
    (G.declareSort d).findings.length = (G.declareSort d').findings.length ∧
      ((∀ args, d.definedAs? args = d'.definedAs? args) →
        ∀ t, (G.declareSort d).value.expand t = (G.declareSort d').value.expand t) := by
  cases hd : G.sort? d.name with
  | some e =>
    have hdeclared := declareSort_of_some hd
    have hdeclared' := declareSort_of_some (d := d') (hname ▸ hd)
    exact ⟨by rw [hdeclared.1, hdeclared'.1], fun _ t => by rw [hdeclared.2, hdeclared'.2]⟩
  | none =>
    have hdeclared := declareSort_of_none hd
    have hdeclared' := declareSort_of_none (d := d') (hname ▸ hd)
    refine ⟨by rw [hdeclared.1, hdeclared'.1], fun hdefined => expand_congr fun name args => ?_⟩
    rw [hdeclared.2, hdeclared'.2, hname]
    split
    · exact hdefined args
    · rfl

end Stack

namespace Context

open Check

theorem findings_command_defineSort (setup : Setup) (ctx : Context) (s : Spot) (name : String)
    (params : List String) (body : SmtSort) :
    let n := s.node (.command (.defineSort name params body))
    (command setup ctx s (.defineSort name params body)).findings =
      ctx.stack.checkSort (params.map quoteSymbol) n body ++
        (ctx.stack.declareSort (ctx.stack.aliasFor n name params body)).findings :=
  List.append_nil _

/-- Renaming the distinct sort parameters of a definition to others that are not in it records as
many messages. If old and new ones are written without bars, and the aliases in both definitions
spare their parameters, then all sorts resolve to the same afterwards. -/
theorem rename_sort_params (setup : Setup) (ctx : Context) (s s' : Spot) (name : String)
    {ps qs : List String} {body : SmtSort} (h : Renames ps qs body) :
    let m := command setup ctx s (.defineSort name ps body)
    let m' := command setup ctx s' (.defineSort name qs (body.renamed ps qs))
    m.findings.length = m'.findings.length ∧
      (PlainParams ps → PlainParams qs → ctx.stack.spares ps body = true →
        ctx.stack.spares qs (body.renamed ps qs) = true →
        ∀ t, m.value.stack.expand t = m'.value.stack.expand t) := by
  intro m m'
  let n := s.node (.command (.defineSort name ps body))
  let n' := s'.node (.command (.defineSort name qs (body.renamed ps qs)))
  obtain ⟨hcount, hexpand⟩ := ctx.stack.declareSort_congr (ctx.stack.aliasFor n name ps body)
    (ctx.stack.aliasFor n' name qs (body.renamed ps qs)) rfl
  refine ⟨?_, fun hps hqs hspares hspares' => ?_⟩
  · rw [findings_command_defineSort, findings_command_defineSort, List.length_append,
      List.length_append, ctx.stack.length_checkSort_renamed n n' h]
    exact congrArg _ hcount
  · refine hexpand fun args => ?_
    simp only [Stack.aliasFor, hps.map_quoteSymbol, hqs.map_quoteSymbol, SortDecl.definedAs?,
      SortDecl.aliasOf, h.length]
    split
    · next hargs => rw [Stack.replace_resolve_renamed h hspares hspares' hargs.symm]
    · rfl

/-- A scope with pairs of sorts, and an alias that has the parameter of the next definition. -/
def pairScope : Context :=
  (root bare .fresh ⟨⟨.nowhere, [], []⟩,
    .script [.declareSort "Pair" 2, .defineSort "Same" ["p"] (.simple "p")]⟩).value

theorem rename_sort_params_pair :
    let s := Spot.top ⟨.nowhere, [], []⟩
    let body := SmtSort.mk (.simple "Pair") [.mk (.simple "Same") [.simple "p"], .simple "p"]
    let body' := SmtSort.mk (.simple "Pair") [.mk (.simple "Same") [.simple "q"], .simple "q"]
    body.renamed ["p"] ["q"] = body' ∧ ∀ t,
      (command bare pairScope s (.defineSort "F" ["p"] body)).value.stack.expand t =
        (command bare pairScope s (.defineSort "F" ["q"] body')).value.stack.expand t := by
  intro s body body'
  have hrenamed : body.renamed ["p"] ["q"] = body' := by decide +kernel
  have hrenames : Renames ["p"] ["q"] body :=
    ⟨rfl, by decide, by decide, by decide +kernel⟩
  have h := (rename_sort_params bare pairScope s s "F" hrenames).2 (by decide) (by decide)
    (by decide +kernel) (by decide +kernel)
  rw [hrenamed] at h
  exact ⟨hrenamed, h⟩

/-- A parameter that has to be written with bars is not found in the definition. -/
theorem expand_renamed_ne_of_bars :
    let s := Spot.top ⟨.nowhere, [], []⟩
    let ctx := (command bare .fresh s (.declareSort "List" 1)).value
    let list (arg : String) := SmtSort.mk (.simple "List") [.simple arg]
    let F := SmtSort.mk (.simple "F") [.bool]
    let m := command bare ctx s (.defineSort "F" ["a"] (list "a"))
    let m' := command bare ctx s (.defineSort "F" ["a b"] (list "a b"))
    Renames ["a"] ["a b"] (list "a") ∧ (list "a").renamed ["a"] ["a b"] = list "a b" ∧
      (ctx.stack.sort? (quoteSymbol "a b")).isNone = true ∧
      m.findings.isEmpty = true ∧ m'.findings.isEmpty = true ∧
      m.value.stack.expand F = list "Bool" ∧ m'.value.stack.expand F = list "a b" := by
  intro s ctx list F m m'
  have hrenames : Renames ["a"] ["a b"] (list "a") :=
    ⟨rfl, by decide, by decide, by decide +kernel⟩
  exact ⟨hrenames, by decide +kernel⟩

end Context

end WellSorted
