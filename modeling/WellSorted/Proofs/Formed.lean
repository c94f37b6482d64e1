import WellSorted.Proofs.Inference

/-!
# Formed sorts

`G.Formed params s`: each node of the sort `s` is one of the parameters, or a sort symbol of the
stack `G` that is no alias, on as many arguments as it takes. If all declarations of a stack are
made of formed sorts, then resolving a sort that passes the check gives a formed sort
(`formed_resolve`), and so does inference (`HasSort.formed`).
-/

namespace WellSorted

/-! ### Plain symbols -/

/-- Whether a symbol is written without bars. -/
def isPlainSymbol (s : String) : Bool := isSimpleSymbol s && !reservedWords.contains s

/-- Whether all parameters are written without bars. -/
def PlainParams (params : List String) : Prop := ∀ p ∈ params, isPlainSymbol p = true

theorem quoteSymbol_of_isPlainSymbol {s : String} (h : isPlainSymbol s = true) :
    quoteSymbol s = s :=
  if_pos h

theorem PlainParams.map_quoteSymbol {params : List String} (h : PlainParams params) :
    params.map quoteSymbol = params := by
  conv => rhs; rw [← List.map_id params]
  exact List.map_congr_left fun p hp => quoteSymbol_of_isPlainSymbol (h p hp)

theorem isSymbolChar_of_isPlainSymbol {s : String} {c : Char} {cs : List Char}
    (h : isPlainSymbol s = true) (hs : s.toList = c :: cs) : isSymbolChar c = true := by
  simp only [isPlainSymbol, isSimpleSymbol, hs, Bool.and_eq_true, List.all_cons] at h
  exact h.1.2.1

theorem not_isPlainSymbol_bars (s : String) : ¬ isPlainSymbol ("|" ++ s ++ "|") = true := by
  intro h
  have hc : isSymbolChar '|' = true :=
    isSymbolChar_of_isPlainSymbol h (by rw [String.toList_append, String.toList_append]; rfl)
  exact absurd hc (by decide)

theorem isPlainSymbol_of_quoteSymbol {s : String} (h : isPlainSymbol (quoteSymbol s) = true) :
    isPlainSymbol s = true := by
  by_cases hs : isPlainSymbol s = true
  · exact hs
  · have hbars : quoteSymbol s = "|" ++ s ++ "|" := if_neg hs
    rw [hbars] at h
    exact absurd h (not_isPlainSymbol_bars s)

namespace Identifier

theorem key_simple (s : String) : (simple s).key = quoteSymbol s := by
  rw [key, spelling, if_neg (by simp [simple, isIndexed])]
  exact String.ofList_toList

/-- A key that is written without bars is the one of a symbol without indices. -/
theorem eq_simple_of_isPlainSymbol_key {i : Identifier} (h : isPlainSymbol i.key = true) :
    i = simple i.key := by
  obtain ⟨x, indices⟩ := i
  cases indices with
  | nil =>
    have hkey : key ⟨x, []⟩ = quoteSymbol x := key_simple x
    rw [hkey] at h ⊢
    rw [quoteSymbol_of_isPlainSymbol (isPlainSymbol_of_quoteSymbol h), simple]
  | cons index indices =>
    have hc : isSymbolChar '(' = true :=
      isSymbolChar_of_isPlainSymbol h (by rw [key, Spelling.text, String.toList_ofList]; rfl)
    exact absurd hc (by decide)

end Identifier

/-! ### Declarations of a stack -/

/-- Whether a scope holds a declaration. -/
def Scope.Has (scope : Scope) : Declaration → Prop
  | .sort d => d ∈ scope.sorts
  | .function f => f ∈ scope.funs
  | .var v => v ∈ scope.vars

theorem Scope.has_put {scope : Scope} {d e : Declaration} :
    (scope.put d).Has e ↔ scope.Has e ∨ e = d := by
  cases d <;> cases e <;> simp [put, Has]

theorem Scope.not_has_empty (d : Declaration) : ¬ Scope.empty.Has d := by
  cases d <;> exact List.not_mem_nil

namespace Stack

/-- Whether some scope of a stack holds a declaration. -/
def Has (G : Stack) (d : Declaration) : Prop := ∃ scope ∈ G.scopes, scope.Has d

theorem not_has_empty (d : Declaration) : ¬ Stack.empty.Has d := by
  rintro ⟨scope, hscope, hd⟩
  rw [List.mem_singleton.mp hscope] at hd
  exact Scope.not_has_empty d hd

theorem has_push {G : Stack} {d : Declaration} : G.push.Has d ↔ G.Has d := by
  constructor
  · rintro ⟨scope, hscope, hd⟩
    rcases List.mem_cons.mp hscope with rfl | hscope
    · exact absurd hd (Scope.not_has_empty d)
    · exact ⟨scope, hscope, hd⟩
  · rintro ⟨scope, hscope, hd⟩
    exact ⟨scope, List.mem_cons_of_mem _ hscope, hd⟩

theorem has_of_sort? {G : Stack} {name : String} {d : SortDecl} (h : G.sort? name = some d) :
    G.Has (.sort d) := by
  obtain ⟨scope, hscope, hd⟩ := List.exists_of_findSome?_eq_some h
  exact ⟨scope, hscope, List.mem_of_find?_eq_some hd⟩

theorem name_of_sort? {G : Stack} {name : String} {d : SortDecl} (h : G.sort? name = some d) :
    d.name = name := by
  obtain ⟨scope, -, hd⟩ := List.exists_of_findSome?_eq_some h
  simpa using List.find?_some hd

theorem has_of_var? {G : Stack} {name : String} {v : VarDecl} (h : G.var? name = some v) :
    G.Has (.var v) := by
  obtain ⟨scope, hscope, hv⟩ := List.exists_of_findSome?_eq_some h
  exact ⟨scope, hscope, List.mem_of_find?_eq_some hv⟩

theorem mem_allOverloads {G : Stack} {name : String} {f : FunDecl} :
    f ∈ G.allOverloads name ↔ G.Has (.function f) ∧ f.name = name := by
  simp only [allOverloads, List.mem_flatMap, List.mem_reverse, Scope.overloads, List.mem_filter,
    beq_iff_eq, Has, Scope.Has]
  constructor
  · rintro ⟨scope, hscope, hf, hname⟩
    exact ⟨⟨scope, hscope, hf⟩, hname⟩
  · rintro ⟨⟨scope, hscope, hf⟩, hname⟩
    exact ⟨scope, hscope, hf, hname⟩

theorem mem_of_mem_addOverload {fs : List FunDecl} {f g : FunDecl} (h : g ∈ addOverload fs f) :
    g ∈ fs ∨ g = f := by
  unfold addOverload at h
  split at h
  · exact .inl h
  · simpa using h

theorem mem_allOverloads_of_mem_overloads {G : Stack} {name : String} {f : FunDecl}
    (h : f ∈ G.overloads name) : f ∈ G.allOverloads name := by
  suffices hfold : ∀ gs fs : List FunDecl, f ∈ gs.foldl addOverload fs → f ∈ fs ∨ f ∈ gs from
    (hfold _ [] h).resolve_left List.not_mem_nil
  intro gs
  induction gs with
  | nil => exact fun fs hf => .inl hf
  | cons g gs ih =>
    intro fs hf
    rcases ih _ hf with hf | hf
    · rcases mem_of_mem_addOverload hf with hf | rfl
      · exact .inl hf
      · exact .inr List.mem_cons_self
    · exact .inr (List.mem_cons_of_mem _ hf)

theorem has_of_mem_overloads {G : Stack} {name : String} {f : FunDecl}
    (h : f ∈ G.overloads name) : G.Has (.function f) :=
  (mem_allOverloads.mp (mem_allOverloads_of_mem_overloads h)).1

/-! ### Formed sorts -/

inductive Formed (G : Stack) (params : List String) : SmtSort → Prop
  | param {p : String} : p ∈ params → G.Formed params (.simple p)
  | symbol {head : Identifier} {args : List SmtSort} {d : SortDecl} :
      G.sort? head.key = some d → d.definition = none → d.arity = args.length →
      (∀ s ∈ args, G.Formed params s) → G.Formed params (.mk head args)

/-- Whether each sort of one stack is found in the other. -/
def Keeps (G H : Stack) : Prop := ∀ name d, G.sort? name = some d → H.sort? name = some d

theorem Keeps.refl (G : Stack) : G.Keeps G := fun _ _ h => h

theorem Keeps.trans {G H K : Stack} (h : G.Keeps H) (h' : H.Keeps K) : G.Keeps K :=
  fun name d hd => h' name d (h name d hd)

theorem Formed.mono {G H : Stack} (h : G.Keeps H) {params : List String} {s : SmtSort}
    (hs : G.Formed params s) : H.Formed params s := by
  induction hs with
  | param hp => exact .param hp
  | symbol hd hdef harity _ ih => exact .symbol (h _ _ hd) hdef harity ih

theorem Formed.weaken {G : Stack} {params : List String} {s : SmtSort} (hs : G.Formed [] s) :
    G.Formed params s := by
  induction hs with
  | param hp => exact absurd hp List.not_mem_nil
  | symbol hd hdef harity _ ih => exact .symbol hd hdef harity ih

/-- Without parameters, the arguments of a formed sort are formed. -/
theorem Formed.args {G : Stack} {head : Identifier} {args : List SmtSort}
    (h : G.Formed [] (.mk head args)) : ∀ s ∈ args, G.Formed [] s := by
  generalize ht : SmtSort.mk head args = t at h
  cases h with
  | param hp => exact absurd hp List.not_mem_nil
  | symbol _ _ _ hargs =>
    cases ht
    exact hargs

/-- What holds of the sorts that are put for the parameters, and of symbols of the stack on arguments
of which it holds, holds after substituting. -/
theorem Formed.replace_ind {G : Stack} {params : List String} {σ : Subst} {P : SmtSort → Prop}
    (hsymbol : ∀ {head : Identifier} {args : List SmtSort} {d : SortDecl},
      G.sort? head.key = some d → d.definition = none → d.arity = args.length →
      (∀ s ∈ args, P s) → P (.mk head args))
    (htotal : ∀ p ∈ params, (σ.get? p).isSome = true) (hσ : ∀ p t, σ.get? p = some t → P t)
    {s : SmtSort} (hs : G.Formed params s) : P (s.replace σ) := by
  induction hs with
  | @param p hp =>
    obtain ⟨t, ht⟩ := Option.isSome_iff_exists.mp (htotal p hp)
    rw [SmtSort.replace_simple, ht]
    exact hσ p t ht
  | @symbol head args d hd hdef harity _ ih =>
    rw [SmtSort.replace, SmtSort.replaceAll_eq_map]
    split
    · next hatom =>
      have hnil : args = [] := by simpa using (Bool.and_eq_true_iff.mp hatom).2
      cases ht : σ.get? head.symbol with
      | none => exact hsymbol hd hdef harity fun s hs => absurd (hnil ▸ hs) List.not_mem_nil
      | some t => exact hσ _ t ht
    · refine hsymbol hd hdef (by rw [harity, List.length_map]) fun s hs => ?_
      obtain ⟨t, ht, rfl⟩ := List.mem_map.mp hs
      exact ih t ht

/-- Substituting formed sorts for all parameters gives a formed sort. -/
theorem Formed.replace {G : Stack} {params params' : List String} {σ : Subst}
    (htotal : ∀ p ∈ params, (σ.get? p).isSome = true)
    (hσ : ∀ p t, σ.get? p = some t → G.Formed params' t) {s : SmtSort}
    (hs : G.Formed params s) : G.Formed params' (s.replace σ) :=
  hs.replace_ind .symbol htotal hσ

mutual

/-- What a parameter is replaced by is a part of the sort. -/
theorem formed_of_mentions {G : Stack} {σ : Subst} {p : String} {t : SmtSort}
    (ht : σ.get? p = some t) : ∀ {s : SmtSort}, s.mentions p = true → G.Formed [] (s.replace σ) →
    G.Formed [] t
  | .mk head args, hp, hs => by
    rw [SmtSort.replace] at hs
    split at hs
    · next hatom =>
      have hnil : args = [] := by simpa using (Bool.and_eq_true_iff.mp hatom).2
      subst hnil
      have hsymbol : head.isIndexed = false ∧ head.symbol = p := by
        simpa [SmtSort.mentions, SmtSort.anyMentions] using hp
      rw [hsymbol.2, ht] at hs
      exact hs
    · next hatom =>
      have hargs : SmtSort.anyMentions p args = true := by
        simpa [SmtSort.mentions, hatom] using hp
      exact formed_of_anyMentions ht hargs hs.args

theorem formed_of_anyMentions {G : Stack} {σ : Subst} {p : String} {t : SmtSort}
    (ht : σ.get? p = some t) : ∀ {ss : List SmtSort}, SmtSort.anyMentions p ss = true →
    (∀ s ∈ SmtSort.replaceAll σ ss, G.Formed [] s) → G.Formed [] t
  | [], hp, _ => by cases hp
  | s :: ss, hp, hss => by
    rw [SmtSort.replaceAll, List.forall_mem_cons] at hss
    rw [SmtSort.anyMentions, Bool.or_eq_true] at hp
    rcases hp with hp | hp
    · exact formed_of_mentions ht hp hss.1
    · exact formed_of_anyMentions ht hp hss.2

end

end Stack

/-! ### Resolving -/

/-- Whether a declaration of a stack is made of formed sorts. -/
def Declaration.Formed (G : Stack) : Declaration → Prop
  | .sort d => ∀ s, d.definition = some s → d.params.length = d.arity ∧ G.Formed d.params s
  | .function f => ∀ s ∈ f.signature, G.Formed f.params s
  | .var v => G.Formed [] v.sort

/-- Whether all declarations of a stack are made of formed sorts. -/
def Stack.WellFormed (G : Stack) : Prop := ∀ d, G.Has d → d.Formed G

/-- Whether the definitions of all aliases of a stack are formed. -/
def Stack.AliasesFormed (G : Stack) : Prop := ∀ d, G.Has (.sort d) → (Declaration.sort d).Formed G

theorem Stack.WellFormed.aliases {G : Stack} (hG : G.WellFormed) : G.AliasesFormed :=
  fun _ hd => hG _ hd

theorem Declaration.Formed.mono {G H : Stack} (h : G.Keeps H) {d : Declaration}
    (hd : d.Formed G) : d.Formed H := by
  cases d with
  | sort d => exact fun s hs => ⟨(hd s hs).1, (hd s hs).2.mono h⟩
  | function f => exact fun s hs => (hd s hs).mono h
  | var v => exact Stack.Formed.mono h hd

theorem mem_of_lookup {α β : Type} [BEq α] [LawfulBEq α] {l : List (α × β)} {a : α} {b : β}
    (h : l.lookup a = some b) : (a, b) ∈ l := by
  obtain ⟨before, after, hl, -⟩ := List.lookup_eq_some_iff.mp h
  simp [hl]

theorem Subst.ofArguments_total {params : List String} {args : List SmtSort}
    (h : params.length = args.length) :
    ∀ p ∈ params, ((ofArguments params args).get? p).isSome = true := by
  intro p hp
  obtain ⟨i, hi, rfl⟩ := List.getElem_of_mem hp
  have hmem : (params[i], args[i]) ∈ ofArguments params args :=
    List.mem_reverse.mpr (List.mem_iff_getElem.mpr ⟨i, by simpa [h] using h ▸ hi, by simp⟩)
  exact List.lookup_isSome_iff.mpr ⟨_, hmem, beq_self_eq_true _⟩

/-- What is bound is a parameter, to the argument at one of its places. -/
theorem Subst.exists_of_get?_ofArguments {params : List String} {args : List SmtSort} {p : String}
    {t : SmtSort} (h : (ofArguments params args).get? p = some t) :
    ∃ i : Nat, params[i]? = some p ∧ args[i]? = some t := by
  have hmem : (p, t) ∈ (params.zip args).reverse := mem_of_lookup h
  obtain ⟨i, hi⟩ := List.mem_iff_getElem?.mp (List.mem_reverse.mp hmem)
  exact ⟨i, List.getElem?_zip_eq_some.mp hi⟩

theorem Subst.mem_of_ofArguments {params : List String} {args : List SmtSort} {p : String}
    {t : SmtSort} (h : (ofArguments params args).get? p = some t) : t ∈ args := by
  obtain ⟨i, -, hi⟩ := exists_of_get?_ofArguments h
  exact List.mem_of_getElem? hi

namespace Stack

theorem AliasesFormed.formed_applySort {G : Stack} (hG : G.AliasesFormed) {params : List String}
    {head : Identifier} {args : List SmtSort} {d : SortDecl} (hd : G.sort? head.key = some d)
    (harity : d.arity = args.length) (hargs : ∀ s ∈ args, G.Formed params s) :
    G.Formed params (G.applySort head args) := by
  rw [applySort, hd, Option.bind_some, SortDecl.definedAs?]
  cases hdef : d.definition with
  | none => exact .symbol hd hdef harity hargs
  | some s =>
    obtain ⟨hlength, hs⟩ := hG _ (has_of_sort? hd) s hdef
    have hlength' : d.params.length = args.length := hlength.trans harity
    simp only [if_pos hlength', Option.getD_some]
    refine hs.replace (Subst.ofArguments_total hlength') fun p t ht => ?_
    exact hargs t (Subst.mem_of_ofArguments ht)

mutual

theorem AliasesFormed.formed_resolve {G : Stack} (hG : G.AliasesFormed) {params : List String}
    (hparams : PlainParams params) {n : Node} : ∀ {s : SmtSort}, G.checkSort params n s = [] →
    G.Formed params (G.resolve params s)
  | .mk head args, h => by
    rw [checkSort] at h
    rw [resolve]
    split
    · next hparam =>
      obtain ⟨p, hp⟩ := Option.isSome_iff_exists.mp hparam
      obtain ⟨heq, hmem⟩ := SmtSort.asParam_eq_some.mp hp
      rw [heq]
      exact .param hmem
    · next hparam =>
      split at h
      · next hkey =>
        simp only [Bool.and_eq_true, List.isEmpty_iff, List.contains_iff_mem] at hkey
        have hhead := Identifier.eq_simple_of_isPlainSymbol_key (hparams _ hkey.2)
        have hsort : SmtSort.mk head args = .simple head.key := by
          rw [hkey.1, SmtSort.simple, ← hhead]
        rw [SmtSort.asParam_eq_some.mpr ⟨hsort, hkey.2⟩] at hparam
        exact absurd rfl hparam
      · obtain ⟨hhead, hargs⟩ := List.append_eq_nil_iff.mp h
        obtain ⟨d, hd, harity⟩ := checkHead_eq_nil.mp hhead
        refine hG.formed_applySort hd ?_ (hG.formed_resolveAll hparams hargs)
        rw [harity, resolveAll_eq_map, List.length_map]

theorem AliasesFormed.formed_resolveAll {G : Stack} (hG : G.AliasesFormed) {params : List String}
    (hparams : PlainParams params) {n : Node} : ∀ {ss : List SmtSort},
    G.checkSorts params n ss = [] → ∀ s ∈ G.resolveAll params ss, G.Formed params s
  | [], _ => nofun
  | s :: ss, h => by
    obtain ⟨hs, hss⟩ := List.append_eq_nil_iff.mp h
    rw [resolveAll, List.forall_mem_cons]
    exact ⟨hG.formed_resolve hparams hs, hG.formed_resolveAll hparams hss⟩

end

theorem AliasesFormed.formed_of_known {G : Stack} (hG : G.AliasesFormed) {s : SmtSort}
    (hs : G.Known s) : G.Formed [] (G.resolve [] s) := by
  induction hs with
  | @mk head args d hd harity _ ih =>
    have hnone : SmtSort.asParam [] (.mk head args) = none := SmtSort.asParam_eq_none.mpr nofun
    rw [resolve, hnone, resolveAll_eq_map, if_neg (by simp)]
    refine hG.formed_applySort hd (by rw [harity, List.length_map]) fun s hs => ?_
    obtain ⟨t, ht, rfl⟩ := List.mem_map.mp hs
    exact ih t ht

end Stack

/-! ### Inference -/

namespace FunDecl

/-- The sorts that a match determines are formed if the sorts that it meets are. -/
theorem Determined.formed {G : Stack} {f : FunDecl} {σ : Subst} (hσ : σ.Total f.params)
    {sorts : List SmtSort} (hf : f.Determined sorts)
    (hsorts : ∀ s ∈ sorts.map (SmtSort.replace σ), G.Formed [] s) (p : String) (t : SmtSort)
    (ht : σ.get? p = some t) : G.Formed [] t := by
  have hp : p ∈ f.params := hσ.within p t ht
  rw [← SmtSort.replaceAll_eq_map] at hsorts
  exact Stack.formed_of_anyMentions ht (hf p hp) hsorts

theorem Applies.formed {G : Stack} {f : FunDecl} (hf : ∀ s ∈ f.signature, G.Formed f.params s)
    {args : List SmtSort} {s : SmtSort} (h : f.Applies args s)
    (hdet : f.Determined (f.formals args.length)) (hargs : ∀ t ∈ args, G.Formed [] t) :
    G.Formed [] s := by
  obtain ⟨σ, hσ, hformals, rfl⟩ := h
  rw [← hformals] at hargs
  refine (hf f.result (by simp [signature])).replace (fun p hp => (hσ p).mp hp) ?_
  exact hdet.formed hσ hargs

theorem Constructs.formed {G : Stack} {f : FunDecl} (hf : ∀ s ∈ f.signature, G.Formed f.params s)
    {sort : SmtSort} {fields : List SmtSort} (h : f.Constructs sort fields)
    (hdet : f.Determined [f.result]) (hsort : G.Formed [] sort) :
    ∀ t ∈ fields, G.Formed [] t := by
  obtain ⟨σ, hσ, rfl, rfl⟩ := h
  intro t ht
  obtain ⟨s, hs, rfl⟩ := List.mem_map.mp ht
  refine (hf s (List.mem_append_left _ hs)).replace (fun p hp => (hσ p).mp hp) ?_
  exact hdet.formed hσ (by simpa using hsort)

end FunDecl

/-- Whether all local variables have formed sorts. -/
def Stack.LocalsFormed (G : Stack) (Γ : Locals) : Prop := ∀ x ∈ Γ, G.Formed [] x.2

theorem Stack.LocalsFormed.append {G : Stack} {Γ Δ : Locals} (h : G.LocalsFormed Γ)
    (h' : G.LocalsFormed Δ) : G.LocalsFormed (Γ ++ Δ) :=
  fun x hx => (List.mem_append.mp hx).elim (h x) (h' x)

theorem Stack.localsFormed_zip {G : Stack} {names : List String} {sorts : List SmtSort}
    (h : ∀ s ∈ sorts, G.Formed [] s) : G.LocalsFormed (names.zip sorts) :=
  fun x hx => h x.2 (List.of_mem_zip hx).2

theorem Stack.WellFormed.signature {G : Stack} (hG : G.WellFormed) {name : String} {f : FunDecl}
    (h : f ∈ G.overloads name) : ∀ s ∈ f.signature, G.Formed f.params s :=
  hG _ (has_of_mem_overloads h)

/-- The result of a constant has no parameters left. -/
theorem Stack.WellFormed.result {G : Stack} (hG : G.WellFormed) {name : String} {f : FunDecl}
    (h : f ∈ G.overloads name) (hconst : f.isConstant = true) : G.Formed [] f.result := by
  have hparams : f.params = [] := by simpa using (Bool.and_eq_true_iff.mp hconst).2
  have hresult := hG.signature h f.result (by simp [FunDecl.signature])
  rwa [hparams] at hresult

theorem Stack.WellFormed.varSort {G : Stack} (hG : G.WellFormed) {Γ : Locals}
    (hΓ : G.LocalsFormed Γ) {name : String} {s : SmtSort} (h : G.varSort? Γ name = some s) :
    G.Formed [] s := by
  rcases Option.or_eq_some_iff.mp h with hlocal | ⟨-, hvar⟩
  · exact hΓ (name, s) (mem_of_lookup hlocal)
  · obtain ⟨v, hv, rfl⟩ := Option.map_eq_some_iff.mp hvar
    exact hG _ (has_of_var? hv)

theorem Binds.formed {G : Stack} (hG : G.WellFormed) {sort : SmtSort} {p : Pattern} {isLast : Bool}
    {Δ : Locals} (h : Binds FunDecl.Determined G sort p isLast Δ) (hsort : G.Formed [] sort) :
    G.LocalsFormed Δ := by
  cases h with
  | constructor honly hfields =>
    exact Stack.localsFormed_zip (hfields.formed (hG.signature honly.1) honly.2.1.2.2 hsort)
  | rest _ _ _ =>
    intro x hx
    rw [List.mem_singleton.mp hx]
    exact hsort

mutual

theorem HasSort.formed {G : Stack} (hG : G.WellFormed) : ∀ {Γ : Locals} {t : Term} {s : SmtSort},
    HasSort FunDecl.Determined G Γ t s → G.LocalsFormed Γ → G.Formed [] s
  | _, _, _, .literal honly, _ => hG.result honly.1 honly.2.1
  | _, _, _, .var _ hs, hΓ => hG.varSort hΓ hs
  | _, _, _, .constant _ honly, _ => hG.result honly.1 honly.2.1
  | _, _, _, .ascribed hknown _ _, _ => hG.aliases.formed_of_known hknown
  | _, _, _, .app hargs honly hf, hΓ =>
    hf.formed (hG.signature honly.1) honly.2.1.2 (hargs.formed hG hΓ)
  | _, _, _, .ascribedApp _ hknown _ _, _ => hG.aliases.formed_of_known hknown
  | _, _, _, .letIn hterms hbody, hΓ =>
    hbody.formed hG ((Stack.localsFormed_zip (hterms.formed hG hΓ)).append hΓ)
  | _, _, _, .quantified hvars hbody, hΓ => by
    refine hbody.formed hG (Stack.LocalsFormed.append ?_ hΓ)
    intro x hx
    obtain ⟨v, hv, rfl⟩ := List.mem_map.mp hx
    exact hG.aliases.formed_of_known (hvars v hv)
  | _, _, _, .matching hterm hne harms, hΓ => harms.formed hG hne (hterm.formed hG hΓ) hΓ
  | _, _, _, .annotated h, hΓ => h.formed hG hΓ

theorem HaveSorts.formed {G : Stack} (hG : G.WellFormed) : ∀ {Γ : Locals} {ts : List Term}
    {ss : List SmtSort}, HaveSorts FunDecl.Determined G Γ ts ss → G.LocalsFormed Γ →
    ∀ s ∈ ss, G.Formed [] s
  | _, _, _, .nil, _ => nofun
  | _, _, _, .cons h hrest, hΓ =>
    List.forall_mem_cons.mpr ⟨h.formed hG hΓ, hrest.formed hG hΓ⟩

theorem ArmsHaveSort.formed {G : Stack} (hG : G.WellFormed) : ∀ {Γ : Locals} {sort s : SmtSort}
    {arms : List (Pattern × Term)}, ArmsHaveSort FunDecl.Determined G Γ sort arms s → arms ≠ [] →
    G.Formed [] sort → G.LocalsFormed Γ → G.Formed [] s
  | _, _, _, _, .nil, hne, _, _ => absurd rfl hne
  | _, _, _, _, .cons _ hbinds hbody _, _, hsort, hΓ =>
    hbody.formed hG ((hbinds.formed hG hsort).append hΓ)

end

end WellSorted
