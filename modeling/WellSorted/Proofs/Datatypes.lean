import WellSorted.Proofs.Desugaring
import WellSorted.Proofs.Dropped
import WellSorted.Proofs.Origins
import WellSorted.Proofs.Visits

/-!
# Datatypes

A constructor brings a function from its fields to the datatype, one selector for each field and a
tester. All of them have the parameters of the datatype, and the datatype as an argument or a
result, so that the sort of a constructed term determines one substitution for all of them. Hence
selectors give back the sorts of the arguments, a match binds them, and testers are predicates
(`Check.constructor_agrees`).
-/

namespace WellSorted

open Sorting Check

/-! ### Overloads -/

namespace Stack

theorem subset_addOverload (fs : List FunDecl) (f : FunDecl) : fs ⊆ addOverload fs f := by
  unfold addOverload
  split
  · exact List.Subset.refl fs
  · exact List.subset_append_left fs [f]

/-- Only a function of the name can be a further overload. -/
theorem overloads_put (G : Stack) (d : Declaration) (name : String) :
    overloads { G with top := G.top.put d } name =
      match d with
      | .function f => if f.name = name then addOverload (G.overloads name) f else G.overloads name
      | _ => G.overloads name := by
  simp only [overloads, allOverloads, scopes, List.reverse_cons, List.flatMap_append,
    List.flatMap_singleton, List.foldl_append]
  cases d with
  | sort d => rfl
  | var v => rfl
  | function f => by_cases hname : f.name = name <;> simp [Scope.put, Scope.overloads, hname]

/-- Functions stay in view when further declarations are entered. -/
theorem overloads_subset_of_insert {G K : Stack} {d : Declaration} (h : G.insert d = .ok K)
    (name : String) : G.overloads name ⊆ K.overloads name := by
  obtain ⟨-, rfl⟩ := insert_eq_ok.mp h
  rw [overloads_put]
  split
  · split
    · exact subset_addOverload _ _
    · exact List.Subset.refl _
  · exact List.Subset.refl _

theorem Entered.overloads_subset {P : Stack → Declaration → Prop} {G H : Stack}
    (h : G.Entered P H) (name : String) : G.overloads name ⊆ H.overloads name := by
  induction h with
  | refl => exact List.Subset.refl _
  | insert _ _ hinsert ih => exact List.Subset.trans ih (overloads_subset_of_insert hinsert name)

/-- A function that was entered is in view. -/
theorem mem_overloads_of_insert {G K : Stack} {f : FunDecl} (h : G.insert (.function f) = .ok K) :
    f ∈ K.overloads f.name := by
  obtain ⟨hnone, rfl⟩ := insert_eq_ok.mp h
  have hany : (G.overloads f.name).any f.sameSignature = false := by
    rw [List.any_eq_false]
    intro g hg
    have hall := List.find?_eq_none.mp (Option.map_eq_none_iff.mp hnone) g
    exact hall (mem_allOverloads_of_mem_overloads hg)
  simp only [overloads_put, if_true, addOverload, hany]
  exact List.mem_append_right _ (List.mem_singleton_self f)

theorem mem_overloads_declareFun {G : Stack} {f : FunDecl} (h : (G.declareFun f).findings = []) :
    f ∈ (G.declareFun f).value.overloads f.name :=
  mem_overloads_of_insert (insert_of_findings_declare h)

theorem overloads_subset_declareFun (G : Stack) (f : FunDecl) (name : String) :
    G.overloads name ⊆ (G.declareFun f).value.overloads name :=
  (entered_declare (P := fun _ _ => True) trivial).overloads_subset name

end Stack

/-! ### What a constructor brings -/

/-- The identifier of the tester for a constructor. -/
def ConstructorDec.tester (k : ConstructorDec) : Identifier := ⟨"is", [.symbol k.name]⟩

theorem ConstructorDec.key_tester (k : ConstructorDec) :
    k.tester.key = Datatype.testerName (quoteSymbol k.name) := by
  have his : quoteSymbol "is" = "is" := by decide +kernel
  rw [← String.toList_inj]
  simp [tester, Identifier.key, Identifier.spelling, Identifier.isIndexed, Index.spelling,
    Spelling.text, Spelling.symbol, Spelling.chars, Spelling.charsAfter, Token.lexeme, his,
    Datatype.testerName]

/-- The keys of the functions of a constructor. -/
def ConstructorDec.keys (k : ConstructorDec) : List String :=
  quoteSymbol k.name :: k.tester.key :: k.selectors.map fun v => quoteSymbol v.name

namespace Check.Datatype

/-- Whether the functions of a constructor are in view, where `fieldSort` gives the sorts of its
fields. -/
structure Brings (d : Datatype) (k : ConstructorDec) (fieldSort : SmtSort → SmtSort) (G : Stack) :
    Prop where
  selectors : ∀ v ∈ k.selectors, d.function (quoteSymbol v.name) [d.sort] (fieldSort v.sort) ∈
    G.overloads (quoteSymbol v.name)
  self : d.function (quoteSymbol k.name) (k.selectors.map fun v => fieldSort v.sort) d.sort ∈
    G.overloads (quoteSymbol k.name)
  tester : d.function (testerName (quoteSymbol k.name)) [d.sort] .bool ∈
    G.overloads (testerName (quoteSymbol k.name))

variable {d : Datatype} {k : ConstructorDec} {G H : Stack}

theorem Brings.mono {fieldSort : SmtSort → SmtSort} (h : d.Brings k fieldSort G)
    (hsub : ∀ name, G.overloads name ⊆ H.overloads name) : d.Brings k fieldSort H :=
  ⟨fun v hv => hsub _ (h.selectors v hv), hsub _ h.self, hsub _ h.tester⟩

theorem overloads_subset_selectors (G : Stack) (d : Datatype) (vars : List SortedVar)
    (name : String) : G.overloads name ⊆ (vars.foldlM d.selector G).value.overloads name :=
  (Stack.entered_selectors False.elim False.elim).overloads_subset name

theorem mem_overloads_selectors {vars : List SortedVar}
    (h : (vars.foldlM d.selector G).findings = []) :
    ∀ v ∈ vars, d.function (quoteSymbol v.name) [d.sort] (G.resolve d.params v.sort) ∈
      (vars.foldlM d.selector G).value.overloads (quoteSymbol v.name) := by
  induction vars generalizing G with
  | nil => exact fun v hv => absurd hv List.not_mem_nil
  | cons v vars ih =>
    rw [List.foldlM_cons, Logged.findings_bind, List.append_eq_nil_iff] at h
    obtain ⟨hv, hvars⟩ := h
    rw [List.foldlM_cons, Logged.value_bind]
    refine List.forall_mem_cons.mpr ⟨?_, fun w hw => ?_⟩
    · exact overloads_subset_selectors _ d vars _
        (Stack.mem_overloads_declareFun (List.append_eq_nil_iff.mp hv).2)
    · have hmem := ih hvars w hw
      rwa [Stack.resolve_congr (Stack.sort?_selector G d v)] at hmem

theorem brings_constructor (h : (d.constructor G k).findings = []) :
    d.Brings k (G.resolve d.params) (d.constructor G k).value := by
  simp only [constructor, Logged.findings_bind, List.append_eq_nil_iff] at h
  obtain ⟨hselectors, hself, htester⟩ := h
  have hfields : (k.selectors.foldlM d.selector G).value.resolveAll d.params
      (k.selectors.map (·.sort)) = k.selectors.map fun v => G.resolve d.params v.sort := by
    have hentered : G.Entered (Stack.IntroducesFun False)
        (k.selectors.foldlM d.selector G).value := Stack.entered_selectors False.elim False.elim
    rw [Stack.resolveAll_congr (hentered.sort?_eq fun _ _ => And.left), Stack.resolveAll_eq_map,
      List.map_map]
    rfl
  simp only [constructor, Logged.value_bind]
  rw [hfields] at hself htester ⊢
  refine ⟨fun v hv => ?_, ?_, Stack.mem_overloads_declareFun htester⟩
  · exact Stack.overloads_subset_declareFun _ _ _
      (Stack.overloads_subset_declareFun _ _ _ (mem_overloads_selectors hselectors v hv))
  · exact Stack.overloads_subset_declareFun _ _ _ (Stack.mem_overloads_declareFun hself)

end Check.Datatype

theorem Check.brings_declareDatatypes {G : Stack} {n : Node} {sorts : List SortDec}
    {decs : List DatatypeDec} (h : (declareDatatypes G n sorts decs).findings = [])
    {d : SortDec × DatatypeDec} (hd : d ∈ sorts.zip decs) {k : ConstructorDec}
    (hk : k ∈ d.2.constructors) :
    ∃ fieldSort, (Datatype.ofDec n d.1.name d.2).Brings k fieldSort
      (declareDatatypes G n sorts decs).value := by
  have hrest := (List.append_eq_nil_iff.mp h).2
  refine Logged.foldlM_reaches (Q := fun H => ∃ fieldSort, Datatype.Brings _ k fieldSort H)
    (fun H e hH => ?_) (fun H hH => ?_) hd hrest
  · obtain ⟨fieldSort, hH⟩ := hH
    exact ⟨fieldSort, hH.mono
      (Stack.entered_constructors False.elim False.elim).overloads_subset⟩
  · refine Logged.foldlM_reaches (Q := fun H => ∃ fieldSort, Datatype.Brings _ k fieldSort H)
      (fun K l hK => ?_) (fun K hK => ⟨_, Datatype.brings_constructor hK⟩) hk hH
    obtain ⟨fieldSort, hK⟩ := hK
    exact ⟨fieldSort, hK.mono
      (Stack.entered_constructor False.elim False.elim).overloads_subset⟩

/-- A command that declares datatypes without a finding brings all of their constructors. -/
theorem Check.brings_command {setup : Setup} {ctx : Context} {s : Spot} {c : Command}
    (h : (command setup ctx s c).findings = []) {d : SortDec × DatatypeDec} (hd : d ∈ c.datatypes)
    {k : ConstructorDec} (hk : k ∈ d.2.constructors) :
    ∃ fieldSort, (Datatype.ofDec (s.node (.command c)) d.1.name d.2).Brings k fieldSort
      (command setup ctx s c).value.stack := by
  cases c with
  | declareDatatype name dec =>
    exact brings_declareDatatypes (List.append_eq_nil_iff.mp h).1 hd hk
  | declareDatatypes sorts decs =>
    exact brings_declareDatatypes (List.append_eq_nil_iff.mp h).1 hd hk
  | _ => exact absurd hd List.not_mem_nil

/-! ### Sorts of constructed terms -/

theorem FunDecl.formals_symbol (name : String) (params : List String) (args : List SmtSort)
    (result : SmtSort) (n : Node) (m : Nat) :
    (FunDecl.symbol name params args result n).formals m = args := by
  unfold formals
  split <;> simp_all [symbol]

theorem eq_singleton_of_mem {α : Type} {l : List α} {a : α} (hl : l.length = 1) (ha : a ∈ l) :
    l = [a] := by
  obtain ⟨b, rfl⟩ := List.length_eq_one_iff.mp hl
  rw [List.mem_singleton.mp ha]

section

variable {clean : Prop} {G : Stack} {s : Spot}

/-- Whether it is ascribed or not, the only function of a name applies to the sorts of the
arguments. -/
theorem exists_applies_of_returns {i : Identifier} {f : FunDecl} (hf : G.overloads i.key = [f])
    {ascription : Option SmtSort} {ts : List Term} {r : SmtSort}
    (h : (infer G s (.app ⟨i, ascription⟩ ts)).Returns clean r) :
    ∃ rs, List.Forall₂ (fun t r => (infer G s t).Returns clean r) ts rs ∧ f.Applies rs r := by
  cases ascription with
  | none =>
    obtain ⟨rs, hrs, hr⟩ := (returns_app_of_single hf s).mp h
    exact ⟨rs, hrs, (FunDecl.result?_none_eq_some.mp hr).1⟩
  | some sort =>
    obtain ⟨rs, hrs, -, hr⟩ := (returns_ascribedApp s).mp h
    obtain ⟨rfl, g, hg, hgives⟩ := firstFit_eq_some.mp hr
    rw [hf, List.mem_singleton] at hg
    exact ⟨rs, hrs, hg ▸ hgives.1⟩

end

theorem lookup_zip {xs : List String} {rs : List SmtSort} (hxs : xs.Nodup) {i : Nat} {x : String}
    {r : SmtSort} (hx : xs[i]? = some x) (hr : rs[i]? = some r) :
    (xs.zip rs).lookup x = some r := by
  induction xs generalizing rs i with
  | nil => cases hx
  | cons y xs ih =>
    obtain ⟨hy, hxs⟩ := List.nodup_cons.mp hxs
    cases rs with
    | nil => cases hr
    | cons q rs =>
      rw [List.zip_cons_cons, List.lookup_cons]
      cases i with
      | zero =>
        cases hx
        cases hr
        rw [beq_self_eq_true]
      | succ i =>
        have hne : (x == y) = false := by
          rw [beq_eq_false_iff_ne]
          rintro rfl
          exact hy (List.mem_of_getElem? hx)
        rw [hne]
        exact ih hxs hx hr

namespace Check.Datatype

/-- Whether all parameters of a datatype occur in its sort. -/
def Determined (d : Datatype) : Prop := ∀ p ∈ d.params, SmtSort.anyMentions p [d.sort] = true

theorem determined_ofDec (n : Node) (name : String) (dec : DatatypeDec) :
    (ofDec n name dec).Determined := by
  intro p hp
  refine SmtSort.anyMentions_iff.mpr ⟨_, List.mem_singleton_self _, ?_⟩
  refine SmtSort.mentions_of_mem (s := .simple p) (List.mem_map_of_mem hp) ?_
  rw [SmtSort.mentions_simple, beq_self_eq_true]

section

variable {clean : Prop} {G : Stack} {s : Spot} {d : Datatype} {σ : Subst} {t : Term}

/-- A selector or tester on a term of an instance of the datatype. -/
theorem returns_function (hd : d.Determined) {i : Identifier} {key : String} {result : SmtSort}
    (hf : G.overloads i.key = [d.function key [d.sort] result]) (hσ : σ.Total d.params)
    (ht : (infer G s t).Returns clean (d.sort.replace σ)) :
    (infer G s (.app ⟨i, none⟩ [t])).Returns clean (result.replace σ) := by
  refine (returns_app_of_single hf s).mpr ⟨_, .cons ht .nil, ?_⟩
  rw [FunDecl.result?_none_eq_some, FunDecl.Applies, function, FunDecl.formals_symbol]
  exact ⟨⟨σ, hσ, List.map_singleton, rfl⟩, hd⟩

/-- The constructor is the only one for an instance of the datatype, and its fields have the sorts
for that instance. -/
theorem filterMap_fields (hd : d.Determined) {key : String} {fields : List SmtSort}
    (hf : G.overloads key = [d.function key fields d.sort]) (hσ : σ.Total d.params) :
    (G.overloads key).filterMap (·.fields? fields.length (d.sort.replace σ)) =
      [fields.map (SmtSort.replace σ)] := by
  have hfields : (d.function key fields d.sort).fields? fields.length (d.sort.replace σ) =
      some (fields.map (SmtSort.replace σ)) :=
    FunDecl.fields?_eq_some.mpr ⟨rfl, ⟨σ, hσ, rfl, rfl⟩, hd⟩
  rw [hf, List.filterMap_cons, hfields, List.filterMap_nil]

/-- A match that gives back a field. -/
theorem returns_match (hd : d.Determined) {ctor : String} {fields : List SmtSort}
    (hf : G.overloads (quoteSymbol ctor) = [d.function (quoteSymbol ctor) fields d.sort])
    (hσ : σ.Total d.params) (ht : (infer G s t).Returns clean (d.sort.replace σ))
    {xs : List String} (hxs : xs.Nodup) (hlength : xs.length = fields.length) {i : Nat} {x : String}
    {u : SmtSort} (hx : xs[i]? = some x) (hu : fields[i]? = some u) :
    (infer G s (.matching t [(.applied ctor none xs, .ident ⟨.simple x, none⟩)])).Returns clean
      (u.replace σ) := by
  let p : Pattern := .applied ctor none xs
  let s' : Spot := ((s.item 2).item 0).item 0
  let K : Stack := (G.bind (argumentVars p s' (fields.map (SmtSort.replace σ)))).value
  have hscope (n : Node) : (caseScope G n (d.sort.replace σ) s' p true).Yields K := by
    refine yields_caseScope.mpr ⟨fun q hq => (by cases hq), .inl ⟨_, ?_, rfl⟩⟩
    rw [show p.arguments.length = fields.length from hlength]
    exact filterMap_fields hd hf hσ
  have hvar : (K.var? (quoteSymbol x)).map (·.sort) = some (u.replace σ) := by
    have hlookup : ((p.arguments.map quoteSymbol).zip (fields.map (SmtSort.replace σ))).lookup
        (quoteSymbol x) = some (u.replace σ) := by
      refine lookup_zip (hxs.map quoteSymbol_injective) (i := i) ?_ ?_
      · rw [List.getElem?_map, hx, Option.map_some]
      · rw [List.getElem?_map, hu, Option.map_some]
    rw [Stack.varSort?_bind, locals_argumentVars, hlookup, Option.some_or]
  have harm (n : Node) : (inferArm G n (d.sort.replace σ) ((s.item 2).item 0) p
      (.ident ⟨.simple x, none⟩) true).Returns clean (u.replace σ) := by
    refine (Logged.returns_bind (by rfl)).mpr ⟨K, ⟨(hscope n).1, fun _ => (hscope n).2⟩, ?_⟩
    simp only [infer_var hvar]
    exact Logged.returns_pure.mpr rfl
  rw [infer]
  refine (Logged.returns_bind (by rfl)).mpr ⟨_, (returns_infer_iff s (s.item 1)).mp ht, ?_⟩
  refine (Logged.returns_bind (by rfl)).mpr ⟨[u.replace σ], ?_, Logged.returns_pure.mpr rfl⟩
  rw [inferArms_cons, returns_consSort]
  exact ⟨_, [], rfl, harm _, Logged.returns_pure.mpr rfl⟩

end

end Check.Datatype

namespace Check

/-- Constructors that a command declares without a finding agree with their selectors, their testers
and matches: if the application of a constructor has a sort, ascribed or not, the selectors and a
match give back the sorts of its arguments, and the tester is a predicate on it. The functions of
the constructor have to be in view, with no others of their names, in the stack after the command or
in any later one. The sort of truth values must not be the name of a parameter. -/
theorem constructor_agrees (setup : Setup) (ctx : Context) (s : Spot) (c : Command)
    (h : (command setup ctx s c).findings = []) (d : SortDec × DatatypeDec) (hd : d ∈ c.datatypes)
    (hbool : "Bool" ∉ d.2.params) (k : ConstructorDec) (hk : k ∈ d.2.constructors) (G : Stack)
    (hG : ∀ key ∈ k.keys, (command setup ctx s c).value.stack.overloads key ⊆ G.overloads key)
    (hone : ∀ key ∈ k.keys, (G.overloads key).length = 1) (clean : Prop) (s' : Spot)
    (ascription : Option SmtSort) (args : List Term) (r : SmtSort)
    (hr : (infer G s' (.app ⟨.simple k.name, ascription⟩ args)).Returns clean r) :
    let t : Term := .app ⟨.simple k.name, ascription⟩ args
    args.length = k.selectors.length ∧
      (infer G s' (.app ⟨k.tester, none⟩ [t])).Returns clean .bool ∧
      ∀ (i : Nat) (a : Term) (v : SortedVar), args[i]? = some a → k.selectors[i]? = some v →
        ∃ u, (infer G s' a).Returns clean u ∧
          (infer G s' (.app ⟨.simple v.name, none⟩ [t])).Returns clean u ∧
          ∀ (xs : List String) (x : String), xs.Nodup → xs.length = k.selectors.length →
            xs[i]? = some x →
            (infer G s' (.matching t
              [(.applied k.name none xs, .ident ⟨.simple x, none⟩)])).Returns clean u := by
  intro t
  obtain ⟨fieldSort, hbrings⟩ := brings_command h hd hk
  have hdet := Datatype.determined_ofDec (s.node (.command c)) d.1.name d.2
  have hsingle {key : String} (hkey : key ∈ k.keys) {f : FunDecl}
      (hf : f ∈ (command setup ctx s c).value.stack.overloads key) : G.overloads key = [f] :=
    eq_singleton_of_mem (hone key hkey) (hG key hkey hf)
  have hself := hsingle (List.mem_cons_self ..) hbrings.self
  have htester := hsingle (List.mem_cons_of_mem _ (List.mem_cons_self ..))
    (k.key_tester ▸ hbrings.tester)
  obtain ⟨rs, hrs, σ, hσ, hargs, rfl⟩ :=
    exists_applies_of_returns (i := .simple k.name) (Identifier.key_simple _ ▸ hself) hr
  rw [Datatype.function, FunDecl.formals_symbol, List.map_map] at hargs
  subst hargs
  refine ⟨?_, ?_, fun i a v ha hv => ?_⟩
  · rw [hrs.length_eq, List.length_map]
  · have hcapture : σ.get? "Bool" = none := by
      rw [← Option.not_isSome_iff_eq_none, ← hσ "Bool"]
      intro hp
      obtain ⟨p, hp, hquote⟩ := List.mem_map.mp hp
      rw [← show quoteSymbol "Bool" = "Bool" by decide +kernel] at hquote
      exact hbool (quoteSymbol_injective hquote ▸ hp)
    have hreturns := Datatype.returns_function hdet htester hσ hr
    rwa [SmtSort.bool, SmtSort.replace_simple, hcapture] at hreturns
  · have hmem : quoteSymbol v.name ∈ k.keys :=
      List.mem_cons_of_mem _ (List.mem_cons_of_mem _
        (List.mem_map_of_mem (List.mem_of_getElem? hv)))
    have hselector := hsingle hmem (hbrings.selectors v (List.mem_of_getElem? hv))
    refine ⟨(fieldSort v.sort).replace σ, ?_, ?_, fun xs x hxs hlength hx => ?_⟩
    · obtain ⟨hi, rfl⟩ := List.getElem?_eq_some_iff.mp ha
      obtain ⟨hi', rfl⟩ := List.getElem?_eq_some_iff.mp hv
      simpa using (List.forall₂_iff_get.mp hrs).2 i hi (by simpa using hi')
    · exact Datatype.returns_function hdet (Identifier.key_simple _ ▸ hselector) hσ hr
    · refine Datatype.returns_match hdet hself hσ hr hxs ?_ hx ?_
      · rw [hlength, List.length_map]
      · rw [List.getElem?_map, hv, Option.map_some]

/-- A sort and a constant of it. -/
def elements : Context :=
  .after [.root bare ⟨⟨.nowhere, [], []⟩, .script
    [.declareSort "A" 0, .declareConst "a" (.simple "A")]⟩]

/-- Lists over a parameter. -/
def listDec : DatatypeDec :=
  ⟨some ["X"], [⟨"nil", []⟩,
    ⟨"cons", [⟨"head", .simple "X"⟩, ⟨"tail", .mk (.simple "List") [.simple "X"]⟩]⟩]⟩

theorem constructor_agrees_list :
    let s : Spot := .top ⟨.nowhere, [], []⟩
    let c : Command := .declareDatatypes [⟨"List", 1⟩] [listDec]
    let G := (command bare elements s c).value.stack
    let list : SmtSort := .mk (.simple "List") [.simple "A"]
    let t : Term := .app ⟨.simple "cons", none⟩
      [.ident ⟨.simple "a", none⟩, .ident ⟨.simple "nil", some list⟩]
    (command bare elements s c).findings = [] ∧ (infer G s t).Returns True list ∧
      (infer G s (.app ⟨⟨"is", [.symbol "cons"]⟩, none⟩ [t])).Returns True .bool ∧
      (infer G s (.app ⟨.simple "tail", none⟩ [t])).Returns True list ∧
      (infer G s (.matching t [(.applied "cons" none ["x", "y"],
        .ident ⟨.simple "y", none⟩)])).Returns True list := by
  intro s c G list t
  have hquiet : (command bare elements s c).findings = [] := by decide +kernel
  have ht : (infer G s t).Returns True list := ⟨by decide +kernel, fun _ => by decide +kernel⟩
  have hnil : (infer G s (.ident ⟨.simple "nil", some list⟩)).Returns True list :=
    ⟨by decide +kernel, fun _ => by decide +kernel⟩
  obtain ⟨-, htester, hfields⟩ := constructor_agrees bare elements s c hquiet
    (⟨"List", 1⟩, listDec) (List.mem_singleton_self _) (by decide) _
    (List.mem_cons_of_mem _ (List.mem_singleton_self _)) G (fun _ _ => List.Subset.refl _)
    (by decide +kernel) True s none _ list ht
  obtain ⟨u, hu, htail, hmatch⟩ := hfields 1 _ _ rfl rfl
  obtain rfl := hu.unique hnil
  exact ⟨hquiet, ht, htester, htail, hmatch ["x", "y"] "y" (by decide) rfl rfl⟩

/-- Without the core theory a parameter may be called like the sort of truth values. The tester then
gives what the parameter stands for. -/
theorem tester_of_captured_bool :
    let s : Spot := .top ⟨.nowhere, [], []⟩
    let c : Command := .declareDatatypes [⟨"D", 1⟩] [⟨some ["Bool"], [⟨"c", [⟨"s", .bool⟩]⟩]⟩]
    let G := (command bare elements s c).value.stack
    let t : Term := .app ⟨.simple "c", none⟩ [.ident ⟨.simple "a", none⟩]
    SyntaxCheck.command s c = [] ∧ (command bare elements s c).findings = [] ∧
      (G.sort? "Bool").isNone ∧
      (∀ key ∈ ConstructorDec.keys ⟨"c", [⟨"s", .bool⟩]⟩, (G.overloads key).length = 1) ∧
      (infer G s t).Returns True (.mk (.simple "D") [.simple "A"]) ∧
      ¬ (infer G s (.app ⟨⟨"is", [.symbol "c"]⟩, none⟩ [t])).Returns False .bool := by
  intro s c G t
  refine ⟨by decide +kernel, by decide +kernel, by decide +kernel, by decide +kernel,
    ⟨by decide +kernel, fun _ => by decide +kernel⟩, fun h => ?_⟩
  exact absurd h.1 (by decide +kernel)

end Check

end WellSorted
