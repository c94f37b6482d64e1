import WellSorted.Check.Commands
import WellSorted.Proofs.Formed

/-!
# What is entered

`G.Entered P H`: the stack `H` is `G` with declarations entered into its innermost scope one after
another, each with the property `P` in the stack that took it. Theories, definitions and datatypes
only enter declarations that fit (`Declaration.Fits`). If nothing is found on the way and sort
parameters are plain, these are made of sorts that were checked (`Declaration.Checked`). There is
one lemma for each function that enters something; `clean` stands for the case that nothing is
found.
-/

namespace WellSorted

namespace Stack

theorem insert_eq_ok {G K : Stack} {d : Declaration} :
    G.insert d = .ok K ↔ G.conflict? d = none ∧ K = { G with top := G.top.put d } := by
  unfold insert
  cases G.conflict? d with
  | some previous => simp
  | none => simp [eq_comm]

theorem conflict?_sort_eq_none {G : Stack} {d : SortDecl} :
    G.conflict? (.sort d) = none ↔ G.sort? d.name = none :=
  Option.map_eq_none_iff

theorem keeps_of_insert {G K : Stack} {d : Declaration} (h : G.insert d = .ok K) : G.Keeps K := by
  obtain ⟨hnone, rfl⟩ := insert_eq_ok.mp h
  intro name e he
  rw [sort?_eq] at he ⊢
  cases d with
  | function f => exact he
  | var v => exact he
  | sort d =>
    rw [Scope.put, Scope.sort?, List.find?_append, Option.or_assoc]
    rcases Option.or_eq_some_iff.mp he with htop | ⟨htop, houter⟩
    · exact Option.or_eq_some_iff.mpr (.inl htop)
    · have hne : ¬ (d.name == name) = true := by
        intro hname
        rw [conflict?_sort_eq_none, eq_of_beq hname, sort?_eq, htop, houter] at hnone
        cases hnone
      have hlast : [d].find? (·.name == name) = none := by simpa using hne
      rw [show G.top.sorts.find? (·.name == name) = none from htop, hlast]
      exact houter

theorem sort?_of_insert_function {G K : Stack} {f : FunDecl} (h : G.insert (.function f) = .ok K)
    (name : String) : K.sort? name = G.sort? name := by
  obtain ⟨-, rfl⟩ := insert_eq_ok.mp h
  rfl

theorem sort?_of_insert_sort {G K : Stack} {d : SortDecl} (h : G.insert (.sort d) = .ok K) :
    K.sort? d.name = some d := by
  obtain ⟨hnone, rfl⟩ := insert_eq_ok.mp h
  rw [conflict?_sort_eq_none, sort?_eq, Option.or_eq_none_iff] at hnone
  rw [sort?_eq, Scope.put, Scope.sort?, List.find?_append,
    show G.top.sorts.find? _ = _ from hnone.1]
  simp

theorem has_of_insert {G K : Stack} {d e : Declaration} (h : G.insert d = .ok K) :
    K.Has e ↔ G.Has e ∨ e = d := by
  obtain ⟨-, rfl⟩ := insert_eq_ok.mp h
  simp only [Has, scopes, List.mem_cons, exists_eq_or_imp, Scope.has_put]
  exact or_right_comm

/-! ### Chains of entries -/

inductive Entered (P : Stack → Declaration → Prop) (G : Stack) : Stack → Prop
  | refl : G.Entered P G
  | insert {H K : Stack} {d : Declaration} :
      G.Entered P H → P H d → H.insert d = .ok K → G.Entered P K

section

variable {P Q : Stack → Declaration → Prop} {G H K : Stack}

theorem Entered.trans (h : G.Entered P H) (h' : H.Entered P K) : G.Entered P K := by
  induction h' with
  | refl => exact h
  | insert _ hd hinsert ih => exact .insert ih hd hinsert

theorem Entered.mono (hPQ : ∀ H d, P H d → Q H d) (h : G.Entered P H) : G.Entered Q H := by
  induction h with
  | refl => exact .refl
  | insert _ hd hinsert ih => exact .insert ih (hPQ _ _ hd) hinsert

theorem Entered.keeps (h : G.Entered P H) : G.Keeps H := by
  induction h with
  | refl => exact .refl G
  | insert _ _ hinsert ih => exact ih.trans (keeps_of_insert hinsert)

theorem Entered.outer_eq (h : G.Entered P H) : H.outer = G.outer := by
  induction h with
  | refl => rfl
  | insert _ _ hinsert ih =>
    obtain ⟨-, rfl⟩ := insert_eq_ok.mp hinsert
    exact ih

/-- Functions leave the sorts alone. -/
theorem Entered.sort?_eq (hP : ∀ H d, P H d → ∃ f, d = .function f) (h : G.Entered P H)
    (name : String) : H.sort? name = G.sort? name := by
  induction h with
  | refl => rfl
  | insert _ hd hinsert ih =>
    obtain ⟨f, rfl⟩ := hP _ _ hd
    rw [sort?_of_insert_function hinsert, ih]

theorem entered_enter {d : Declaration} (hd : P G d) : G.Entered P (G.enter d).value := by
  unfold enter
  cases h : G.insert d with
  | ok K => exact .insert .refl hd h
  | error _ => exact .refl

theorem entered_enterAll {ds : List Declaration} (hds : ∀ d ∈ ds, ∀ H, G.Entered P H → P H d) :
    G.Entered P (G.enterAll ds).value := by
  induction ds generalizing G with
  | nil => exact .refl
  | cons d ds ih =>
    have hd : G.Entered P (G.enter d).value := entered_enter (hds d List.mem_cons_self G .refl)
    refine hd.trans (ih fun e he H hH => ?_)
    exact hds e (List.mem_cons_of_mem _ he) H (hd.trans hH)

theorem entered_declare {d : Declaration} {n : Node} {p : Problem} (hd : P G d) :
    G.Entered P (G.declare n p d).value := by
  unfold declare
  cases h : G.insert d with
  | ok K => exact .insert .refl hd h
  | error _ => exact .refl

end

/-- A declaration without a finding was entered. -/
theorem insert_of_findings_declare {G : Stack} {d : Declaration} {n : Node} {p : Problem}
    (h : (G.declare n p d).findings = []) : G.insert d = .ok (G.declare n p d).value := by
  unfold declare at h ⊢
  cases hd : G.insert d with
  | ok K => rfl
  | error previous =>
    rw [hd] at h
    cases h

end Stack

/-- What each step of a fold does, a fold does that has no findings if it is clean. -/
theorem Logged.foldlM_rel {σ α : Type} {R : σ → σ → Prop} (hrefl : ∀ s, R s s)
    (htrans : ∀ s t u, R s t → R t u → R s u) {clean : Prop} {f : σ → α → Logged σ} {l : List α}
    {s : σ} (hclean : clean → (l.foldlM f s).findings = [])
    (hstep : ∀ a ∈ l, ∀ t, R s t → (clean → (f t a).findings = []) → R t (f t a).value) :
    R s (l.foldlM f s).value := by
  induction l generalizing s with
  | nil => exact hrefl s
  | cons a l ih =>
    rw [List.foldlM_cons] at hclean ⊢
    simp only [findings_bind, List.append_eq_nil_iff] at hclean
    have ha := hstep a List.mem_cons_self s (hrefl s) fun h => (hclean h).1
    refine htrans _ _ _ ha (ih (fun h => (hclean h).2) fun b hb t ht => ?_)
    exact hstep b (List.mem_cons_of_mem _ hb) t (htrans _ _ _ ha ht)

/-- What every step keeps up holds at the end of a fold. -/
theorem Logged.foldlM_inv {σ α : Type} {Q : σ → Prop} {clean : Prop} {f : σ → α → Logged σ}
    {l : List α} {s : σ} (hclean : clean → (l.foldlM f s).findings = [])
    (hstep : ∀ a ∈ l, ∀ t, Q t → (clean → (f t a).findings = []) → Q (f t a).value) (hs : Q s) :
    Q (l.foldlM f s).value :=
  foldlM_rel (R := fun s t => Q s → Q t) (fun _ => id) (fun _ _ _ h h' => h' ∘ h) hclean
    (fun a ha t _ hfindings ht => hstep a ha t ht hfindings) hs

/-- What a step without findings brings about and no step undoes holds at the end of a fold. -/
theorem Logged.foldlM_reaches {σ α : Type} {f : σ → α → Logged σ} {Q : σ → Prop}
    (hkeep : ∀ s a, Q s → Q (f s a).value) {a : α}
    (hreach : ∀ s, (f s a).findings = [] → Q (f s a).value) {l : List α} (ha : a ∈ l) {s : σ}
    (h : (l.foldlM f s).findings = []) : Q (l.foldlM f s).value := by
  obtain ⟨l₁, l₂, rfl⟩ := List.append_of_mem ha
  simp only [List.foldlM_append, List.foldlM_cons, findings_bind, List.append_eq_nil_iff] at h
  simp only [List.foldlM_append, List.foldlM_cons, value_bind]
  exact foldlM_inv False.elim (fun b _ t ht _ => hkeep t b ht) (hreach _ h.2.1)

theorem Stack.entered_foldlM {P : Stack → Declaration → Prop} {clean : Prop} {α : Type}
    {f : Stack → α → Logged Stack} {l : List α} {G : Stack}
    (hclean : clean → (l.foldlM f G).findings = [])
    (hstep : ∀ a ∈ l, ∀ H, G.Entered P H → (clean → (f H a).findings = []) →
      H.Entered P (f H a).value) : G.Entered P (l.foldlM f G).value :=
  Logged.foldlM_rel (R := Entered P) (fun _ => .refl) (fun _ _ _ => Entered.trans) hclean hstep

/-! ### What a declaration is like -/

/-- An associative function takes two arguments, and gives the sort of the first or second one; a
chainable or pairwise one is a predicate on two arguments of one sort. -/
structure FunDecl.Fits (f : FunDecl) : Prop where
  left : f.assoc = some .left → ∃ b, f.args = [f.result, b]
  right : f.assoc = some .right → ∃ a, f.args = [a, f.result]
  chain : f.chain.isSome = true → ∃ a, f.args = [a, a] ∧ f.result = .bool

/-- What holds of a declaration that is entered, whatever is found on the way. -/
def Declaration.Fits : Declaration → Prop
  | .sort d => d.definition.isSome = true → d.params.length = d.arity
  | .function f => f.Fits
  | .var _ => False

/-- The sorts that go into a declaration with the given parameters. -/
inductive Stack.Admits (G : Stack) (params : List String) : SmtSort → Prop
  | resolved {n : Node} {s : SmtSort} :
      G.checkSort params n s = [] → G.Admits params (G.resolve params s)
  | formed {s : SmtSort} : G.Formed params s → G.Admits params s

/-- What holds of a declaration that is entered if nothing is found. -/
def Declaration.Checked (G : Stack) : Declaration → Prop
  | .sort d => ∀ s, d.definition = some s → PlainParams d.params ∧ G.Admits d.params s
  | .function f => PlainParams f.params ∧ ∀ s ∈ f.signature, G.Admits f.params s
  | .var v => G.Admits [] v.sort

def Introduces (clean : Prop) (G : Stack) (d : Declaration) : Prop :=
  d.Fits ∧ (clean → d.Checked G)

theorem Introduces.mono {clean clean' : Prop} (h : clean' → clean) (G : Stack) (d : Declaration)
    (hd : Introduces clean G d) : Introduces clean' G d :=
  ⟨hd.1, fun h' => hd.2 (h h')⟩

theorem FunDecl.fits_of_none {f : FunDecl} (hassoc : f.assoc = none) (hchain : f.chain = none) :
    f.Fits := by
  constructor <;> simp [hassoc, hchain]

theorem plainParams_nil : PlainParams [] := fun _ hp => absurd hp List.not_mem_nil

namespace Stack

theorem admits_resolveAll {G : Stack} {params : List String} {n : Node} {ss : List SmtSort}
    (h : G.checkSorts params n ss = []) : ∀ s ∈ G.resolveAll params ss, G.Admits params s := by
  induction ss with
  | nil => exact fun _ hs => absurd hs List.not_mem_nil
  | cons s ss ih =>
    obtain ⟨hs, hss⟩ := List.append_eq_nil_iff.mp h
    exact List.forall_mem_cons.mpr ⟨.resolved hs, ih hss⟩

theorem admits_signature {G : Stack} {params : List String} {n : Node} {args : List SmtSort}
    {result : SmtSort} (h : G.checkSorts params n (args ++ [result]) = []) :
    ∀ s ∈ G.resolveAll params args ++ [G.resolve params result], G.Admits params s := by
  have hall := admits_resolveAll h
  rwa [resolveAll_eq_map, List.map_append, ← resolveAll_eq_map] at hall

mutual

theorem checkSort_congr {G H : Stack} (h : ∀ name, H.sort? name = G.sort? name) (ps : List String)
    (n : Node) : ∀ s : SmtSort, H.checkSort ps n s = G.checkSort ps n s
  | .mk head args => by
    rw [checkSort, checkSort, checkSorts_congr h ps n args, checkHead, checkHead, h]

theorem checkSorts_congr {G H : Stack} (h : ∀ name, H.sort? name = G.sort? name)
    (ps : List String) (n : Node) : ∀ ss : List SmtSort, H.checkSorts ps n ss = G.checkSorts ps n ss
  | [] => rfl
  | s :: ss => by
    rw [checkSorts, checkSorts, checkSort_congr h ps n s, checkSorts_congr h ps n ss]

end

theorem Admits.congr {G H : Stack} (h : ∀ name, H.sort? name = G.sort? name)
    {params : List String} {s : SmtSort} (hs : G.Admits params s) : H.Admits params s := by
  cases hs with
  | @resolved n s hs =>
    rw [← resolve_congr h]
    exact .resolved ((checkSort_congr h params n s).trans hs)
  | formed hs => exact .formed (hs.mono fun name d hd => (h name).trans hd)

/-- Functions are the same to all stacks of the same sorts. -/
theorem introduces_congr {clean : Prop} {G H : Stack} (h : ∀ name, H.sort? name = G.sort? name)
    {f : FunDecl} (hf : Introduces clean G (.function f)) : Introduces clean H (.function f) :=
  ⟨hf.1, fun hclean => ⟨(hf.2 hclean).1, fun s hs => ((hf.2 hclean).2 s hs).congr h⟩⟩

def IntroducesFun (clean : Prop) (G : Stack) (d : Declaration) : Prop :=
  (∃ f, d = .function f) ∧ Introduces clean G d

/-! ### Definitions -/

section

open Check

variable {clean : Prop} {G : Stack} {n : Node}

/-- A function without parameters whose sorts were looked at. -/
theorem introduces_function {name : String} {args : List SmtSort} {result : SmtSort}
    {body : Option Term} (h : clean → (function G n name args result).findings = []) :
    Introduces clean G (.function { (function G n name args result).value with body := body }) := by
  refine ⟨FunDecl.fits_of_none rfl rfl, fun hclean => ⟨plainParams_nil, ?_⟩⟩
  have hchecked : G.checkSorts [] n (args ++ [result]) ++ [] = [] := h hclean
  rw [List.append_nil] at hchecked
  exact admits_signature hchecked

theorem entered_declareFun {name : String} {args : List SmtSort} {result : SmtSort}
    (h : clean → (Check.declareFun G n name args result).findings = []) :
    G.Entered (Introduces clean) (Check.declareFun G n name args result).value := by
  refine entered_declare (introduces_function fun hclean => ?_)
  exact (List.append_eq_nil_iff.mp (h hclean)).1

theorem introduces_announce {dec : FunctionDec} {body : Option Term}
    (h : clean → (announce G n dec body).findings = []) :
    Introduces clean G (.function (announce G n dec body).value) :=
  introduces_function fun hclean => (List.append_eq_nil_iff.mp (h hclean)).1

theorem introduces_announceAll {decs : List FunctionDec} {bodies : List Term}
    (h : clean → (announceAll G n decs bodies).findings = []) :
    ∀ f ∈ (announceAll G n decs bodies).value, Introduces clean G (.function f) := by
  induction decs generalizing bodies with
  | nil => exact fun f hf => absurd hf List.not_mem_nil
  | cons dec decs ih =>
    simp only [announceAll, Logged.findings_bind, Logged.findings_pure, List.append_nil,
      List.append_eq_nil_iff] at h
    rw [announceAll, Logged.value_bind, Logged.value_bind, Logged.value_pure]
    exact List.forall_mem_cons.mpr
      ⟨introduces_announce fun hclean => (h hclean).1, ih fun hclean => (h hclean).2⟩

theorem entered_defineFun {isRecursive : Bool} {dec : FunctionDec} {vars : List (Spot × SortedVar)}
    {s : Spot} {t : Term} (h : clean → (defineFun G n isRecursive dec vars s t).findings = []) :
    G.Entered (Introduces clean) (defineFun G n isRecursive dec vars s t).value := by
  have hf := introduces_announce fun hclean => (List.append_eq_nil_iff.mp (h hclean)).1
  cases isRecursive with
  | false => exact entered_enter hf
  | true => exact entered_enter hf

theorem entered_defineFunsRec {decs : List (Spot × FunctionDec)} {ts : List (Spot × Term)}
    (h : clean → (defineFunsRec G n decs ts).findings = []) :
    G.Entered (Introduces clean) (defineFunsRec G n decs ts).value := by
  have hfs := introduces_announceAll fun hclean => (List.append_eq_nil_iff.mp (h hclean)).1
  refine (entered_enterAll (P := IntroducesFun clean) fun d hd H hH => ?_).mono fun _ _ => And.right
  obtain ⟨f, hf, rfl⟩ := List.mem_map.mp hd
  exact ⟨⟨f, rfl⟩, introduces_congr (hH.sort?_eq fun _ _ => And.left) (hfs f hf)⟩

theorem entered_defineSort {name : String} {params : List String} {sort : SmtSort}
    (hparams : clean → PlainParams params)
    (h : clean → (defineSort G n name params sort).findings = []) :
    G.Entered (Introduces clean) (defineSort G n name params sort).value := by
  refine entered_declare ⟨fun _ => rfl, fun hclean s hs => ?_⟩
  have hplain : PlainParams (params.map quoteSymbol) := by
    rw [(hparams hclean).map_quoteSymbol]
    exact hparams hclean
  cases hs
  exact ⟨hplain, .resolved (List.append_eq_nil_iff.mp (h hclean)).1⟩

end

/-! ### Datatypes -/

section

open Check

variable {clean : Prop} {n : Node}

theorem entered_declareSort {G : Stack} {d : SortDec} :
    G.Entered (Introduces clean) (Check.declareSort n G d).value :=
  entered_declare ⟨nofun, fun _ _ hs => nomatch hs⟩

/-- Whether a stack is ready to take the functions of a datatype. -/
structure Ready (G : Stack) (d : Datatype) : Prop where
  params : PlainParams d.params
  sort : G.Formed d.params d.sort
  bool : G.Formed d.params .bool

theorem Ready.mono {G H : Stack} {d : Datatype} (hd : G.Ready d) (h : G.Keeps H) : H.Ready d :=
  ⟨hd.params, hd.sort.mono h, hd.bool.mono h⟩

theorem entered_function {G : Stack} {d : Datatype} {name : String} {args : List SmtSort}
    {result : SmtSort} (hd : clean → G.Ready d)
    (h : clean → ∀ s ∈ args ++ [result], G.Admits d.params s) :
    G.Entered (IntroducesFun clean) (G.declareFun (d.function name args result)).value :=
  entered_declare ⟨⟨_, rfl⟩, FunDecl.fits_of_none rfl rfl,
    fun hclean => ⟨(hd hclean).params, h hclean⟩⟩

theorem entered_selector {G : Stack} {d : Datatype} {v : SortedVar} (hd : clean → G.Ready d)
    (h : clean → (d.selector G v).findings = []) :
    G.Entered (IntroducesFun clean) (d.selector G v).value := by
  refine entered_function hd fun hclean => ?_
  have hsort : G.Admits d.params (G.resolve d.params v.sort) :=
    .resolved (List.append_eq_nil_iff.mp (h hclean)).1
  simpa using ⟨.formed (hd hclean).sort, hsort⟩

theorem entered_tester {G : Stack} {d : Datatype} {name : String} (hd : clean → G.Ready d) :
    G.Entered (IntroducesFun clean) (G.declareFun (d.function name [d.sort] .bool)).value := by
  refine entered_function hd fun hclean => ?_
  simpa using ⟨.formed (hd hclean).sort, .formed (hd hclean).bool⟩

theorem entered_selectors {G : Stack} {d : Datatype} {vars : List SortedVar}
    (hd : clean → G.Ready d) (h : clean → (vars.foldlM d.selector G).findings = []) :
    G.Entered (IntroducesFun clean) (vars.foldlM d.selector G).value :=
  entered_foldlM h fun _ _ _ hH hv =>
    entered_selector (fun hclean => (hd hclean).mono hH.keeps) hv

theorem sort?_selector (G : Stack) (d : Datatype) (v : SortedVar) (name : String) :
    (d.selector G v).value.sort? name = G.sort? name := by
  have h : G.Entered (IntroducesFun False) (d.selector G v).value := entered_selector nofun nofun
  exact h.sort?_eq (fun _ _ => And.left) name

/-- Selectors without findings have checked sorts. -/
theorem checkSorts_selectors {G : Stack} {d : Datatype} {vars : List SortedVar}
    (h : (vars.foldlM d.selector G).findings = []) :
    G.checkSorts d.params d.node (vars.map (·.sort)) = [] := by
  induction vars generalizing G with
  | nil => rfl
  | cons v vars ih =>
    rw [List.foldlM_cons, Logged.findings_bind, List.append_eq_nil_iff] at h
    have hv : G.checkSort d.params d.node v.sort = [] := (List.append_eq_nil_iff.mp h.1).1
    have hvars := ih h.2
    rw [checkSorts_congr (sort?_selector G d v)] at hvars
    rw [List.map_cons, checkSorts, hv, hvars]
    rfl

/-- The constructor itself, once its fields are checked. -/
theorem entered_self {G : Stack} {d : Datatype} {fields : List SmtSort} (name : String)
    (hd : clean → G.Ready d) (h : clean → G.checkSorts d.params d.node fields = []) :
    G.Entered (IntroducesFun clean)
      (G.declareFun (d.function name (G.resolveAll d.params fields) d.sort)).value := by
  refine entered_function hd fun hclean s hs => ?_
  rcases List.mem_append.mp hs with hfield | hresult
  · exact admits_resolveAll (h hclean) s hfield
  · rw [List.mem_singleton.mp hresult]
    exact .formed (hd hclean).sort

theorem entered_constructor {G : Stack} {d : Datatype} {c : ConstructorDec}
    (hd : clean → G.Ready d) (h : clean → (d.constructor G c).findings = []) :
    G.Entered (IntroducesFun clean) (d.constructor G c).value := by
  have hclean : clean → (c.selectors.foldlM d.selector G).findings = [] :=
    fun hclean => (List.append_eq_nil_iff.mp (h hclean)).1
  have hready : ∀ {H : Stack}, G.Entered (IntroducesFun clean) H → clean → H.Ready d :=
    fun hH hclean => (hd hclean).mono hH.keeps
  have hselectors := entered_selectors hd hclean
  have hfields (hc : clean) : (c.selectors.foldlM d.selector G).value.checkSorts d.params d.node
      (c.selectors.map (·.sort)) = [] := by
    rw [checkSorts_congr (hselectors.sort?_eq fun _ _ => And.left)]
    exact checkSorts_selectors (hclean hc)
  have hself := hselectors.trans (entered_self (quoteSymbol c.name) (hready hselectors) hfields)
  rw [Datatype.constructor, Logged.value_bind, Logged.value_bind]
  exact hself.trans (entered_tester (hready hself))

theorem entered_constructors {G : Stack} {d : SortDec × DatatypeDec}
    (hd : clean → G.Ready (.ofDec n d.1.name d.2))
    (h : clean → (constructors n G d).findings = []) :
    G.Entered (Introduces clean) (constructors n G d).value := by
  have hfuns : G.Entered (IntroducesFun clean) (constructors n G d).value :=
    entered_foldlM h fun _ _ _ hH hc =>
      entered_constructor (fun hclean => (hd hclean).mono hH.keeps) hc
  exact hfuns.mono fun _ _ => And.right

theorem entered_declareSorts (G : Stack) (sorts : List SortDec) :
    G.Entered (Introduces clean) (sorts.foldlM (Check.declareSort n) G).value :=
  entered_foldlM (fun h : False => h.elim) fun _ _ _ _ _ => entered_declareSort

/-- Sorts that are declared without a finding are there. -/
theorem sort?_declareSorts {G : Stack} {sorts : List SortDec}
    (h : (sorts.foldlM (Check.declareSort n) G).findings = []) {d : SortDec} (hd : d ∈ sorts) :
    (sorts.foldlM (Check.declareSort n) G).value.sort? (quoteSymbol d.name) =
      some (.symbol (quoteSymbol d.name) d.arity n) := by
  refine Logged.foldlM_reaches (Q := fun H : Stack => H.sort? (quoteSymbol d.name) =
    some (.symbol (quoteSymbol d.name) d.arity n)) (fun H e hH => ?_) (fun H hH => ?_) hd h
  · have he : H.Entered (Introduces False) (Check.declareSort n H e).value := entered_declareSort
    exact he.keeps _ _ hH
  · exact sort?_of_insert_sort (insert_of_findings_declare hH)

/-- A datatype whose sort is declared, with as many parameters as the sort takes. -/
theorem ready_ofDec {G : Stack} {name : String} {dec : DatatypeDec} {arity : Nat}
    (hsort : G.sort? (quoteSymbol name) = some (.symbol (quoteSymbol name) arity n))
    (harity : arity = dec.params.length) (hmax : dec.params.length ≤ SortDecl.maxArity)
    (hparams : PlainParams dec.params) (hbool : G.Formed [] .bool) :
    G.Ready (.ofDec n name dec) := by
  have hplain : PlainParams (dec.params.map quoteSymbol) := by
    rw [hparams.map_quoteSymbol]
    exact hparams
  refine ⟨hplain, .symbol (by rw [Identifier.key_simple, hsort]) rfl ?_ ?_, ?_⟩
  · simp only [SortDecl.symbol, harity, List.length_map]
    omega
  · intro s hs
    obtain ⟨p, hp, rfl⟩ := List.mem_map.mp hs
    exact .param hp
  · exact hbool.weaken

theorem entered_declareDatatypes {G : Stack} {sorts : List SortDec} {decs : List DatatypeDec}
    (hbool : clean → G.Formed [] .bool)
    (hdecs : clean → ∀ d ∈ sorts.zip decs, d.1.arity = d.2.params.length ∧
      d.2.params.length ≤ SortDecl.maxArity ∧ PlainParams d.2.params)
    (h : clean → (declareDatatypes G n sorts decs).findings = []) :
    G.Entered (Introduces clean) (declareDatatypes G n sorts decs).value := by
  have hsorts : G.Entered (Introduces clean) _ := entered_declareSorts (n := n) G sorts
  refine hsorts.trans (entered_foldlM (fun hc => (List.append_eq_nil_iff.mp (h hc)).2) ?_)
  intro d hd H hH
  refine entered_constructors fun hc => ?_
  obtain ⟨harity, hmax, hparams⟩ := hdecs hc d hd
  have hsort := sort?_declareSorts (List.append_eq_nil_iff.mp (h hc)).1 (List.of_mem_zip hd).1
  exact ready_ofDec (hH.keeps _ _ hsort) harity hmax hparams
    ((hbool hc).mono (hsorts.keeps.trans hH.keeps))

end

end Stack

/-! ### Theories -/

namespace Check

theorem accept_eq_some {α : Type} {n : Node} {problems : List Problem} {a b : α} :
    (accept n problems a).value = some b ↔ problems = [] ∧ a = b := by
  rw [accept, Logged.value_bind, Logged.value_pure]
  cases problems with
  | nil => simp
  | cons p problems => simp

theorem two_of_assocProblems {side : Assoc} {name : String} {result : SmtSort}
    {args : List SmtSort} (h : assocProblems side name result args = []) :
    ∃ a b, args = [a, b] ∧ assocArgument a b side = result := by
  unfold assocProblems at h
  split at h
  · next a b =>
    split at h
    · next hresult => exact ⟨a, b, rfl, hresult⟩
    · cases h
  · cases h

theorem two_of_chainProblems {chain : Chain} {name : String} {result : SmtSort}
    {args : List SmtSort} (h : chainProblems chain name result args = []) :
    ∃ a, args = [a, a] ∧ result = .bool := by
  unfold chainProblems at h
  split at h
  · next a b =>
    obtain ⟨hargs, hresult⟩ := List.append_eq_nil_iff.mp h
    split at hargs
    · next hab =>
      split at hresult
      · next hbool => exact ⟨a, by rw [hab], eq_of_beq hbool⟩
      · cases hresult
    · cases hargs
  · cases h

theorem assoc_eq_some {n : Node} {name : String} {args : List SmtSort} {result : SmtSort}
    {attributes : List Attribute} {side : Assoc}
    (h : (assoc n name args result attributes).value = some side) :
    ∃ a b, args = [a, b] ∧ assocArgument a b side = result := by
  unfold assoc at h
  split at h
  · exact absurd (accept_eq_some.mp h).1 (by simp)
  · obtain ⟨hproblems, rfl⟩ := accept_eq_some.mp h
    exact two_of_assocProblems hproblems
  · obtain ⟨hproblems, rfl⟩ := accept_eq_some.mp h
    exact two_of_assocProblems hproblems
  · cases h

theorem chain_eq_some {n : Node} {name : String} {args : List SmtSort} {result : SmtSort}
    {attributes : List Attribute} {c : Chain}
    (h : (chain n name args result attributes).value = some c) :
    ∃ a, args = [a, a] ∧ result = .bool := by
  unfold chain at h
  split at h
  · exact absurd (accept_eq_some.mp h).1 (by simp)
  · exact two_of_chainProblems (accept_eq_some.mp h).1
  · exact two_of_chainProblems (accept_eq_some.mp h).1
  · cases h

/-- A function whose attributes were checked against its signature. -/
theorem fits_of_attributes {n : Node} {name : String} {attributes : List Attribute} {f : FunDecl}
    (hassoc : f.assoc = (assoc n name f.args f.result attributes).value)
    (hchain : f.chain = (chain n name f.args f.result attributes).value) : f.Fits := by
  refine ⟨fun h => ?_, fun h => ?_, fun h => ?_⟩
  · obtain ⟨a, b, hargs, rfl⟩ := assoc_eq_some (hassoc.symm.trans h)
    exact ⟨b, hargs⟩
  · obtain ⟨a, b, hargs, rfl⟩ := assoc_eq_some (hassoc.symm.trans h)
    exact ⟨a, hargs⟩
  · obtain ⟨c, hc⟩ := Option.isSome_iff_exists.mp h
    exact chain_eq_some (hchain.symm.trans hc)

end Check

/-- The sort parameters of a function symbol. -/
def FunSymbolDec.params : FunSymbolDec → List String
  | .parametric params _ _ _ _ => params
  | _ => []

/-- The function symbols of a theory. -/
def Theory.funSymbols (t : Theory) : List FunSymbolDec :=
  t.attributes.flatMap fun
    | .funs decs => decs
    | _ => []

/-- Whether the sort parameters in a theory are written without bars. -/
def Theory.Plain (t : Theory) : Prop := ∀ d ∈ t.funSymbols, PlainParams d.params

namespace Stack

section

open Check

variable {clean : Prop} {G : Stack} {n : Node}

theorem entered_functionSymbol {params : List String} {name : String} {args : List SmtSort}
    {result : SmtSort} {attributes : List Attribute} (hparams : clean → PlainParams params)
    (h : clean → (functionSymbol G n params name args result attributes).findings = []) :
    G.Entered (Introduces clean) (functionSymbol G n params name args result attributes).value := by
  refine entered_declare ⟨fits_of_attributes rfl rfl, fun hclean => ⟨hparams hclean, ?_⟩⟩
  exact admits_signature (List.append_eq_nil_iff.mp (h hclean)).1

theorem introduces_literal {name : String} {sort : SmtSort}
    (h : clean → G.checkSort [] n sort = []) :
    Introduces clean G (.function (.symbol name [] [] (G.resolve [] sort) n)) := by
  refine ⟨FunDecl.fits_of_none rfl rfl, fun hclean => ⟨plainParams_nil, fun s hs => ?_⟩⟩
  rw [List.mem_singleton.mp hs]
  exact .resolved (h hclean)

theorem entered_literal {name : String} {sort : SmtSort}
    (h : clean → (literal G n name sort).findings = []) :
    G.Entered (Introduces clean) (literal G n name sort).value :=
  entered_declare (introduces_literal fun hclean => (List.append_eq_nil_iff.mp (h hclean)).1)

theorem entered_literals {name : String} {sort : SmtSort}
    (h : clean → (literals G n name sort).findings = []) :
    G.Entered (Introduces clean) (literals G n name sort).value := by
  have hsort : clean → G.checkSort [] n sort = [] :=
    fun hclean => (List.append_eq_nil_iff.mp (h hclean)).1
  rw [literals, Logged.value_bind]
  split
  · exact entered_enter (introduces_literal hsort)
  · exact .refl

theorem entered_sortSymbolDec {item : Spot × SortSymbolDec} :
    G.Entered (Introduces clean) (sortSymbolDec G item).value :=
  entered_declare ⟨nofun, fun _ _ hs => nomatch hs⟩

theorem entered_funSymbolDec {s : Spot} {d : FunSymbolDec} (hparams : clean → PlainParams d.params)
    (h : clean → (funSymbolDec G (s, d)).findings = []) :
    G.Entered (Introduces clean) (funSymbolDec G (s, d)).value := by
  cases d with
  | literal c sort attributes => exact entered_literal h
  | literals c sort attributes => exact entered_literals h
  | simple name args result attributes => exact entered_functionSymbol (fun _ => plainParams_nil) h
  | parametric params name args result attributes =>
    refine entered_functionSymbol (fun hclean => ?_) h
    have hplain : PlainParams params := hparams hclean
    rw [hplain.map_quoteSymbol]
    exact hplain

theorem entered_theoryAttribute {s : Spot} {a : TheoryAttribute}
    (hparams : clean → ∀ decs, a = .funs decs → ∀ d ∈ decs, PlainParams d.params)
    (h : clean → (theoryAttribute G (s, a)).findings = []) :
    G.Entered (Introduces clean) (theoryAttribute G (s, a)).value := by
  cases a with
  | sorts decs =>
    exact entered_foldlM (f := sortSymbolDec) h fun _ _ _ _ _ => entered_sortSymbolDec
  | funs decs =>
    refine entered_foldlM (f := funSymbolDec) h fun item hitem H _ hH => ?_
    refine entered_funSymbolDec (fun hclean => hparams hclean decs rfl item.2 ?_) hH
    rw [← s.next.map_snd_along 0 decs]
    exact List.mem_map_of_mem hitem
  | other a => exact .refl

theorem entered_theory {s : Spot} {t : Theory} (ht : clean → t.Plain)
    (h : clean → (theory G s t).findings = []) :
    G.Entered (Introduces clean) (theory G s t).value := by
  refine entered_foldlM (f := theoryAttribute) h fun item hitem H _ hH => ?_
  refine entered_theoryAttribute (fun hclean decs hdecs d hd => ht hclean d ?_) hH
  have hattribute : item.2 ∈ t.attributes := by
    rw [← s.map_snd_spread TheoryAttribute.width 2 t.attributes]
    exact List.mem_map_of_mem hitem
  refine List.mem_flatMap.mpr ⟨item.2, hattribute, ?_⟩
  rw [hdecs]
  exact hd

end

end Stack

end WellSorted
