import WellSorted.Proofs.Aliases
import WellSorted.Proofs.Loads

/-!
# Where declarations come from

`Declaration.Arises`: what a command may enter, case by case. Loads enter the sorts and functions of
theories, `declare-sort` and datatypes enter sort symbols, and only `define-sort` enters aliases.
Functions come from a declaration or a definition, or belong to a constructor of a datatype. A
command enters such declarations, opens scopes or leaves scopes, and nothing else
(`Context.moves_arises`).
-/

namespace WellSorted

/-- The names that a command declares or defines as functions. -/
def Command.functionNames : Command → List String
  | .declareConst name _ => [name]
  | .declareFun name _ _ => [name]
  | .defineConst name _ _ => [name]
  | .defineFun dec _ => [dec.name]
  | .defineFunRec dec _ => [dec.name]
  | .defineFunsRec decs _ => decs.map (·.name)
  | _ => []

/-- The datatypes that a command declares. -/
def Command.datatypes : Command → List (SortDec × DatatypeDec)
  | .declareDatatype name dec => [(⟨name, dec.params.length⟩, dec)]
  | .declareDatatypes sorts decs => sorts.zip decs
  | _ => []

namespace Declaration

/-- Whether a declaration may come from a theory. -/
def OfTheory : Declaration → Prop
  | .sort d => d.definition = none
  | .function f => ∃ dec, f.node.part = .funDec dec
  | .var _ => False

/-- What a datatype enters besides its sort, at the node `n`. -/
inductive OfDatatype (n : Node) (d : SortDec × DatatypeDec) (k : ConstructorDec) :
    Declaration → Prop
  | selector {v : SortedVar} {sort : SmtSort} : v ∈ k.selectors →
      OfDatatype n d k (.function ((Check.Datatype.ofDec n d.1.name d.2).function
        (quoteSymbol v.name) [(Check.Datatype.ofDec n d.1.name d.2).sort] sort))
  | constructor {fields : List SmtSort} : fields.length = k.selectors.length →
      OfDatatype n d k (.function ((Check.Datatype.ofDec n d.1.name d.2).function
        (quoteSymbol k.name) fields (Check.Datatype.ofDec n d.1.name d.2).sort))
  | tester :
      OfDatatype n d k (.function ((Check.Datatype.ofDec n d.1.name d.2).function
        (Check.Datatype.testerName (quoteSymbol k.name))
        [(Check.Datatype.ofDec n d.1.name d.2).sort] .bool))

/-- What the command at `s` may enter into a stack; `clean` stands for the case that nothing is
found. -/
inductive Arises (clean : Prop) (s : Spot) (c : Command) (G : Stack) : Declaration → Prop
  | theory {d : Declaration} : d.OfTheory → Arises clean s c G d
  | symbol {d : SortDecl} : d.definition = none → Arises clean s c G (.sort d)
  | aliasOf {name : String} {params : List String} {body : SmtSort} :
      c = .defineSort name params body →
      (clean → G.checkSort (params.map quoteSymbol) (s.node (.command c)) body = []) →
      Arises clean s c G (.sort (G.aliasFor (s.node (.command c)) name params body))
  | function {f : FunDecl} {name : String} : name ∈ c.functionNames → f.name = quoteSymbol name →
      f.node = s.node (.command c) → Arises clean s c G (.function f)
  | datatype {d : SortDec × DatatypeDec} {k : ConstructorDec} {e : Declaration} :
      d ∈ c.datatypes → k ∈ d.2.constructors → e.OfDatatype (s.node (.command c)) d k →
      Arises clean s c G e

end Declaration

/-! ### Theories -/

namespace Stack

/-- Whether a stack is another one with declarations of theories entered. -/
abbrev Extended (G H : Stack) : Prop := G.Entered (fun _ d => d.OfTheory) H

section

open Check

theorem extended_foldlM {α : Type} {f : Stack → α → Logged Stack}
    (hstep : ∀ (G : Stack) a, G.Extended (f G a).value) (l : List α) (G : Stack) :
    G.Extended (l.foldlM f G).value :=
  entered_foldlM False.elim fun a _ H _ _ => hstep H a

theorem extended_funSymbolDec (G : Stack) (item : Spot × FunSymbolDec) :
    G.Extended (funSymbolDec G item).value := by
  obtain ⟨s, d⟩ := item
  cases d with
  | literal c sort attributes => exact entered_declare ⟨_, rfl⟩
  | literals c sort attributes =>
    simp only [funSymbolDec, literals, Logged.value_bind]
    split
    · exact entered_enter ⟨_, rfl⟩
    · exact .refl
  | simple name args result attributes => exact entered_declare ⟨_, rfl⟩
  | parametric params name args result attributes => exact entered_declare ⟨_, rfl⟩

theorem extended_theory (G : Stack) (s : Spot) (t : Theory) : G.Extended (theory G s t).value := by
  refine extended_foldlM (f := theoryAttribute) (fun G item => ?_) _ G
  obtain ⟨s, a⟩ := item
  cases a with
  | sorts decs => exact extended_foldlM (f := sortSymbolDec) (fun _ _ => entered_declare rfl) _ G
  | funs decs => exact extended_foldlM extended_funSymbolDec _ G
  | other a => exact .refl

end

end Stack

namespace Context

open Check

variable {setup : Setup} {n : Node}

theorem extended_load {α : Type} {l : Loader α}
    (henter : ∀ (ctx : Context) s a, ctx.stack.Extended (l.enter ctx s a).value.stack)
    (name : String) (ctx : Context) :
    ctx.stack.Extended (l.load setup n name ctx).value.stack := by
  have hends := l.ends_load setup n name ctx
  generalize l.load setup n name ctx = m at hends
  cases hends with
  | refused _ => exact .refl
  | illegal _ => exact .refl
  | entered => exact henter (ctx.startLoad l.what name) _ _

theorem extended_loadTheory (name : String) (ctx : Context) :
    ctx.stack.Extended (loadTheory setup n name ctx).value.stack :=
  extended_load (fun ctx s t => ctx.stack.extended_theory s t) name ctx

theorem extended_loadCore (ctx : Context) :
    ctx.stack.Extended (loadCore setup n ctx).value.stack := by
  unfold loadCore
  split
  · exact extended_loadTheory coreName { ctx with coreLoaded := true }
  · exact .refl

theorem extended_foldlM {α : Type} {f : Context → α → Logged Context}
    (hstep : ∀ (ctx : Context) a, ctx.stack.Extended (f ctx a).value.stack) (l : List α)
    (ctx : Context) : ctx.stack.Extended (l.foldlM f ctx).value.stack :=
  Logged.foldlM_rel (R := fun ctx ctx' : Context => ctx.stack.Extended ctx'.stack) (fun _ => .refl)
    (fun _ _ _ => .trans) False.elim fun a _ ctx _ _ => hstep ctx a

theorem extended_namedTheory (ctx : Context) (name : String) :
    ctx.stack.Extended (namedTheory setup n ctx name).value.stack := by
  simp only [namedTheory]
  split
  · exact .refl
  · split
    · exact .refl
    · exact extended_loadTheory _ { ctx with theories := ctx.theories ++ [quoteSymbol name] }

theorem extended_logic (ctx : Context) (s : Spot) (l : Logic) :
    ctx.stack.Extended (Check.logic setup ctx s l).value.stack := by
  refine extended_foldlM (f := logicAttribute setup) (fun ctx item => ?_) _ ctx
  obtain ⟨s, a⟩ := item
  cases a with
  | theories names =>
    exact extended_foldlM (f := namedTheory setup _) extended_namedTheory names ctx
  | other a => exact .refl

theorem extended_setLogic (name : String) (ctx : Context) :
    ctx.stack.Extended (setLogic setup n name ctx).value.stack := by
  unfold setLogic
  split
  · exact .refl
  · exact extended_load extended_logic _ { ctx with logic := some (quoteSymbol name) }

end Context

/-! ### Commands -/

namespace Stack

open Check Declaration

section

variable {clean : Prop} {G : Stack} {s : Spot} {c : Command}

theorem arises_declareFun {name : String} {args : List SmtSort} {result : SmtSort}
    (hname : name ∈ c.functionNames) : G.Entered (Arises clean s c)
      (Check.declareFun G (s.node (.command c)) name args result).value :=
  entered_declare (.function hname rfl rfl)

theorem arises_defineFun {isRecursive : Bool} {dec : FunctionDec} {vars : List (Spot × SortedVar)}
    {s' : Spot} {t : Term} (hname : dec.name ∈ c.functionNames) : G.Entered (Arises clean s c)
      (defineFun G (s.node (.command c)) isRecursive dec vars s' t).value := by
  cases isRecursive with
  | false => exact entered_enter (.function hname rfl rfl)
  | true => exact entered_enter (.function hname rfl rfl)

theorem exists_of_mem_announceAll {n : Node} {decs : List FunctionDec} {bodies : List Term} :
    ∀ f ∈ (announceAll G n decs bodies).value,
      f.node = n ∧ ∃ dec ∈ decs, f.name = quoteSymbol dec.name := by
  induction decs generalizing bodies with
  | nil => exact fun f hf => absurd hf List.not_mem_nil
  | cons dec decs ih =>
    rw [announceAll, Logged.value_bind, Logged.value_bind, Logged.value_pure]
    refine List.forall_mem_cons.mpr ⟨⟨rfl, dec, List.mem_cons_self, rfl⟩, fun f hf => ?_⟩
    obtain ⟨hnode, e, he, hname⟩ := ih f hf
    exact ⟨hnode, e, List.mem_cons_of_mem _ he, hname⟩

/-- The functions of definitions that are made together. -/
theorem arises_announceAll {decs : List FunctionDec} {bodies : List Term}
    (hnames : decs.map (·.name) ⊆ c.functionNames) (H : Stack) :
    ∀ d ∈ (announceAll G (s.node (.command c)) decs bodies).value.map .function,
      Arises clean s c H d := by
  refine List.forall_mem_map.mpr fun f hf => ?_
  obtain ⟨hnode, dec, hdec, hname⟩ := exists_of_mem_announceAll f hf
  exact .function (hnames (List.mem_map_of_mem hdec)) hname hnode

theorem arises_defineSort {name : String} {params : List String} {body : SmtSort}
    (hc : c = .defineSort name params body)
    (h : clean → (defineSort G (s.node (.command c)) name params body).findings = []) :
    G.Entered (Arises clean s c) (defineSort G (s.node (.command c)) name params body).value :=
  entered_declare (.aliasOf hc fun hclean => (List.append_eq_nil_iff.mp (h hclean)).1)

theorem arises_constructor {d : SortDec × DatatypeDec} (hd : d ∈ c.datatypes) {k : ConstructorDec}
    (hk : k ∈ d.2.constructors) (G : Stack) : G.Entered (Arises clean s c)
      ((Datatype.ofDec (s.node (.command c)) d.1.name d.2).constructor G k).value := by
  have hselectors : G.Entered (Arises clean s c)
      (k.selectors.foldlM (Datatype.ofDec (s.node (.command c)) d.1.name d.2).selector G).value :=
    entered_foldlM False.elim fun v hv H _ _ =>
      entered_declare (.datatype hd hk (.selector hv))
  rw [Datatype.constructor, Logged.value_bind, Logged.value_bind]
  refine hselectors.trans ((entered_declare (.datatype hd hk (.constructor ?_))).trans
    (entered_declare (.datatype hd hk .tester)))
  rw [resolveAll_eq_map, List.length_map, List.length_map]

theorem arises_declareDatatypes {sorts : List SortDec} {decs : List DatatypeDec}
    (hdecs : sorts.zip decs ⊆ c.datatypes) : G.Entered (Arises clean s c)
      (declareDatatypes G (s.node (.command c)) sorts decs).value := by
  have hsorts : G.Entered (Arises clean s c)
      (sorts.foldlM (Check.declareSort (s.node (.command c))) G).value :=
    entered_foldlM False.elim fun _ _ _ _ _ => entered_declare (.symbol rfl)
  refine hsorts.trans (entered_foldlM False.elim fun d hd H _ _ => ?_)
  exact entered_foldlM False.elim fun k hk K _ _ => arises_constructor (hdecs hd) hk K

end

end Stack

namespace Context

open Check Declaration

variable {setup : Setup}

/-- A command that is no reset enters declarations of the kinds listed, opens scopes or leaves
scopes. -/
theorem moves_arises {clean : Prop} {ctx : Context} {s : Spot} {c : Command} (hreset : c ≠ .reset)
    (h : clean → (command setup ctx s c).findings = []) :
    ctx.stack.Moves (Arises clean s c) (command setup ctx s c).value.stack := by
  cases c with
  | reset => exact absurd rfl hreset
  | setLogic name =>
    exact .entered ((extended_setLogic name ctx).mono fun _ _ hd => .theory hd)
  | declareConst name sort => exact .entered (Stack.arises_declareFun (List.mem_singleton_self _))
  | declareFun name args result =>
    exact .entered (Stack.arises_declareFun (List.mem_singleton_self _))
  | declareSort name arity => exact .entered (Stack.entered_declare (.symbol rfl))
  | declareDatatype name dec => exact .entered (Stack.arises_declareDatatypes (List.Subset.refl _))
  | declareDatatypes sorts decs =>
    exact .entered (Stack.arises_declareDatatypes (List.Subset.refl _))
  | defineConst name sort t => exact .entered (Stack.arises_defineFun (List.mem_singleton_self _))
  | defineFun dec t => exact .entered (Stack.arises_defineFun (List.mem_singleton_self _))
  | defineFunRec dec t => exact .entered (Stack.arises_defineFun (List.mem_singleton_self _))
  | defineFunsRec decs ts =>
    refine .entered (Stack.entered_enterAll fun d hd H _ => Stack.arises_announceAll ?_ H d hd)
    rw [Spot.map_snd_along]
    exact List.Subset.refl _
  | defineSort name params sort =>
    exact .entered (Stack.arises_defineSort rfl fun hclean =>
      (List.append_eq_nil_iff.mp (h hclean)).1)
  | push levels => exact Stack.moves_push
  | pop levels => exact Stack.moves_pop
  | _ => exact .entered .refl

end Context

end WellSorted
