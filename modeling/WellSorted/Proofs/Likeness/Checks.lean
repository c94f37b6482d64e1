import WellSorted.Proofs.Likeness.SyntaxCheck
import WellSorted.Proofs.Likeness.Terms

/-!
# Likeness of checks

Contexts are alike (`Context.Like`) if their stacks are and their records agree; only the loads
themselves may be different ones. Every command takes contexts that are alike to contexts that are
alike, with findings that correspond one to one (`Context.Like.command`), and so does the check of
one tree in two sources (`Context.Like.root`). A load goes the same way in both because it reads the
same text, and the serial numbers of what it reads are for each other.
-/

namespace WellSorted

variable {L : Likeness} {G H : Stack} {n n' : Node} {s s' : Spot}

theorem Likeness.map_snd {α : Type} {xs ys : List (Spot × α)} (h : List.Forall₂ L.Item xs ys) :
    xs.map (·.2) = ys.map (·.2) :=
  map_eq_of_forall₂ (fun _ _ hxy => hxy.2) h

namespace Check

/-! ### Functions -/

theorem like_function (h : G.Like L H) (hn : L.node n n') (name : String) (args : List SmtSort)
    (result : SmtSort) :
    (function G n name args result).Like L (FunDecl.Like L) (function H n' name args result) := by
  refine (Logged.like_reportAll (h.checkSorts hn [] _)).bind_eq fun _ => Logged.like_pure ?_
  rw [h.resolveAll, h.resolve]
  exact ⟨n', hn, rfl⟩

theorem like_declareFun (h : G.Like L H) (hn : L.node n n') (name : String) (args : List SmtSort)
    (result : SmtSort) :
    (declareFun G n name args result).Like L (Stack.Like L) (declareFun H n' name args result) :=
  (like_function h hn name args result).bind fun _ _ hf => h.declareFun hf

theorem like_existing (h : G.Like L H) {f g : FunDecl} (hf : f.Like L g) :
    L.Findings (existing G f) (existing H g) := by
  have hfound := h.conflict? (.function hf)
  obtain ⟨m, hm, rfl⟩ := hf
  unfold existing
  generalize G.conflict? (.function f) = o, H.conflict? (.function (f.atNode m)) = o' at hfound
  cases hfound with
  | none => exact .nil
  | some hpq => exact .cons (like_conflict hm hpq) .nil

theorem like_announce (h : G.Like L H) (hn : L.node n n') (dec : FunctionDec)
    (body : Option Term) :
    (announce G n dec body).Like L (FunDecl.Like L) (announce H n' dec body) := by
  refine (like_function h hn _ _ _).bind fun f g hf => ?_
  have hbody : FunDecl.Like L { f with body := body } { g with body := body } := by
    obtain ⟨m, hm, rfl⟩ := hf
    exact ⟨m, hm, rfl⟩
  exact (Logged.like_reportAll (like_existing h hbody)).bind_eq fun _ => Logged.like_pure hbody

theorem like_announceAll (h : G.Like L H) (hn : L.node n n') (decs : List FunctionDec)
    (bodies : List Term) : (announceAll G n decs bodies).Like L (List.Forall₂ (FunDecl.Like L))
      (announceAll H n' decs bodies) := by
  induction decs generalizing bodies with
  | nil => exact Logged.like_pure .nil
  | cons dec decs ih =>
    exact (like_announce h hn dec _).bind fun _ _ hf => (ih _).bind fun _ _ hfs =>
      Logged.like_pure (.cons hf hfs)

theorem like_functionVars {f g : FunDecl} (hf : f.Like L g) {vars vars' : List (Spot × SortedVar)}
    (h : List.Forall₂ L.Item vars vars') :
    List.Forall₂ (VarDecl.Like L) (functionVars f vars) (functionVars g vars') := by
  obtain ⟨m, -, rfl⟩ := hf
  refine List.rel_map ?_ (Likeness.rel_zip h f.args)
  rintro ⟨⟨s, v⟩, sort⟩ ⟨⟨s', _⟩, _⟩ ⟨⟨hs, rfl⟩, rfl⟩
  exact like_bound (L.item 0 hs) _ _

theorem like_body (h : G.Like L H) {f g : FunDecl} (hf : f.Like L g)
    {vars vars' : List (Spot × SortedVar)} (hvars : List.Forall₂ L.Item vars vars')
    (hs : L.spot s s') (t : Term) : (body G f vars s t).Like L Eq (body H g vars' s' t) := by
  refine (h.bind (like_functionVars hf hvars)).bind fun K M hK => ?_
  obtain ⟨m, hm, rfl⟩ := hf
  refine (hK.infer hs t).bind_eq fun sort => ?_
  cases sort with
  | none => exact Logged.like_report (like_finding hm fun _ => rfl)
  | some sort =>
    show Logged.Like L Eq (if sort = f.result then _ else _) (if sort = f.result then _ else _)
    split
    · exact Logged.like_pure rfl
    · exact Logged.like_report (like_finding hm fun _ => rfl)

theorem like_defineFun (h : G.Like L H) (hn : L.node n n') (isRecursive : Bool)
    (dec : FunctionDec) {vars vars' : List (Spot × SortedVar)}
    (hvars : List.Forall₂ L.Item vars vars') (hs : L.spot s s') (t : Term) :
    (defineFun G n isRecursive dec vars s t).Like L (Stack.Like L)
      (defineFun H n' isRecursive dec vars' s' t) := by
  refine (like_announce h hn dec (some t)).bind fun f g hf => ?_
  have hrest {K M : Stack} (hK : K.Like L M) :
      (do body K f vars s t; G.enter (.function f)).Like L (Stack.Like L)
        (do body M g vars' s' t; H.enter (.function g)) :=
    (like_body hK hf hvars hs t).bind_eq fun _ => h.enter (.function hf)
  cases isRecursive with
  | true => exact (h.push.enter (.function hf)).bind fun _ _ hK => hrest hK
  | false => exact hrest h

theorem like_bodies (h : G.Like L H) {fs gs : List FunDecl}
    (hfs : List.Forall₂ (FunDecl.Like L) fs gs) {decs decs' : List (Spot × FunctionDec)}
    (hdecs : List.Forall₂ L.Item decs decs') {ts ts' : List (Spot × Term)}
    (hts : List.Forall₂ L.Item ts ts') :
    (bodies G fs decs ts).Like L Eq (bodies H gs decs' ts') := by
  induction hfs generalizing decs decs' ts ts' with
  | nil => exact Logged.like_pure rfl
  | cons hf _ ih =>
    cases hdecs with
    | nil => exact Logged.like_pure rfl
    | @cons x y _ _ hxy hdecs =>
      cases hts with
      | nil => exact Logged.like_pure rfl
      | @cons a b _ _ hab hts =>
        obtain ⟨s, dec⟩ := x
        obtain ⟨s', _⟩ := y
        obtain ⟨r, t⟩ := a
        obtain ⟨r', _⟩ := b
        obtain ⟨hs, rfl⟩ := hxy
        obtain ⟨hr, rfl⟩ := hab
        exact (like_body h hf (L.along (L.item 1 hs) 0 dec.vars) hr t).bind_eq fun _ =>
          ih hdecs hts

theorem like_defineFunsRec (h : G.Like L H) (hn : L.node n n')
    {decs decs' : List (Spot × FunctionDec)} (hdecs : List.Forall₂ L.Item decs decs')
    {ts ts' : List (Spot × Term)} (hts : List.Forall₂ L.Item ts ts') :
    (defineFunsRec G n decs ts).Like L (Stack.Like L) (defineFunsRec H n' decs' ts') := by
  unfold defineFunsRec
  rw [Likeness.map_snd hdecs, Likeness.map_snd hts]
  refine (like_announceAll h hn _ _).bind fun fs gs hfs => ?_
  have hnew : List.Forall₂ (Declaration.Like L) (fs.map .function) (gs.map .function) :=
    List.rel_map (fun _ _ => .function) hfs
  exact (h.push.enterAll hnew).bind fun K M hK => (like_bodies hK hfs hdecs hts).bind_eq fun _ =>
    h.enterAll hnew

/-! ### Sorts and datatypes -/

theorem like_declareSort (hn : L.node n n') (h : G.Like L H) (d : SortDec) :
    (declareSort n G d).Like L (Stack.Like L) (declareSort n' H d) :=
  h.declareSort ⟨n', hn, rfl⟩

theorem like_defineSort (h : G.Like L H) (hn : L.node n n') (name : String)
    (params : List String) (sort : SmtSort) :
    (defineSort G n name params sort).Like L (Stack.Like L)
      (defineSort H n' name params sort) := by
  refine (Logged.like_reportAll (h.checkSort hn _ sort)).bind_eq fun _ => ?_
  rw [h.resolve]
  exact h.declareSort ⟨n', hn, rfl⟩

theorem like_datatypeFun {d : Datatype} (hn : L.node d.node n') (name : String)
    (args : List SmtSort) (result : SmtSort) :
    (d.function name args result).Like L (Datatype.function { d with node := n' } name args result) :=
  ⟨n', hn, rfl⟩

theorem like_selector {d : Datatype} (hn : L.node d.node n') (h : G.Like L H) (v : SortedVar) :
    (d.selector G v).Like L (Stack.Like L) (Datatype.selector { d with node := n' } H v) := by
  refine (Logged.like_reportAll (h.checkSort hn _ _)).bind_eq fun _ => ?_
  rw [h.resolve]
  exact h.declareFun (like_datatypeFun hn _ _ _)

theorem like_constructor {d : Datatype} (hn : L.node d.node n') (h : G.Like L H)
    (c : ConstructorDec) :
    (d.constructor G c).Like L (Stack.Like L) (Datatype.constructor { d with node := n' } H c) := by
  have hselectors := Logged.like_foldlM_same (fun _ _ h v => like_selector hn h v) c.selectors h
  refine hselectors.bind fun K M hK => ?_
  rw [hK.resolveAll]
  exact (hK.declareFun (like_datatypeFun hn _ _ _)).bind fun _ _ h =>
    h.declareFun (like_datatypeFun hn _ _ _)

theorem like_declareDatatypes (h : G.Like L H) (hn : L.node n n') (sorts : List SortDec)
    (decs : List DatatypeDec) :
    (declareDatatypes G n sorts decs).Like L (Stack.Like L) (declareDatatypes H n' sorts decs) := by
  refine (Logged.like_foldlM_same (fun _ _ h d => like_declareSort hn h d) sorts h).bind
    fun K M hK => ?_
  refine Logged.like_foldlM_same (fun _ _ h d => ?_) (sorts.zip decs) hK
  exact Logged.like_foldlM_same
    (fun _ _ h c => like_constructor (d := .ofDec n d.1.name d.2) hn h c) d.2.constructors h

/-! ### Theories -/

theorem like_accept {α : Type} (hn : L.node n n') (problems : List Problem) (a : α) :
    (accept n problems a).Like L Eq (accept n' problems a) :=
  (Logged.like_reportAll (SyntaxCheck.like_problems hn id problems)).bind_eq fun _ =>
    Logged.like_pure rfl

theorem like_assoc (hn : L.node n n') (name : String) (args : List SmtSort) (result : SmtSort)
    (attributes : List Attribute) :
    (assoc n name args result attributes).Like L Eq (assoc n' name args result attributes) := by
  unfold assoc
  split
  · exact like_accept hn _ _
  · exact like_accept hn _ _
  · exact like_accept hn _ _
  · exact Logged.like_pure rfl

theorem like_chain (hn : L.node n n') (name : String) (args : List SmtSort) (result : SmtSort)
    (attributes : List Attribute) :
    (chain n name args result attributes).Like L Eq (chain n' name args result attributes) := by
  unfold chain
  split
  · exact like_accept hn _ _
  · exact like_accept hn _ _
  · exact like_accept hn _ _
  · exact Logged.like_pure rfl

theorem like_functionSymbol (h : G.Like L H) (hn : L.node n n') (params : List String)
    (name : String) (args : List SmtSort) (result : SmtSort) (attributes : List Attribute) :
    (functionSymbol G n params name args result attributes).Like L (Stack.Like L)
      (functionSymbol H n' params name args result attributes) := by
  refine (Logged.like_reportAll (h.checkSorts hn params _)).bind_eq fun _ => ?_
  rw [h.resolveAll, h.resolve]
  exact (like_assoc hn _ _ _ _).bind_eq fun _ => (like_chain hn _ _ _ _).bind_eq fun _ =>
    h.declareFun ⟨n', hn, rfl⟩

theorem like_literal (h : G.Like L H) (hn : L.node n n') (name : String) (sort : SmtSort) :
    (literal G n name sort).Like L (Stack.Like L) (literal H n' name sort) := by
  refine (Logged.like_reportAll (h.checkSort hn [] sort)).bind_eq fun _ => ?_
  rw [h.resolve]
  exact h.declare hn _ (.function ⟨n', hn, rfl⟩)

theorem like_literals (h : G.Like L H) (hn : L.node n n') (name : String) (sort : SmtSort) :
    (literals G n name sort).Like L (Stack.Like L) (literals H n' name sort) := by
  refine (Logged.like_reportAll (h.checkSort hn [] sort)).bind_eq fun _ => ?_
  have hfuns := h.overloads name
  have hlength : (G.overloads name).length = (H.overloads name).length := by
    obtain ⟨hs, hlisted, hlike⟩ := hfuns
    exact hlisted.1.length_eq.trans hlike.length_eq
  have hrel := hfuns.forall₂
  rw [h.resolve]
  generalize G.overloads name = fs, H.overloads name = gs at hlength hrel
  cases fs with
  | nil =>
    rw [List.eq_nil_of_length_eq_zero hlength.symm]
    exact h.enter (.function ⟨n', hn, rfl⟩)
  | cons f fs =>
    obtain ⟨g, gs, rfl⟩ := List.exists_cons_of_length_eq_add_one hlength.symm
    refine Logged.like_refuse (like_conflict hn fun ho => ?_) h
    exact .function (List.forall₂_cons.mp (hrel ho)).1

theorem like_sortSymbolDec (h : G.Like L H) {x y : Spot × SortSymbolDec} (hxy : L.Item x y) :
    (sortSymbolDec G x).Like L (Stack.Like L) (sortSymbolDec H y) := by
  obtain ⟨s, d⟩ := x
  obtain ⟨s', _⟩ := y
  obtain ⟨hs, rfl⟩ := hxy
  exact h.declareSort ⟨_, L.at_spot _ hs, rfl⟩

theorem like_funSymbolDec (h : G.Like L H) {x y : Spot × FunSymbolDec} (hxy : L.Item x y) :
    (funSymbolDec G x).Like L (Stack.Like L) (funSymbolDec H y) := by
  obtain ⟨s, d⟩ := x
  obtain ⟨s', _⟩ := y
  obtain ⟨hs, rfl⟩ := hxy
  have hn := L.at_spot (.funDec d) hs
  cases d with
  | literal c sort _ => exact like_literal h hn _ _
  | literals c sort _ => exact like_literals h hn _ _
  | simple name args result attributes => exact like_functionSymbol h hn _ _ _ _ _
  | parametric params name args result attributes => exact like_functionSymbol h hn _ _ _ _ _

theorem like_theoryAttribute (h : G.Like L H) {x y : Spot × TheoryAttribute} (hxy : L.Item x y) :
    (theoryAttribute G x).Like L (Stack.Like L) (theoryAttribute H y) := by
  obtain ⟨s, a⟩ := x
  obtain ⟨s', _⟩ := y
  obtain ⟨hs, rfl⟩ := hxy
  cases a with
  | sorts decs =>
    exact Logged.like_foldlM (f := sortSymbolDec) (g := sortSymbolDec)
      (fun _ _ h _ _ hxy => like_sortSymbolDec h hxy) (L.along (L.next hs) 0 decs) h
  | funs decs =>
    exact Logged.like_foldlM (f := funSymbolDec) (g := funSymbolDec)
      (fun _ _ h _ _ hxy => like_funSymbolDec h hxy) (L.along (L.next hs) 0 decs) h
  | other a => exact Logged.like_pure h

theorem like_theory (h : G.Like L H) (hs : L.spot s s') (t : Theory) :
    (theory G s t).Like L (Stack.Like L) (theory H s' t) :=
  Logged.like_foldlM (f := theoryAttribute) (g := theoryAttribute)
    (fun _ _ h _ _ hxy => like_theoryAttribute h hxy) (L.spread hs _ 2 t.attributes) h

/-! ### Terms in commands -/

theorem like_formula (h : G.Like L H) (hn : L.node n n') (illSorted : Problem)
    (wrongSort : SmtSort → Problem) (hs : L.spot s s') (t : Term) :
    (formula G n illSorted wrongSort s t).Like L Eq (formula H n' illSorted wrongSort s' t) := by
  refine (h.infer hs t).bind_eq fun sort => ?_
  cases sort with
  | none => exact Logged.like_report (like_finding hn fun _ => rfl)
  | some sort =>
    simp only
    split
    · exact Logged.like_pure rfl
    · exact Logged.like_report (like_finding hn fun _ => rfl)

theorem like_sorted (h : G.Like L H) (hn : L.node n n') (hs : L.spot s s') (t : Term) :
    (sorted G n s t).Like L Eq (sorted H n' s' t) := by
  refine (h.infer hs t).bind_eq fun sort => ?_
  cases sort with
  | none => exact Logged.like_report (like_finding hn fun _ => rfl)
  | some sort => exact Logged.like_pure rfl

theorem like_eachTerm {check check' : Spot → Term → Logged Unit}
    (hcheck : ∀ {s s'} t, L.spot s s' → (check s t).Like L Eq (check' s' t)) (hs : L.spot s s')
    (ts : List Term) : (eachTerm check s ts).Like L Eq (eachTerm check' s' ts) := by
  refine Logged.like_forM ?_ (L.along hs 0 ts)
  rintro ⟨s, t⟩ ⟨s', _⟩ ⟨hs, rfl⟩
  exact hcheck t hs

/-! ### Commands -/

theorem like_push (h : G.Like L H) (hn : L.node n n') (levels : Nat) :
    (push G n levels).Like L (Stack.Like L) (push H n' levels) := by
  unfold push
  split
  · exact Logged.like_pure (h.pushMany levels)
  · exact Logged.like_refuse (like_finding hn fun _ => rfl) h

theorem like_pop (h : G.Like L H) (hn : L.node n n') (levels : Nat) :
    (pop G n levels).Like L (Stack.Like L) (pop H n' levels) := by
  have hpop := h.pop? levels
  unfold pop
  generalize G.pop? levels = o, H.pop? levels = o' at hpop
  cases hpop with
  | none => exact Logged.like_refuse (like_finding hn fun _ => rfl) h
  | some hK => exact Logged.like_pure hK

theorem like_declarations (h : G.Like L H) (hs : L.spot s s') (c : Command) :
    (declarations s c G).Like L (Stack.Like L) (declarations s' c H) := by
  have hn := L.at_spot (.command c) hs
  cases c with
  | assert t =>
    exact (like_formula h hn _ _ (L.item 1 hs) t).bind_eq fun _ => Logged.like_pure h
  | checkSatAssuming ts =>
    exact (like_eachTerm (fun t hs => like_formula h hn _ _ hs t) (L.item 1 hs) ts).bind_eq
      fun _ => Logged.like_pure h
  | getValue ts =>
    exact (like_eachTerm (fun t hs => like_sorted h hn hs t) (L.item 1 hs) ts).bind_eq
      fun _ => Logged.like_pure h
  | declareConst name sort => exact like_declareFun h hn name [] sort
  | declareFun name args result => exact like_declareFun h hn name args result
  | declareSort name arity => exact like_declareSort hn h ⟨name, arity⟩
  | declareDatatype name dec => exact like_declareDatatypes h hn _ _
  | declareDatatypes sorts decs => exact like_declareDatatypes h hn sorts decs
  | defineConst name sort t => exact like_defineFun h hn false _ .nil (L.item 3 hs) t
  | defineFun dec t =>
    exact like_defineFun h hn false dec (L.along (L.item 2 hs) 0 dec.vars) (L.item 4 hs) t
  | defineFunRec dec t =>
    exact like_defineFun h hn true dec (L.along (L.item 2 hs) 0 dec.vars) (L.item 4 hs) t
  | defineFunsRec decs ts =>
    exact like_defineFunsRec h hn (L.along (L.item 1 hs) 0 decs) (L.along (L.item 2 hs) 0 ts)
  | defineSort name params sort => exact like_defineSort h hn name params sort
  | push levels => exact like_push h hn levels
  | pop levels => exact like_pop h hn levels
  | _ => exact Logged.like_pure h

end Check

/-! ### Contexts -/

structure Context.Like (L : Likeness) (c d : Context) : Prop where
  stack : c.stack.Like L d.stack
  logic : c.logic = d.logic
  theories : c.theories = d.theories
  coreLoaded : c.coreLoaded = d.coreLoaded
  loading : c.loading = d.loading
  serial : L.serial c.loads.length d.loads.length

namespace Context

open Check

variable {c d : Context} {setup : Setup}

theorem Like.onStack (h : c.Like L d) {f g : Stack → Logged Stack}
    (hfg : (f c.stack).Like L (Stack.Like L) (g d.stack)) :
    (c.onStack f).Like L (Context.Like L) (d.onStack g) :=
  hfg.bind fun _ _ hK =>
    Logged.like_pure ⟨hK, h.logic, h.theories, h.coreLoaded, h.loading, h.serial⟩

theorem Like.startLoad (h : c.Like L d) (what : Library) (name : String) :
    (c.startLoad what name).Like L (d.startLoad what name) :=
  ⟨h.stack, h.logic, h.theories, h.coreLoaded, congrArg (_ :: ·) h.loading, L.succ h.serial⟩

theorem Like.endLoad (h : c.Like L d) (what : Library) (name : String) :
    (c.endLoad what name).Like L (d.endLoad what name) :=
  ⟨h.stack, h.logic, h.theories, h.coreLoaded, congrArg (List.erase · _) h.loading, h.serial⟩

/-- A file is read in the same way, whatever its serial number. -/
theorem parseRoot_serial {i j : Nat} (hij : L.serial i j) (file : Option String) (text : String) :
    (∃ e e', parseRoot ⟨file, i⟩ text = .error e ∧ parseRoot ⟨file, j⟩ text = .error e') ∨
      ∃ source source' r, parseRoot ⟨file, i⟩ text = .ok ⟨source, r⟩ ∧
        parseRoot ⟨file, j⟩ text = .ok ⟨source', r⟩ ∧ L.spot (.top source) (.top source') := by
  unfold parseRoot Parsed.ofText Parsed.ofChars Root.ofSource
  cases Form.read text.toList with
  | error e => exact .inl ⟨_, _, rfl, rfl⟩
  | ok forms =>
    simp only
    cases Root.ofForms (Text.byteLength text.toList) forms with
    | error e => exact .inl ⟨_, _, rfl, rfl⟩
    | ok r => exact .inr ⟨_, _, r, rfl, rfl, L.fetched file _ forms hij⟩

section

variable {α : Type} {l : Loader α}

theorem fetch_serial {i j : Nat} (hij : L.serial i j) (l : Loader α) (setup : Setup)
    (name : String) :
    (∃ problem, l.fetch setup i name = .error problem ∧ l.fetch setup j name = .error problem) ∨
      ∃ source source' a, l.fetch setup i name = .ok ⟨source, a⟩ ∧
        l.fetch setup j name = .ok ⟨source', a⟩ ∧ L.spot (.top source) (.top source') := by
  simp only [Loader.fetch]
  generalize setup.files (setup.config.path l.what name) = content
  cases content with
  | text text =>
    rcases parseRoot_serial hij (some (setup.config.path l.what name)) text with
      ⟨e, e', hi, hj⟩ | ⟨source, source', r, hi, hj, hspot⟩
    · simp only [hi, hj]
      exact .inl ⟨_, rfl, rfl⟩
    · simp only [hi, hj]
      cases l.select? r with
      | none => exact .inl ⟨_, rfl, rfl⟩
      | some a => exact .inr ⟨source, source', a, rfl, rfl, hspot⟩
  | _ => exact .inl ⟨_, rfl, rfl⟩

/-- A library is loaded in the same way if it is checked and entered in the same way. -/
theorem Like.load (h : c.Like L d) (hn : L.node n n') (name : String)
    (hcheck : ∀ {s s'} a, L.spot s s' → L.Findings (l.syntaxCheck s a) (l.syntaxCheck s' a))
    (henter : ∀ {c d : Context}, c.Like L d → ∀ {s s'} a, L.spot s s' →
      (l.enter c s a).Like L (Context.Like L) (l.enter d s' a)) :
    (l.load setup n name c).Like L (Context.Like L) (l.load setup n' name d) := by
  have hfinding (problem : Problem) : (n.finding problem).Like L (n'.finding problem) :=
    like_finding hn fun _ => rfl
  unfold Loader.load
  rw [h.loading]
  split
  · exact Logged.like_refuse (hfinding _) h
  · rcases fetch_serial (L.succ h.serial) l setup name with
      ⟨problem, hc, hd⟩ | ⟨source, source', a, hc, hd, hspot⟩
    · rw [nextSerial, nextSerial, hc, hd]
      exact Logged.like_refuse (hfinding problem) h
    · rw [nextSerial, nextSerial, hc, hd]
      have hitem : L.spot (Parsed.spot ⟨source, a⟩) (Parsed.spot ⟨source', a⟩) := L.item 0 hspot
      have hfindings := hcheck a hitem
      have hstart := h.startLoad l.what name
      refine Logged.Like.bind (R := Context.Like L) ?_ fun _ _ h =>
        Logged.like_pure (h.endLoad l.what name)
      unfold Loader.checked
      generalize l.syntaxCheck (Parsed.spot ⟨source, a⟩) a = fs,
        l.syntaxCheck (Parsed.spot ⟨source', a⟩) a = gs at hfindings
      cases hfindings with
      | nil => exact henter hstart a hitem
      | cons hf hfs =>
        exact (Logged.like_reportAll (.cons hf hfs)).bind_eq fun _ =>
          Logged.like_refuse (hfinding _) hstart

end

theorem Like.loadTheory (h : c.Like L d) (hn : L.node n n') (name : String) :
    (loadTheory setup n name c).Like L (Context.Like L) (loadTheory setup n' name d) :=
  h.load (l := theoryLoader) hn name (fun t hs => SyntaxCheck.like_theory hs t)
    fun h s s' t hs =>
      h.onStack (f := (theory · s t)) (g := (theory · s' t)) (like_theory h.stack hs t)

theorem Like.loadCore (h : c.Like L d) (hn : L.node n n') :
    (loadCore setup n c).Like L (Context.Like L) (loadCore setup n' d) := by
  unfold Check.loadCore
  rw [h.coreLoaded]
  split
  · have hset : Context.Like L { c with coreLoaded := true } { d with coreLoaded := true } :=
      ⟨h.stack, h.logic, h.theories, rfl, h.loading, h.serial⟩
    exact hset.loadTheory hn _
  · exact Logged.like_pure h

theorem Like.namedTheory (h : c.Like L d) (hn : L.node n n') (name : String) :
    (namedTheory setup n c name).Like L (Context.Like L) (namedTheory setup n' d name) := by
  have hnamed : Context.Like L { c with theories := c.theories ++ [quoteSymbol name] }
      { d with theories := d.theories ++ [quoteSymbol name] } :=
    ⟨h.stack, h.logic, congrArg (· ++ _) h.theories, h.coreLoaded, h.loading, h.serial⟩
  unfold Check.namedTheory
  simp only [h.theories, h.coreLoaded] at hnamed ⊢
  split
  · exact Logged.like_refuse (like_finding hn fun _ => rfl) h
  · split
    · exact Logged.like_pure hnamed
    · exact hnamed.loadTheory hn _

theorem Like.logicAttribute (h : c.Like L d) {x y : Spot × LogicAttribute} (hxy : L.Item x y) :
    (logicAttribute setup c x).Like L (Context.Like L) (logicAttribute setup d y) := by
  obtain ⟨s, a⟩ := x
  obtain ⟨s', _⟩ := y
  obtain ⟨hs, rfl⟩ := hxy
  cases a with
  | theories names =>
    exact Logged.like_foldlM_same (fun _ _ h name => h.namedTheory (L.at_spot _ hs) name) names h
  | other a => exact Logged.like_pure h

theorem Like.logic_check (h : c.Like L d) (hs : L.spot s s') (l : Logic) :
    (Check.logic setup c s l).Like L (Context.Like L) (Check.logic setup d s' l) :=
  Logged.like_foldlM (f := Check.logicAttribute setup) (g := Check.logicAttribute setup)
    (fun _ _ h _ _ hxy => h.logicAttribute hxy) (L.spread hs _ 2 l.attributes) h

theorem Like.setLogic (h : c.Like L d) (hn : L.node n n') (name : String) :
    (setLogic setup n name c).Like L (Context.Like L) (setLogic setup n' name d) := by
  unfold Check.setLogic
  rw [h.logic]
  split
  · exact Logged.like_refuse (like_finding hn fun _ => rfl) h
  · have hset : Context.Like L { c with logic := some (quoteSymbol name) }
        { d with logic := some (quoteSymbol name) } :=
      ⟨h.stack, rfl, h.theories, h.coreLoaded, h.loading, h.serial⟩
    exact hset.load (l := logicLoader setup) hn _ (fun l hs => SyntaxCheck.like_logic hs l)
      fun h _ _ l hs => h.logic_check hs l

theorem Like.reset (h : c.Like L d) : c.reset.Like L d.reset :=
  ⟨⟨Scope.like_empty, .nil, .inr .nil⟩, rfl, rfl, rfl, h.loading, h.serial⟩

theorem Like.command (h : c.Like L d) (hs : L.spot s s') (cmd : Command) :
    (command setup c s cmd).Like L (Context.Like L) (command setup d s' cmd) := by
  cases cmd with
  | reset => exact h.reset.loadCore (L.at_spot _ hs)
  | setLogic name => exact h.setLogic (L.at_spot _ hs) name
  | _ => exact h.onStack (like_declarations h.stack hs _)

theorem Like.commands (h : c.Like L d) {cs ds : List (Spot × Command)}
    (hcs : List.Forall₂ L.Item cs ds) :
    (commands setup c cs).Like L (Context.Like L) (commands setup d ds) := by
  refine Logged.like_foldlM ?_ hcs h
  rintro c d h ⟨s, cmd⟩ ⟨s', _⟩ ⟨hs, rfl⟩
  exact h.command hs cmd

/-- One tree of two sources is checked in the same way. -/
theorem Like.root (h : c.Like L d) {source source' : Source}
    (hs : L.spot (.top source) (.top source')) (r : Root) :
    (root setup c ⟨source, r⟩).Like L (Context.Like L) (root setup d ⟨source', r⟩) := by
  have hn : L.node (r.node source) (r.node source') := by
    cases r with
    | script cs => exact L.at_spot _ hs
    | theory t => exact L.at_spot _ (L.item 0 hs)
    | logic l => exact L.at_spot _ (L.item 0 hs)
  have hstart : (if isCore r then pure c else Check.loadCore setup (r.node source) c).Like L
      (Context.Like L) (if isCore r then pure d else Check.loadCore setup (r.node source') d) := by
    split
    · exact Logged.like_pure h
    · exact h.loadCore hn
  rw [root_eq, root_eq]
  refine hstart.bind fun c d h => ?_
  cases r with
  | script cs => exact h.commands (L.along hs 0 cs)
  | theory t =>
    exact h.onStack (f := (theory · (Parsed.spot ⟨source, t⟩) t))
      (g := (theory · (Parsed.spot ⟨source', t⟩) t)) (like_theory h.stack (L.item 0 hs) t)
  | logic l => exact h.logic_check (L.item 0 hs) l

/-- A script is checked as its commands are run at any spots. -/
theorem Like.root_script {ordered : Prop} (h : c.Like (.anywhere ordered) d) (setup : Setup)
    (n : Node) (source : Source) {xs : List (Spot × Command)} {cs : List Command}
    (hxs : xs.map (·.2) = cs) :
    (Check.loadCore setup n c >>= fun c => Check.commands setup c xs).Like (.anywhere ordered)
      (Context.Like (.anywhere ordered)) (Check.root setup d ⟨source, .script cs⟩) := by
  rw [root_eq]
  refine (h.loadCore trivial).bind fun _ _ h => h.commands (Likeness.items_anywhere ?_)
  rw [hxs, Spot.map_snd_along]

end Context

end WellSorted
