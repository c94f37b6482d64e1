import WellSorted.Proofs.Judgement

/-!
# Binding variables

Variables go into a scope of their own: sorts and functions stay as they are, and of two variables
of a name the first one is seen. `Under G Γ H`: the stack `H` is `G` with the local variables `Γ`
around. Whatever only looks at sorts and functions does not tell the two apart.
-/

namespace WellSorted

theorem Spot.map_snd_spread {α : Type} (s : Spot) (width : α → Nat) (i : Nat) (as : List α) :
    (s.spread width i as).map Prod.snd = as := by
  induction as generalizing i with
  | nil => rfl
  | cons a as ih => rw [spread, List.map_cons, ih]

theorem Spot.map_snd_along {α : Type} (s : Spot) (i : Nat) (as : List α) :
    (s.along i as).map Prod.snd = as :=
  s.map_snd_spread _ i as

theorem Spot.map_along {α β : Type} (s : Spot) (i : Nat) (as : List α) (f : α → β) :
    (s.along i as).map (fun x => f x.2) = as.map f := by
  rw [← Function.comp_def f Prod.snd, ← List.map_map, s.map_snd_along]

namespace Stack

theorem var?_eq (G : Stack) (name : String) :
    G.var? name = (G.top.var? name).or (G.outer.findSome? (·.var? name)) := by
  rw [var?, scopes, List.findSome?_cons]
  cases G.top.var? name <;> rfl

theorem sort?_eq (G : Stack) (name : String) :
    G.sort? name = (G.top.sort? name).or (G.outer.findSome? (·.sort? name)) := by
  rw [sort?, scopes, List.findSome?_cons]
  cases G.top.sort? name <;> rfl

/-- What is left of a stack when variables are entered. -/
structure WithVars (G : Stack) (vars : List VarDecl) (H : Stack) : Prop where
  outer : H.outer = G.outer
  sorts : H.top.sorts = G.top.sorts
  funs : H.top.funs = G.top.funs
  var? : ∀ name, H.top.var? name = (G.top.var? name).or (vars.find? (·.name == name))

theorem enter_of_conflict {G : Stack} {d previous : Declaration}
    (h : G.conflict? d = some previous) :
    (G.enter d).value = G := by
  rw [enter, insert, h]
  rfl

theorem enter_of_no_conflict {G : Stack} {d : Declaration} (h : G.conflict? d = none) :
    (G.enter d).value = { G with top := G.top.put d } := by
  rw [enter, insert, h]
  rfl

@[simp] theorem findings_enter (G : Stack) (d : Declaration) : (G.enter d).findings = [] := by
  unfold enter
  split <;> rfl

@[simp] theorem findings_enterAll (G : Stack) (ds : List Declaration) :
    (G.enterAll ds).findings = [] := by
  induction ds generalizing G with
  | nil => rfl
  | cons d ds ih => simp [enterAll, ih]

theorem withVars_enter (G : Stack) (v : VarDecl) : WithVars G [v] (G.enter (.var v)).value := by
  cases hv : G.top.var? v.name with
  | some w =>
    rw [enter_of_conflict (by rw [conflict?, hv]; rfl)]
    refine ⟨rfl, rfl, rfl, fun name => ?_⟩
    by_cases hname : v.name = name
    · rw [← hname, hv]
      rfl
    · rw [List.find?_singleton, if_neg (by simpa using hname), Option.or_none]
  | none =>
    rw [enter_of_no_conflict (by rw [conflict?, hv]; rfl)]
    exact ⟨rfl, rfl, rfl, fun name => List.find?_append⟩

theorem WithVars.trans {G H K : Stack} {vs ws : List VarDecl} (h : WithVars G vs H)
    (h' : WithVars H ws K) : WithVars G (vs ++ ws) K where
  outer := h'.outer.trans h.outer
  sorts := h'.sorts.trans h.sorts
  funs := h'.funs.trans h.funs
  var? name := by rw [h'.var?, h.var?, List.find?_append, Option.or_assoc]

theorem withVars_enterAll (G : Stack) (vars : List VarDecl) :
    WithVars G vars (G.enterAll (vars.map .var)).value := by
  induction vars generalizing G with
  | nil => exact ⟨rfl, rfl, rfl, fun name => (Option.or_none).symm⟩
  | cons v vars ih => exact (withVars_enter G v).trans (ih _)

/-! ### Local variables -/

structure Under (G : Stack) (Γ : Locals) (H : Stack) : Prop where
  sort? : ∀ name, H.sort? name = G.sort? name
  overloads : ∀ name, H.overloads name = G.overloads name
  varSort? : ∀ name, (H.var? name).map (·.sort) = G.varSort? Γ name

theorem under_nil (G : Stack) : G.Under [] G :=
  ⟨fun _ => rfl, fun _ => rfl, fun _ => rfl⟩

theorem WithVars.sort? {G H : Stack} {vars : List VarDecl} (h : WithVars G vars H) (name : String) :
    H.sort? name = G.sort? name := by
  rw [sort?_eq, sort?_eq, h.outer, Scope.sort?, Scope.sort?, h.sorts]

theorem WithVars.overloads {G H : Stack} {vars : List VarDecl} (h : WithVars G vars H)
    (name : String) : H.overloads name = G.overloads name := by
  simp only [Stack.overloads, allOverloads, scopes, h.outer, List.reverse_cons, List.flatMap_append,
    List.flatMap_singleton, Scope.overloads, h.funs]

theorem overloads_push (G : Stack) (name : String) : G.push.overloads name = G.overloads name := by
  simp [overloads, allOverloads, Scope.overloads, Scope.empty]

theorem lookup_locals (vars : List VarDecl) (name : String) :
    (vars.map fun v => (v.name, v.sort)).lookup name =
      (vars.find? (·.name == name)).map (·.sort) := by
  induction vars with
  | nil => rfl
  | cons v vars ih =>
    rw [List.map_cons, List.lookup_cons, List.find?_cons, ih, BEq.comm (a := name)]
    cases v.name == name <;> rfl

theorem Under.bind {G H : Stack} {Γ : Locals} (h : G.Under Γ H) (vars : List VarDecl) :
    G.Under (vars.map (fun v => (v.name, v.sort)) ++ Γ) (H.bind vars).value := by
  have hvars := withVars_enterAll H.push vars
  refine ⟨fun name => ?_, fun name => ?_, fun name => ?_⟩
  · exact (hvars.sort? name).trans (h.sort? name)
  · exact (hvars.overloads name).trans ((overloads_push H name).trans (h.overloads name))
  · have hpush : H.push.outer.findSome? (·.var? name) = H.var? name := rfl
    have htop : H.push.top.var? name = none := rfl
    rw [Stack.bind, var?_eq, hvars.outer, hvars.var?, hpush, htop, Option.none_or, Stack.varSort?,
      List.lookup_append, lookup_locals, Option.map_or, h.varSort?, Stack.varSort?,
      Option.or_assoc]

@[simp] theorem findings_bind (G : Stack) (vars : List VarDecl) : (G.bind vars).findings = [] :=
  findings_enterAll _ _

mutual

theorem resolve_congr {G H : Stack} (h : ∀ name, H.sort? name = G.sort? name) (ps : List String) :
    ∀ s : SmtSort, H.resolve ps s = G.resolve ps s
  | .mk head args => by
    rw [resolve, resolve, resolveAll_congr h ps args, applySort, applySort, h]

theorem resolveAll_congr {G H : Stack} (h : ∀ name, H.sort? name = G.sort? name)
    (ps : List String) : ∀ ss : List SmtSort, H.resolveAll ps ss = G.resolveAll ps ss
  | [] => rfl
  | s :: ss => by rw [resolveAll, resolveAll, resolve_congr h ps s, resolveAll_congr h ps ss]

end

theorem Known.congr {G H : Stack} (h : ∀ name, H.sort? name = G.sort? name) {s : SmtSort}
    (hs : H.Known s) : G.Known s := by
  induction hs with
  | mk hd harity _ ih => exact .mk ((h _).symm.trans hd) harity ih

theorem checkHead_eq_nil {G : Stack} {n : Node} {name : String} {count : Nat} :
    G.checkHead n name count = [] ↔ ∃ d, G.sort? name = some d ∧ d.arity = count := by
  unfold checkHead
  cases G.sort? name with
  | none => simp
  | some d => simp

mutual

theorem checkSort_eq_nil {G : Stack} {n : Node} : ∀ {s : SmtSort},
    G.checkSort [] n s = [] ↔ G.Known s
  | .mk head args => by
    rw [checkSort, if_neg (by simp), List.append_eq_nil_iff, checkHead_eq_nil, checkSorts_eq_nil]
    constructor
    · rintro ⟨⟨d, hd, harity⟩, hargs⟩
      exact .mk hd harity hargs
    · rintro (⟨hd, harity, hargs⟩)
      exact ⟨⟨_, hd, harity⟩, hargs⟩

theorem checkSorts_eq_nil {G : Stack} {n : Node} : ∀ {ss : List SmtSort},
    G.checkSorts [] n ss = [] ↔ ∀ s ∈ ss, G.Known s
  | [] => by simp [checkSorts]
  | s :: ss => by
    rw [checkSorts, List.append_eq_nil_iff, checkSort_eq_nil, checkSorts_eq_nil,
      List.forall_mem_cons]

end

theorem Under.known {G H : Stack} {Γ : Locals} (h : G.Under Γ H) {s : SmtSort} :
    H.Known s ↔ G.Known s :=
  ⟨Known.congr h.sort?, Known.congr fun name => (h.sort? name).symm⟩

theorem Under.resolve {G H : Stack} {Γ : Locals} (h : G.Under Γ H) (s : SmtSort) :
    H.resolve [] s = G.resolve [] s :=
  resolve_congr h.sort? [] s

end Stack

end WellSorted
