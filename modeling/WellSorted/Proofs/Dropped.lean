import WellSorted.Proofs.Environment
import WellSorted.Proofs.Scopes

/-!
# Dropped declarations

A declaration that conflicts with an earlier one is reported, or it is dropped without a message
(`Logged.dropped`). Sorting a term that passed the syntax check drops nothing, since its binders are
distinct, and neither do theories, datatypes and declarations. Definitions can: the syntax check
does not compare the variables of a function, and functions that are defined together are only
compared with earlier ones. So a script that passes both checks drops nothing if and only if each of
its definitions is distinct (`Command.Distinct`).
-/

namespace WellSorted

open Stack

/-- Whether two declarations can be entered one after the other. -/
def Declaration.Distinct : Declaration → Declaration → Prop
  | .sort d, .sort e => DistinctSorts d e
  | .function f, .function g => DistinctFuns g f
  | .var v, .var w => v.name ≠ w.name
  | _, _ => True

namespace Stack

variable {G K : Stack}

theorem conflict?_function_eq_none {f : FunDecl} :
    G.conflict? (.function f) = none ↔ ∀ g ∈ G.allFuns, DistinctFuns f g := by
  refine ⟨distinctFuns_of_no_conflict, fun h => ?_⟩
  refine Option.map_eq_none_iff.mpr (List.find?_eq_none.mpr fun g hg => ?_)
  obtain ⟨hhas, hname⟩ := mem_allOverloads.mp hg
  rw [h g (mem_allFuns.mpr hhas) hname.symm]
  exact Bool.false_ne_true

theorem conflict?_push_var {v : VarDecl} : G.push.conflict? (.var v) = none := rfl

theorem conflict?_push_function {f : FunDecl} :
    G.push.conflict? (.function f) = G.conflict? (.function f) := by
  simp [conflict?, allOverloads, Scope.overloads, Scope.empty]

/-- What conflicts after a declaration has been entered conflicted before or conflicts with it. -/
theorem conflict?_of_insert {d e : Declaration} (h : G.insert d = .ok K) :
    K.conflict? e = none ↔ G.conflict? e = none ∧ d.Distinct e := by
  have hfuns (f : FunDecl) : f ∈ K.allFuns ↔ f ∈ G.allFuns ∨ .function f = d := by
    rw [mem_allFuns, mem_allFuns, has_of_insert h]
  obtain ⟨-, rfl⟩ := insert_eq_ok.mp h
  cases e with
  | function g =>
    rw [conflict?_function_eq_none, conflict?_function_eq_none]
    cases d with
    | function f => simp [hfuns, Declaration.Distinct, or_imp, forall_and]
    | sort d => simp [hfuns, Declaration.Distinct]
    | var v => simp [hfuns, Declaration.Distinct]
  | sort e =>
    rw [conflict?_sort_eq_none, conflict?_sort_eq_none, sort?_eq, sort?_eq]
    cases d with
    | sort d =>
      simp [Scope.put, Scope.sort?, Declaration.Distinct, DistinctSorts, and_right_comm]
    | function f => simp [Scope.put, Scope.sort?, Declaration.Distinct]
    | var v => simp [Scope.put, Scope.sort?, Declaration.Distinct]
  | var w =>
    cases d with
    | var v => simp [conflict?, Scope.put, Scope.var?, Declaration.Distinct]
    | function f => simp [conflict?, Scope.put, Scope.var?, Declaration.Distinct]
    | sort d => simp [conflict?, Scope.put, Scope.var?, Declaration.Distinct]

theorem dropped_enter_eq_nil {d : Declaration} :
    (G.enter d).dropped = [] ↔ G.conflict? d = none := by
  unfold enter insert
  cases G.conflict? d with
  | some previous => exact iff_of_false (List.cons_ne_nil _ _) nofun
  | none => simp

/-- Declarations are all entered if they conflict neither with the stack nor with each other. -/
theorem dropped_enterAll_eq_nil {ds : List Declaration} : (G.enterAll ds).dropped = [] ↔
    (∀ d ∈ ds, G.conflict? d = none) ∧ ds.Pairwise Declaration.Distinct := by
  induction ds generalizing G with
  | nil => simp [enterAll]
  | cons d ds ih =>
    rw [enterAll, Logged.dropped_bind, List.append_eq_nil_iff, dropped_enter_eq_nil,
      List.forall_mem_cons, List.pairwise_cons, and_assoc]
    refine and_congr_right fun hnone => ?_
    have hinsert : G.insert d = .ok (G.enter d).value :=
      insert_eq_ok.mpr ⟨hnone, enter_of_no_conflict hnone⟩
    simp only [ih, conflict?_of_insert hinsert, imp_and, forall_and, and_assoc]

/-- The variables of a binder are all entered if their names are distinct. -/
theorem dropped_bind_eq_nil {vars : List VarDecl} :
    (G.bind vars).dropped = [] ↔ (vars.map (·.name)).Nodup := by
  have hnone : ∀ d ∈ vars.map Declaration.var, G.push.conflict? d = none :=
    List.forall_mem_map.mpr fun _ _ => conflict?_push_var
  rw [Stack.bind, dropped_enterAll_eq_nil, and_iff_right hnone, List.Nodup, List.pairwise_map,
    List.pairwise_map]
  rfl

end Stack

@[simp] theorem Logged.dropped_reportAll (fs : List Finding) :
    (Logged.reportAll fs).dropped = [] :=
  rfl

theorem Logged.dropped_foldlM {σ α : Type} {f : σ → α → Logged σ} {l : List α}
    (h : ∀ a ∈ l, ∀ s, (f s a).dropped = []) (s : σ) : (l.foldlM f s).dropped = [] := by
  induction l generalizing s with
  | nil => rfl
  | cons a l ih =>
    rw [List.foldlM_cons, Logged.dropped_bind, h a List.mem_cons_self s,
      ih (fun b hb => h b (List.mem_cons_of_mem _ hb)), List.append_nil]

/-! ### Distinct names -/

/-- Symbols are quoted one to one. -/
theorem quoteSymbol_injective : Function.Injective quoteSymbol := by
  intro x y h
  have hbars (x y : String) (hx : isSimpleSymbol x = true) : x ≠ "|" ++ y ++ "|" := by
    rintro rfl
    simp [isSimpleSymbol, isSymbolChar, symbolMarks] at hx
  unfold quoteSymbol at h
  split at h <;> split at h
  · exact h
  · next hx _ => exact absurd h (hbars x y (Bool.and_eq_true_iff.mp hx).1)
  · next _ hy => exact absurd h.symm (hbars y x (Bool.and_eq_true_iff.mp hy).1)
  · simpa [String.append_assoc, ← String.toList_inj] using h

namespace SyntaxCheck

theorem repeatedFrom_eq_nil {seen names : List String} :
    repeatedFrom seen [] names = [] ↔ names.Nodup ∧ ∀ x ∈ names, x ∉ seen := by
  induction names generalizing seen with
  | nil => simp [repeatedFrom]
  | cons x names ih =>
    rw [repeatedFrom]
    split
    · next hseen => simp [hseen.1]
    · next hseen =>
      have hx : x ∉ seen := fun hmem => hseen ⟨hmem, List.not_mem_nil⟩
      rw [ih, List.nodup_cons, List.forall_mem_cons]
      simp only [List.mem_cons, not_or, forall_and]
      constructor
      · rintro ⟨hnodup, hne, hnot⟩
        exact ⟨⟨fun hmem => hne x hmem rfl, hnodup⟩, hx, hnot⟩
      · rintro ⟨⟨hx', hnodup⟩, -, hnot⟩
        exact ⟨hnodup, fun y hy => fun e => hx' (e ▸ hy), hnot⟩

theorem distinctBinders_eq_nil {n : Node} {names : List String} :
    distinctBinders n names = [] ↔ names.Nodup := by
  rw [distinctBinders, List.map_eq_nil_iff, repeated, repeatedFrom_eq_nil]
  simp

theorem termsFrom_eq_nil {s : Spot} {i : Nat} {ts : List Term} :
    termsFrom s i ts = [] ↔ ∀ t ∈ s.along i ts, term t.1 t.2 = [] := by
  induction ts generalizing i with
  | nil => simp [termsFrom, Spot.along, Spot.spread]
  | cons t ts ih =>
    rw [termsFrom, List.append_eq_nil_iff, ih, Spot.along_cons, List.forall_mem_cons]

end SyntaxCheck

section

variable {α : Type} {items : List (Spot × α)} {sorts : List SmtSort} {f : α → String}
  {var : (Spot × α) × SmtSort → VarDecl}

theorem names_of_bound (hvar : ∀ x, (var x).name = quoteSymbol (f x.1.2)) :
    ((items.zip sorts).map var).map (·.name) =
      ((items.zip sorts).map Prod.fst).map fun x => quoteSymbol (f x.2) := by
  rw [List.map_map, List.map_map]
  exact List.map_congr_left fun x _ => hvar x

theorem nodup_quoted : (items.map fun x => quoteSymbol (f x.2)).Nodup ↔
    (items.map fun x => f x.2).Nodup := by
  rw [← List.nodup_map_iff (l := items.map fun x => f x.2) quoteSymbol_injective, List.map_map]
  rfl

/-- Variables for distinct names are distinct, also if there are sorts for some of them only. -/
theorem nodup_bound (hvar : ∀ x, (var x).name = quoteSymbol (f x.1.2))
    (h : (items.map fun x => f x.2).Nodup) :
    (((items.zip sorts).map var).map (·.name)).Nodup := by
  rw [names_of_bound hvar]
  refine (nodup_quoted.mpr h).sublist (List.Sublist.map _ ?_)
  generalize items = l at *
  induction l generalizing sorts with
  | nil => exact .slnil
  | cons x l ih =>
    cases sorts with
    | nil => exact List.nil_sublist _
    | cons sort sorts => exact (ih (List.nodup_cons.mp h).2).cons_cons x

theorem nodup_bound_iff (hvar : ∀ x, (var x).name = quoteSymbol (f x.1.2))
    (hlength : items.length ≤ sorts.length) :
    (((items.zip sorts).map var).map (·.name)).Nodup ↔ (items.map fun x => f x.2).Nodup := by
  rw [names_of_bound hvar, List.map_fst_zip hlength, nodup_quoted]

end

/-! ### Terms -/

namespace Sorting

variable {G : Stack} {n : Node}

@[simp] theorem dropped_unique {missing : Problem} {several : List SmtSort → Problem}
    {sorts : List SmtSort} : (unique n missing several sorts).dropped = [] := by
  unfold unique
  split <;> rfl

@[simp] theorem dropped_literal {c : Constant} : (literal G n c).dropped = [] := dropped_unique

@[simp] theorem dropped_qualIdentifier {q : QualIdentifier} :
    (qualIdentifier G n q).dropped = [] := by
  unfold qualIdentifier
  split
  · unfold identifier
    split
    · rfl
    · exact dropped_unique
  · unfold ascribedConstant
    simp only [Logged.dropped_bind]
    split <;> rfl

@[simp] theorem dropped_application {q : QualIdentifier} {args : List SmtSort} :
    (application G n q args).dropped = [] := by
  unfold application
  split
  · exact dropped_unique
  · simp only [Logged.dropped_bind]
    split <;> rfl

@[simp] theorem dropped_commonSort {sorts : List SmtSort} : (commonSort n sorts).dropped = [] := by
  unfold commonSort
  split
  · rfl
  · split <;> rfl

theorem dropped_caseScope {s : Spot} {scrutinee : SmtSort} {p : Pattern} {isLast : Bool}
    (h : p.arguments.Nodup) : (caseScope G n scrutinee s p isLast).dropped = [] := by
  unfold caseScope
  simp only
  split
  · rfl
  · split
    · next fields _ =>
      refine (List.append_nil _).trans (dropped_bind_eq_nil.mpr ?_)
      refine nodup_bound (f := id) (fun _ => rfl) ?_
      rwa [Pattern.argumentSpots, Spot.map_along, List.map_id]
    · split
      · exact (List.append_nil _).trans (dropped_bind_eq_nil.mpr (List.nodup_singleton _))
      · rfl
    · rfl

end Sorting

theorem SyntaxCheck.nodup_of_pattern {n : Node} {s : Spot} {p : Pattern}
    (h : SyntaxCheck.pattern n s p = []) : p.arguments.Nodup := by
  cases p with
  | applied ctor sort arguments =>
    simp only [SyntaxCheck.pattern, List.append_eq_nil_iff] at h
    exact distinctBinders_eq_nil.mp h.2.1.2
  | _ => exact List.nodup_nil

section

open Sorting

mutual

/-- Sorting a term that passed the syntax check drops nothing. -/
theorem dropped_infer (G : Stack) (s : Spot) :
    ∀ t : Term, SyntaxCheck.term s t = [] → (infer G s t).dropped = []
  | .constant c, _ => dropped_literal
  | .ident q, _ => dropped_qualIdentifier
  | .app q args, h => by
    simp only [SyntaxCheck.term, List.append_eq_nil_iff] at h
    rw [infer, Logged.dropped_bind, dropped_inferAll G s 1 args h.2, List.nil_append]
    split
    · rfl
    · exact dropped_application
  | .letIn bindings body, h => by
    simp only [SyntaxCheck.term, List.append_eq_nil_iff, SyntaxCheck.distinctBinders_eq_nil] at h
    obtain ⟨⟨⟨-, hdistinct⟩, hbindings⟩, hbody⟩ := h
    rw [infer, Logged.dropped_bind, dropped_inferBindings G _ 0 bindings hbindings, List.nil_append]
    split
    · rfl
    · next sorts _ =>
      have hvars : ((letVars s bindings sorts).map (·.name)).Nodup := by
        refine nodup_bound (f := Prod.fst) (fun _ => rfl) ?_
        rwa [Spot.map_along]
      rw [Logged.dropped_bind, dropped_bind_eq_nil.mpr hvars, List.nil_append]
      exact dropped_infer _ _ body hbody
  | .quantified q vars body, h => by
    simp only [SyntaxCheck.term, List.append_eq_nil_iff, SyntaxCheck.distinctBinders_eq_nil] at h
    obtain ⟨⟨⟨-, hdistinct⟩, -⟩, hbody⟩ := h
    have hvars : ((quantifierVars G s vars).map (·.name)).Nodup := by
      rw [quantifierVars, List.map_map]
      refine nodup_quoted (f := SortedVar.name) |>.mpr ?_
      rwa [Spot.map_along]
    rw [infer]
    simp only [Logged.dropped_bind, dropped_bind_eq_nil.mpr hvars,
      dropped_infer _ _ body hbody, List.nil_append]
    refine (List.nil_append _).trans ?_
    split
    · rfl
    · split <;> rfl
  | .matching scrutinee arms, h => by
    simp only [SyntaxCheck.term, List.append_eq_nil_iff] at h
    obtain ⟨⟨-, hscrutinee⟩, harms⟩ := h
    rw [infer]
    simp only [Logged.dropped_bind, dropped_infer G _ scrutinee hscrutinee, List.nil_append]
    split
    · rfl
    · next sort _ =>
      rw [Logged.dropped_bind, dropped_inferArms G _ sort _ 0 arms harms, List.nil_append]
      split
      · rfl
      · exact dropped_commonSort
  | .annotated t attributes, h => by
    simp only [SyntaxCheck.term, List.append_eq_nil_iff] at h
    exact dropped_infer G _ t h.1.2

theorem dropped_inferAll (G : Stack) (s : Spot) (i : Nat) :
    ∀ ts : List Term, SyntaxCheck.termsFrom s i ts = [] → (inferAll G s i ts).dropped = []
  | [], _ => rfl
  | t :: ts, h => by
    simp only [SyntaxCheck.termsFrom, List.append_eq_nil_iff] at h
    simp only [inferAll, Logged.dropped_bind, dropped_infer G _ t h.1,
      dropped_inferAll G s (i + 1) ts h.2, Logged.dropped_pure, List.append_nil]

theorem dropped_inferBindings (G : Stack) (s : Spot) (i : Nat) :
    ∀ bs : List (String × Term), SyntaxCheck.bindingsFrom s i bs = [] →
      (inferBindings G s i bs).dropped = []
  | [], _ => rfl
  | (x, t) :: bs, h => by
    simp only [SyntaxCheck.bindingsFrom, List.append_eq_nil_iff] at h
    simp only [inferBindings, Logged.dropped_bind, dropped_infer G _ t h.1.2,
      dropped_inferBindings G s (i + 1) bs h.2, Logged.dropped_pure, List.append_nil]

theorem dropped_inferArms (G : Stack) (n : Node) (scrutinee : SmtSort) (s : Spot) (i : Nat) :
    ∀ arms : List (Pattern × Term), SyntaxCheck.armsFrom n s i arms = [] →
      (inferArms G n scrutinee s i arms).dropped = []
  | [], _ => rfl
  | (p, t) :: arms, h => by
    simp only [SyntaxCheck.armsFrom, List.append_eq_nil_iff] at h
    obtain ⟨⟨hpattern, hbody⟩, harms⟩ := h
    have hscope : ∀ isLast,
        (caseScope G n scrutinee ((s.item i).item 0) p isLast).dropped = [] :=
      fun _ => dropped_caseScope (SyntaxCheck.nodup_of_pattern hpattern)
    rw [inferArms_cons]
    simp only [Logged.dropped_bind, inferArm, hscope, Logged.dropped_pure,
      dropped_inferArms G n scrutinee s (i + 1) arms harms, List.nil_append, List.append_nil]
    split
    · exact dropped_infer _ _ t hbody
    · rfl

end

end

/-! ### Definitions -/

namespace FunctionDec

def DistinctVars (d : FunctionDec) : Prop := (d.vars.map (·.name)).Nodup

instance (d : FunctionDec) : Decidable d.DistinctVars := inferInstanceAs (Decidable (List.Nodup _))

/-- The name of a function together with the sorts of its signature. -/
def key (G : Stack) (d : FunctionDec) : String × List SmtSort × SmtSort :=
  (d.name, G.resolveAll [] (d.vars.map (·.sort)), G.resolve [] d.result)

end FunctionDec

namespace Check

variable {G : Stack} {n : Node}

theorem existing_eq_nil {f : FunDecl} : existing G f = [] ↔ G.conflict? (.function f) = none := by
  unfold existing
  cases G.conflict? (.function f) <;> simp

theorem dropped_body_eq_nil {f : FunDecl} {vars : List (Spot × SortedVar)} {s : Spot} {t : Term}
    (hlength : vars.length ≤ f.args.length) (ht : SyntaxCheck.term s t = []) :
    (body G f vars s t).dropped = [] ↔ (vars.map fun v => v.2.name).Nodup := by
  have hvars : ((functionVars f vars).map (·.name)).Nodup ↔ (vars.map fun v => v.2.name).Nodup :=
    nodup_bound_iff (f := SortedVar.name) (fun _ => rfl) hlength
  rw [← hvars, ← dropped_bind_eq_nil (G := G)]
  simp only [body, Logged.dropped_bind, dropped_infer _ _ t ht, List.nil_append,
    List.append_eq_nil_iff, and_iff_left_iff_imp]
  intro _
  split
  · rfl
  · split <;> rfl

/-- What is announced for a definition, if nothing is found. -/
structure Announces (G : Stack) (dec : FunctionDec) (f : FunDecl) : Prop where
  new : G.conflict? (.function f) = none
  params : f.params = []
  name : f.name = quoteSymbol dec.name
  args : f.args = G.resolveAll [] (dec.vars.map (·.sort))
  result : f.result = G.resolve [] dec.result

theorem Announces.length {dec : FunctionDec} {f : FunDecl} (h : Announces G dec f) :
    dec.vars.length = f.args.length := by
  rw [h.args, resolveAll_eq_map, List.length_map, List.length_map]

@[simp] theorem dropped_announce {dec : FunctionDec} {t : Option Term} :
    (announce G n dec t).dropped = [] :=
  rfl

@[simp] theorem dropped_announceAll {decs : List FunctionDec} {ts : List Term} :
    (announceAll G n decs ts).dropped = [] := by
  induction decs generalizing ts with
  | nil => rfl
  | cons dec decs ih => simp only [announceAll, Logged.dropped_bind, dropped_announce, ih]; rfl

theorem announces_announce {dec : FunctionDec} {t : Option Term}
    (h : (announce G n dec t).findings = []) : Announces G dec (announce G n dec t).value := by
  simp only [announce, Logged.findings_bind, List.append_eq_nil_iff] at h
  exact ⟨existing_eq_nil.mp h.2.1, rfl, rfl, rfl, rfl⟩

theorem announces_announceAll {decs : List FunctionDec} {ts : List Term}
    (h : (announceAll G n decs ts).findings = []) :
    List.Forall₂ (Announces G) decs (announceAll G n decs ts).value := by
  induction decs generalizing ts with
  | nil => exact .nil
  | cons dec decs ih =>
    simp only [announceAll, Logged.findings_bind, List.append_eq_nil_iff] at h
    exact .cons (announces_announce h.1) (ih h.2.1)

/-- Functions that are announced are distinct if their names or the sorts in their signatures
are. -/
theorem Announces.distinct_iff {d e : FunctionDec} {f g : FunDecl} (hf : Announces G d f)
    (hg : Announces G e g) : DistinctFuns g f ↔ d.key G ≠ e.key G := by
  have hsame : g.sameSignature f = true ↔ f.args = g.args ∧ f.result = g.result := by
    rw [FunDecl.sameSignature_comm]
    exact FunDecl.sameSignature_of_no_params hf.params hg.params
  rw [DistinctFuns, ← Bool.not_eq_true, hsame, hf.name, hf.args, hf.result, hg.name, hg.args,
    hg.result, quoteSymbol_injective.eq_iff, eq_comm (a := e.name), ← not_and]
  simp [FunctionDec.key]

theorem forall_mem_iff_of_forall₂ {α β : Type} {R : α → β → Prop} {P : α → Prop} {Q : β → Prop}
    (hPQ : ∀ a b, R a b → (P a ↔ Q b)) {l : List α} {m : List β} (h : List.Forall₂ R l m) :
    (∀ a ∈ l, P a) ↔ ∀ b ∈ m, Q b := by
  induction h with
  | nil => simp
  | cons hab _ ih => rw [List.forall_mem_cons, List.forall_mem_cons, hPQ _ _ hab, ih]

/-- Functions that are announced are all entered if no two of them are the same. -/
theorem dropped_enterAll_announced {H : Stack} {decs : List FunctionDec} {fs : List FunDecl}
    (hH : ∀ f, H.conflict? (.function f) = G.conflict? (.function f))
    (h : List.Forall₂ (Announces G) decs fs) :
    (H.enterAll (fs.map .function)).dropped = [] ↔ (decs.map (FunctionDec.key G)).Nodup := by
  have hnew : ∀ d ∈ fs.map Declaration.function, H.conflict? d = none := by
    rw [List.forall_mem_map]
    refine (forall_mem_iff_of_forall₂ (P := fun _ => True) (fun dec f hf => ?_) h).mp fun _ _ =>
      trivial
    exact iff_of_true trivial ((hH f).trans hf.new)
  rw [dropped_enterAll_eq_nil, and_iff_right hnew, List.Nodup, List.pairwise_map,
    List.pairwise_map]
  clear hnew
  induction h with
  | nil => simp
  | cons hf hrest ih =>
    rw [List.pairwise_cons, List.pairwise_cons]
    refine and_congr (forall_mem_iff_of_forall₂ (fun e g hg => ?_) hrest).symm ih
    exact (hf.distinct_iff hg).symm

theorem dropped_defineFun_eq_nil {isRecursive : Bool} {dec : FunctionDec}
    {vars : List (Spot × SortedVar)} {s : Spot} {t : Term} (hvars : vars.map (·.2) = dec.vars)
    (ht : SyntaxCheck.term s t = [])
    (h : (defineFun G n isRecursive dec vars s t).findings = []) :
    (defineFun G n isRecursive dec vars s t).dropped = [] ↔ dec.DistinctVars := by
  have hannounce : Announces G dec (announce G n dec (some t)).value :=
    announces_announce (List.append_eq_nil_iff.mp h).1
  have hlength : vars.length ≤ (announce G n dec (some t)).value.args.length := by
    rw [← hannounce.length, ← hvars, List.length_map]
  have hnames : (vars.map fun v => v.2.name).Nodup ↔ dec.DistinctVars := by
    rw [FunctionDec.DistinctVars, ← hvars, List.map_map]
    rfl
  have henter := dropped_enter_eq_nil.mpr hannounce.new
  have hpush := dropped_enter_eq_nil.mpr (conflict?_push_function.trans hannounce.new)
  have hbody (H : Stack) := dropped_body_eq_nil (G := H) hlength ht
  rw [← hnames]
  cases isRecursive with
  | true => simp [defineFun, hpush, henter, hbody]
  | false => simp [defineFun, henter, hbody]

theorem dropped_bodies_eq_nil {fs : List FunDecl} {decs : List (Spot × FunctionDec)}
    {ts : List (Spot × Term)}
    (hlength : List.Forall₂ (fun dec f => dec.2.vars.length = f.args.length) decs fs)
    (hcount : decs.length = ts.length) (hts : ∀ t ∈ ts, SyntaxCheck.term t.1 t.2 = []) :
    (bodies G fs decs ts).dropped = [] ↔ ∀ dec ∈ decs, dec.2.DistinctVars := by
  induction hlength generalizing ts with
  | nil => simp [bodies]
  | @cons dec f decs fs hlength _ ih =>
    cases ts with
    | nil => cases hcount
    | cons t ts =>
      obtain ⟨ht, hts⟩ := List.forall_mem_cons.mp hts
      have hvars : (dec.2.varSpots dec.1 0).length ≤ f.args.length := by
        rw [← hlength, ← List.length_map (f := Prod.snd), FunctionDec.varSpots, Spot.map_snd_along]
      have hbody := dropped_body_eq_nil (G := G) hvars ht
      rw [FunctionDec.varSpots, Spot.map_along] at hbody
      rw [bodies, Logged.dropped_bind, List.append_eq_nil_iff, List.forall_mem_cons,
        ih (Nat.succ.inj hcount) hts]
      exact and_congr_left fun _ => hbody

theorem dropped_defineFunsRec_eq_nil {decs : List (Spot × FunctionDec)} {ts : List (Spot × Term)}
    (hcount : decs.length = ts.length) (hts : ∀ t ∈ ts, SyntaxCheck.term t.1 t.2 = [])
    (h : (defineFunsRec G n decs ts).findings = []) : (defineFunsRec G n decs ts).dropped = [] ↔
      (∀ dec ∈ decs, dec.2.DistinctVars) ∧ (decs.map fun dec => dec.2.key G).Nodup := by
  have hannounce := announces_announceAll (List.append_eq_nil_iff.mp h).1
  have hlength := (List.forall₂_map_left_iff.mp hannounce).imp fun _ _ h => h.length
  have hinner := dropped_enterAll_announced (fun _ => conflict?_push_function) hannounce
  have houter := dropped_enterAll_announced (fun _ => rfl) hannounce
  simp only [defineFunsRec, Logged.dropped_bind, dropped_announceAll, List.nil_append,
    List.append_eq_nil_iff, hinner, houter, dropped_bodies_eq_nil hlength hcount hts,
    List.map_map]
  exact ⟨And.right, fun h => ⟨h.2, h⟩⟩

end Check

/-! ### Declarations -/

namespace Check

variable {G : Stack} {n : Node}

@[simp] theorem dropped_declare {p : Problem} {d : Declaration} :
    (G.declare n p d).dropped = [] := by
  unfold Stack.declare
  split <;> rfl

@[simp] theorem dropped_declareFun {name : String} {args : List SmtSort} {result : SmtSort} :
    (declareFun G n name args result).dropped = [] :=
  dropped_declare

theorem dropped_selector {d : Datatype} {v : SortedVar} : (d.selector G v).dropped = [] :=
  dropped_declare

theorem dropped_constructor {d : Datatype} {c : ConstructorDec} :
    (d.constructor G c).dropped = [] := by
  have hselectors : (c.selectors.foldlM d.selector G).dropped = [] :=
    Logged.dropped_foldlM (fun _ _ _ => dropped_selector) G
  simp [Datatype.constructor, hselectors, Stack.declareFun]

theorem dropped_declareDatatypes {sorts : List SortDec} {decs : List DatatypeDec} :
    (declareDatatypes G n sorts decs).dropped = [] := by
  have hsorts : (sorts.foldlM (declareSort n) G).dropped = [] :=
    Logged.dropped_foldlM (fun _ _ _ => dropped_declare) G
  rw [declareDatatypes, Logged.dropped_bind, hsorts, List.nil_append]
  refine Logged.dropped_foldlM (fun d _ G => ?_) _
  exact Logged.dropped_foldlM (fun _ _ _ => dropped_constructor) G

theorem dropped_formula {illSorted : Problem} {wrongSort : SmtSort → Problem} {s : Spot}
    {t : Term} (ht : SyntaxCheck.term s t = []) :
    (formula G n illSorted wrongSort s t).dropped = [] := by
  rw [formula, Logged.dropped_bind, dropped_infer G s t ht, List.nil_append]
  split
  · rfl
  · split <;> rfl

theorem dropped_sorted {s : Spot} {t : Term} (ht : SyntaxCheck.term s t = []) :
    (sorted G n s t).dropped = [] := by
  rw [sorted, Logged.dropped_bind, dropped_infer G s t ht, List.nil_append]
  split <;> rfl

theorem dropped_eachTerm {check : Spot → Term → Logged Unit} {s : Spot} {ts : List Term}
    (hcheck : ∀ s t, SyntaxCheck.term s t = [] → (check s t).dropped = [])
    (hts : SyntaxCheck.termsFrom s 0 ts = []) : (eachTerm check s ts).dropped = [] := by
  have hall := SyntaxCheck.termsFrom_eq_nil.mp hts
  rw [eachTerm, List.forM_eq_forM]
  generalize s.along 0 ts = items at hall
  induction items with
  | nil => rfl
  | cons item items ih =>
    rw [List.forM_cons, Logged.dropped_bind, hcheck _ _ (hall item List.mem_cons_self),
      ih fun t ht => hall t (List.mem_cons_of_mem _ ht), List.append_nil]

end Check

/-! ### Commands -/

/-- Functions that are defined together and pass the syntax check have a body each. -/
theorem SyntaxCheck.length_eq_of_defineFunsRec {s : Spot} {decs : List FunctionDec}
    {ts : List Term} (h : SyntaxCheck.command s (.defineFunsRec decs ts) = []) :
    decs.length = ts.length := by
  simp only [SyntaxCheck.command, List.append_eq_nil_iff] at h
  obtain ⟨⟨hcount, -⟩, -⟩ := h
  split at hcount
  · cases hcount
  · exact eq_of_beq (SyntaxCheck.require_eq_nil.mp hcount)

theorem Spot.length_along {α : Type} (s : Spot) (i : Nat) (as : List α) :
    (s.along i as).length = as.length := by
  rw [← List.length_map (f := Prod.snd), s.map_snd_along]

/-- Whether each function that a command defines has distinct variables, and functions that are
defined together differ in their names or in their signatures. -/
def Command.Distinct (G : Stack) : Command → Prop
  | .defineFun dec _ => dec.DistinctVars
  | .defineFunRec dec _ => dec.DistinctVars
  | .defineFunsRec decs _ =>
    (∀ dec ∈ decs, dec.DistinctVars) ∧ (decs.map (FunctionDec.key G)).Nodup
  | _ => True

namespace Check

theorem dropped_declarations_eq_nil {G : Stack} {s : Spot} {c : Command}
    (hlegal : SyntaxCheck.command s c = []) (h : (declarations s c G).findings = []) :
    (declarations s c G).dropped = [] ↔ c.Distinct G := by
  cases c with
  | assert t =>
    exact iff_of_true ((List.append_nil _).trans (dropped_formula hlegal)) trivial
  | checkSatAssuming ts =>
    exact iff_of_true ((List.append_nil _).trans
      (dropped_eachTerm (fun _ _ => dropped_formula) hlegal)) trivial
  | getValue ts =>
    simp only [SyntaxCheck.command, List.append_eq_nil_iff] at hlegal
    exact iff_of_true ((List.append_nil _).trans
      (dropped_eachTerm (fun _ _ => dropped_sorted) hlegal.2)) trivial
  | declareConst name sort => exact iff_of_true dropped_declareFun trivial
  | declareFun name args result => exact iff_of_true dropped_declareFun trivial
  | declareSort name arity => exact iff_of_true dropped_declare trivial
  | declareDatatype name dec => exact iff_of_true dropped_declareDatatypes trivial
  | declareDatatypes sorts decs => exact iff_of_true dropped_declareDatatypes trivial
  | defineConst name sort t =>
    simp only [SyntaxCheck.command, List.append_eq_nil_iff] at hlegal
    exact (dropped_defineFun_eq_nil rfl hlegal.2 h).trans (iff_true_intro List.nodup_nil)
  | defineFun dec t =>
    simp only [SyntaxCheck.command, List.append_eq_nil_iff] at hlegal
    exact dropped_defineFun_eq_nil (Spot.map_snd_along _ _ _) hlegal.2 h
  | defineFunRec dec t =>
    simp only [SyntaxCheck.command, List.append_eq_nil_iff] at hlegal
    exact dropped_defineFun_eq_nil (Spot.map_snd_along _ _ _) hlegal.2 h
  | defineFunsRec decs ts =>
    have hlength := SyntaxCheck.length_eq_of_defineFunsRec hlegal
    have hts := (List.append_eq_nil_iff.mp hlegal).2
    have hdefined := dropped_defineFunsRec_eq_nil
      (by rw [Spot.length_along, Spot.length_along, hlength])
      (SyntaxCheck.termsFrom_eq_nil.mp hts) h
    rw [Spot.map_along] at hdefined
    refine hdefined.trans (and_congr_left fun _ => ?_)
    rw [← List.forall_mem_map (f := Prod.snd) (P := FunctionDec.DistinctVars), Spot.map_snd_along]
  | defineSort name params sort => exact iff_of_true dropped_declare trivial
  | push levels =>
    refine iff_of_true ?_ trivial
    rw [declarations, Check.push]
    split <;> rfl
  | pop levels =>
    refine iff_of_true ?_ trivial
    rw [declarations, Check.pop]
    split <;> rfl
  | _ => exact iff_of_true rfl trivial

end Check

/-! ### Theories and loads -/

namespace Stack

theorem allOverloads_eq_nil {G : Stack} {name : String} (h : G.overloads name = []) :
    G.allOverloads name = [] := by
  have hfold (fs gs : List FunDecl) (hgs : gs ≠ []) : fs.foldl addOverload gs ≠ [] := by
    induction fs generalizing gs with
    | nil => exact hgs
    | cons f fs ih =>
      refine ih _ ?_
      unfold addOverload
      split
      · exact hgs
      · exact List.append_ne_nil_of_right_ne_nil _ (List.cons_ne_nil _ _)
  cases hall : G.allOverloads name with
  | nil => rfl
  | cons f fs =>
    rw [overloads, hall] at h
    exact absurd h (hfold fs [f] (List.cons_ne_nil _ _))

end Stack

namespace Check

section

variable {G : Stack} {n : Node}

/-- Literals are only entered if nothing of their name is there. -/
theorem dropped_literals {name : String} {sort : SmtSort} :
    (literals G n name sort).dropped = [] := by
  rw [literals, Logged.dropped_bind, Logged.dropped_reportAll, List.nil_append]
  split
  · next hnone =>
    refine dropped_enter_eq_nil.mpr ?_
    rw [conflict?]
    simp [FunDecl.symbol, allOverloads_eq_nil hnone]
  · rfl

theorem dropped_functionSymbol {params : List String} {name : String} {args : List SmtSort}
    {result : SmtSort} {attributes : List Attribute} :
    (functionSymbol G n params name args result attributes).dropped = [] := by
  have hassoc (args : List SmtSort) (result : SmtSort) :
      (assoc n name args result attributes).dropped = [] := by
    unfold assoc
    split <;> rfl
  have hchain (args : List SmtSort) (result : SmtSort) :
      (chain n name args result attributes).dropped = [] := by
    unfold chain
    split <;> rfl
  simp [functionSymbol, hassoc, hchain, Stack.declareFun]

theorem dropped_funSymbolDec {item : Spot × FunSymbolDec} :
    (funSymbolDec G item).dropped = [] := by
  obtain ⟨s, d⟩ := item
  cases d with
  | literal c sort attributes => exact dropped_declare
  | literals c sort attributes => exact dropped_literals
  | simple name args result attributes => exact dropped_functionSymbol
  | parametric params name args result attributes => exact dropped_functionSymbol

theorem dropped_theory {s : Spot} {t : Theory} : (theory G s t).dropped = [] := by
  refine Logged.dropped_foldlM (fun item _ G => ?_) G
  obtain ⟨s, a⟩ := item
  cases a with
  | sorts decs => exact Logged.dropped_foldlM (f := sortSymbolDec) (fun _ _ _ => dropped_declare) G
  | funs decs => exact Logged.dropped_foldlM (fun _ _ _ => dropped_funSymbolDec) G
  | other a => rfl

end

section

variable {setup : Setup} {n : Node} {name : String} {ctx : Context}

/-- A load drops nothing if entering what was read does not. -/
theorem dropped_load {α : Type} {l : Loader α}
    (henter : ∀ ctx s a, (l.enter ctx s a).dropped = []) :
    (l.load setup n name ctx).dropped = [] := by
  unfold Loader.load
  split
  · rfl
  · split
    · rfl
    · rw [Logged.dropped_bind, Logged.dropped_pure, List.append_nil, Loader.checked]
      split
      · exact henter _ _ _
      · rfl

theorem dropped_loadTheory : (loadTheory setup n name ctx).dropped = [] :=
  dropped_load fun _ _ _ => (List.append_nil _).trans dropped_theory

theorem dropped_loadCore : (loadCore setup n ctx).dropped = [] := by
  unfold loadCore
  split
  · exact dropped_loadTheory
  · rfl

theorem dropped_namedTheory : (namedTheory setup n ctx name).dropped = [] := by
  simp only [namedTheory]
  split
  · rfl
  · split
    · rfl
    · exact dropped_loadTheory

theorem dropped_logic {s : Spot} {l : Logic} : (logic setup ctx s l).dropped = [] := by
  refine Logged.dropped_foldlM (fun item _ ctx => ?_) ctx
  obtain ⟨s, a⟩ := item
  cases a with
  | theories names => exact Logged.dropped_foldlM (fun _ _ _ => dropped_namedTheory) ctx
  | other a => rfl

theorem dropped_setLogic : (setLogic setup n name ctx).dropped = [] := by
  unfold setLogic
  split
  · rfl
  · exact dropped_load fun _ _ _ => dropped_logic

end

/-! ### Runs -/

theorem dropped_command_eq_nil {setup : Setup} {ctx : Context} {s : Spot} {c : Command}
    (hlegal : SyntaxCheck.command s c = []) (h : (command setup ctx s c).findings = []) :
    (command setup ctx s c).dropped = [] ↔ c.Distinct ctx.stack := by
  have hstack : (ctx.onStack (declarations s c)).findings = [] →
      ((ctx.onStack (declarations s c)).dropped = [] ↔ c.Distinct ctx.stack) := by
    intro h
    rw [← dropped_declarations_eq_nil hlegal (List.append_eq_nil_iff.mp h).1]
    exact List.append_eq_nil_iff.trans (and_iff_left rfl)
  cases c with
  | reset => exact iff_of_true dropped_loadCore trivial
  | setLogic name => exact iff_of_true dropped_setLogic trivial
  | _ => exact hstack h

/-- Commands that pass both checks drop nothing if and only if each one is distinct in the stack
that it runs in. -/
theorem dropped_commands_eq_nil {setup : Setup} {ctx : Context} {cs : List (Spot × Command)}
    (hlegal : ∀ item ∈ cs, SyntaxCheck.command item.1 item.2 = [])
    (h : (commands setup ctx cs).findings = []) :
    (commands setup ctx cs).dropped = [] ↔ ∀ past s c rest, cs = past ++ (s, c) :: rest →
      c.Distinct (commands setup ctx past).value.stack := by
  induction cs generalizing ctx with
  | nil => simp [commands]
  | cons item cs ih =>
    obtain ⟨s, c⟩ := item
    rw [commands_cons, Logged.findings_bind, List.append_eq_nil_iff] at h
    rw [commands_cons, Logged.dropped_bind, List.append_eq_nil_iff,
      dropped_command_eq_nil (hlegal _ List.mem_cons_self) h.1,
      ih (fun other hother => hlegal other (List.mem_cons_of_mem _ hother)) h.2]
    constructor
    · rintro ⟨hfirst, hlater⟩ past s' c' rest heq
      cases past with
      | nil =>
        cases heq
        exact hfirst
      | cons item past =>
        rw [List.cons_append, List.cons.injEq] at heq
        obtain ⟨rfl, rfl⟩ := heq
        rw [commands_cons]
        exact hlater past s' c' rest rfl
    · intro hall
      refine ⟨hall [] s c cs rfl, fun past s' c' rest heq => ?_⟩
      have hlater := hall ((s, c) :: past) s' c' rest (by rw [heq, List.cons_append])
      rwa [commands_cons] at hlater

/-- The commands of a root, each at its spot. -/
def commandSpots (p : Parsed Root) : List (Spot × Command) :=
  match p.tree with
  | .script cs => (Spot.top p.source).along 0 cs
  | _ => []

/-- A root that passes both checks drops no declaration if and only if each of its definitions is
distinct in the stack that it runs in. -/
theorem dropped_root_eq_nil_iff {setup : Setup} {ctx : Context} {p : Parsed Root}
    (hlegal : SyntaxCheck.root p = []) (hquiet : (root setup ctx p).findings = []) :
    (root setup ctx p).dropped = [] ↔
      let start := (loadCore setup (p.tree.node p.source) ctx).value
      ∀ past s c rest, commandSpots p = past ++ (s, c) :: rest →
        c.Distinct (commands setup start past).value.stack := by
  obtain ⟨source, tree⟩ := p
  rw [root_eq, Logged.findings_bind, List.append_eq_nil_iff] at hquiet
  rw [root_eq, Logged.dropped_bind, List.append_eq_nil_iff]
  cases tree with
  | script cs =>
    refine (and_iff_right dropped_loadCore).trans ?_
    exact dropped_commands_eq_nil (List.flatMap_eq_nil_iff.mp hlegal) hquiet.2
  | theory t =>
    refine iff_of_true ⟨?_, (List.append_nil _).trans dropped_theory⟩ fun past _ _ _ h => ?_
    · split
      · rfl
      · exact dropped_loadCore
    · exact absurd h.symm (List.append_ne_nil_of_right_ne_nil _ (List.cons_ne_nil _ _))
  | logic l =>
    refine iff_of_true ⟨dropped_loadCore, dropped_logic⟩ fun past _ _ _ h => ?_
    exact absurd h.symm (List.append_ne_nil_of_right_ne_nil _ (List.cons_ne_nil _ _))

/-- Without the core theory, and without files. -/
def bare : Setup := ⟨⟨"", "", "", "", false⟩, fun _ => .missing⟩

/-- Two functions of one name with different signatures, and with distinct variables. -/
def overloaded : Parsed Root :=
  ⟨⟨.nowhere, [], []⟩, .script [.declareSort "A" 0, .defineFunsRec
    [⟨"f", [⟨"x", .simple "A"⟩], .simple "A"⟩,
      ⟨"f", [⟨"x", .simple "A"⟩, ⟨"y", .simple "A"⟩], .simple "A"⟩]
    [.ident (.simple "x"), .app (.simple "f") [.ident (.simple "y")]]]⟩

theorem dropped_root_eq_nil_iff_overloaded :
    SyntaxCheck.root overloaded = [] ∧ (root bare .fresh overloaded).findings = [] ∧
      (root bare .fresh overloaded).dropped = [] := by
  have hlegal : SyntaxCheck.root overloaded = [] := by decide +kernel
  have hquiet : (root bare .fresh overloaded).findings = [] := by decide +kernel
  refine ⟨hlegal, hquiet, (dropped_root_eq_nil_iff hlegal hquiet).mpr ?_⟩
  rintro start (_ | ⟨_, _ | ⟨_, past⟩⟩) s c rest heq
  · cases heq
    exact trivial
  · cases heq
    exact ⟨by decide +kernel, by decide +kernel⟩
  · have hlength := congrArg List.length heq
    simp [commandSpots, overloaded, Spot.length_along] at hlength

/-- Whether a text passes both checks although a declaration of it is dropped. -/
def DropsQuietly (setup : Setup) (text : String) : Prop :=
  ∃ p, parseRoot .nowhere text = .ok p ∧ SyntaxCheck.root p = [] ∧
    (root setup .fresh p).findings = [] ∧ (root setup .fresh p).dropped ≠ []

instance (setup : Setup) (text : String) : Decidable (DropsQuietly setup text) :=
  match h : parseRoot .nowhere text with
  | .error _ => isFalse fun ⟨p, hp, _⟩ => by cases h.symm.trans hp
  | .ok p => decidable_of_iff (SyntaxCheck.root p = [] ∧
      (root setup .fresh p).findings = [] ∧ (root setup .fresh p).dropped ≠ [])
    ⟨fun hp => ⟨p, h, hp⟩, fun ⟨q, hq, hp⟩ => by cases h.symm.trans hq; exact hp⟩

/-- A repeated variable of a function and a repeated function of a block are dropped. -/
theorem dropsQuietly_repeated :
    DropsQuietly bare "(declare-sort A 0) (define-fun f ((x A) (x A)) A x)" ∧
      DropsQuietly bare
        "(declare-sort A 0) (define-funs-rec ((f ((x A)) A) (f ((y A)) A)) (x y))" := by
  decide +kernel

end Check

end WellSorted
