import WellSorted.Proofs.Applications
import WellSorted.Proofs.Dropped
import WellSorted.Proofs.Lookups
import WellSorted.Proofs.Visits

/-!
# Inlining

A `let` only gives names to sorts: its body has the same sort with the bound terms in place of the
variables (`infer_letIn_eq_inline`). A stack with the variables stands for one without them
(`Inlines`), and goes on to do so below a binder, as long as the binder captures neither the
variables nor anything that the bound terms refer to (`Inlines.bind`).
-/

namespace WellSorted

open Sorting

/-! ### Replacing variables by terms -/

/-- The symbol of an identifier that may be a variable. -/
def QualIdentifier.plainSymbol? (q : QualIdentifier) : Option String :=
  if q.ascription.isSome || q.name.isIndexed then none else some q.name.symbol

theorem QualIdentifier.plainSymbol?_eq_some {q : QualIdentifier} {x : String} :
    q.plainSymbol? = some x ↔ q = ⟨.simple x, none⟩ := by
  obtain ⟨⟨symbol, indices⟩, ascription⟩ := q
  cases ascription <;> cases indices <;>
    simp [plainSymbol?, Identifier.isIndexed, Identifier.simple]

namespace Term

mutual

/-- Put terms in place of variables. -/
def inline (σ : List (String × Term)) : Term → Term
  | constant c => constant c
  | ident q => (q.plainSymbol?.bind (List.lookup · σ)).getD (ident q)
  | app q args => app q (inlineAll σ args)
  | letIn bindings body => letIn (inlineBindings σ bindings) (body.inline σ)
  | quantified q vars body => quantified q vars (body.inline σ)
  | matching scrutinee arms => matching (scrutinee.inline σ) (inlineArms σ arms)
  | annotated t attributes => annotated (t.inline σ) attributes

def inlineAll (σ : List (String × Term)) : List Term → List Term
  | [] => []
  | t :: rest => t.inline σ :: inlineAll σ rest

def inlineBindings (σ : List (String × Term)) : List (String × Term) → List (String × Term)
  | [] => []
  | (x, t) :: rest => (x, t.inline σ) :: inlineBindings σ rest

def inlineArms (σ : List (String × Term)) : List (Pattern × Term) → List (Pattern × Term)
  | [] => []
  | (p, t) :: rest => (p, t.inline σ) :: inlineArms σ rest

end

theorem map_inlineBindings {α : Type} (f : String → α) (σ bindings : List (String × Term)) :
    (inlineBindings σ bindings).map (fun b => f b.1) = bindings.map fun b => f b.1 := by
  induction bindings with
  | nil => rfl
  | cons b bindings ih => rw [inlineBindings, List.map_cons, List.map_cons, ih]

theorem isEmpty_inlineArms (σ : List (String × Term)) (arms : List (Pattern × Term)) :
    (inlineArms σ arms).isEmpty = arms.isEmpty := by
  cases arms <;> rfl

end Term

/-- Whether a symbol is neither replaced nor occurs as a variable in the terms put in. -/
def Fresh (σ : List (String × Term)) (x : String) : Prop :=
  x ∉ σ.map Prod.fst ∧ ∀ b ∈ σ, Lookup.var (quoteSymbol x) ∉ b.2.lookups

instance (σ : List (String × Term)) (x : String) : Decidable (Fresh σ x) :=
  inferInstanceAs (Decidable (_ ∧ _))

/-- The symbols that the patterns of cases bind. -/
def Stack.armSymbols (G : Stack) (sort : SmtSort) : List (Pattern × Term) → List String
  | [] => []
  | (p, _) :: rest => G.patternSymbols sort p rest.isEmpty ++ G.armSymbols sort rest

/-- The symbols that a visited term binds. -/
def Visit.bound (v : Visit) : List String :=
  match v.term with
  | .letIn bindings _ => bindings.map Prod.fst
  | .quantified _ vars _ => vars.map (·.name)
  | .matching scrutinee arms =>
    (infer v.stack (v.spot.item 1) scrutinee).value.elim [] (v.stack.armSymbols · arms)
  | _ => []

/-! ### Results alone -/

theorem Logged.value_eq_of_returns {α : Type} {x y : Logged (Option α)}
    (h : ∀ a, x.Returns False a ↔ y.Returns False a) : x.value = y.value := by
  refine Option.ext fun a => ?_
  simpa [Returns] using h a

theorem value_infer_spot (G : Stack) (s s' : Spot) (t : Term) :
    (infer G s t).value = (infer G s' t).value :=
  Logged.value_eq_of_returns fun _ => returns_infer_iff s s'

theorem value_application (G : Stack) (n n' : Node) (q : QualIdentifier) (args : List SmtSort) :
    (application G n q args).value = (application G n' q args).value := by
  refine Logged.value_eq_of_returns fun r => ?_
  obtain ⟨i, ascription⟩ := q
  cases ascription with
  | none => exact returns_unique.trans returns_unique.symm
  | some sort =>
    have hfit (n : Node) : (application G n ⟨i, some sort⟩ args).Returns False r ↔ _ :=
      returns_ascribed.trans (and_congr_right' returns_firstFit)
    exact (hfit n).trans (hfit n').symm

theorem value_commonSort (n n' : Node) (sorts : List SmtSort) :
    (commonSort n sorts).value = (commonSort n' sorts).value := by
  cases sorts with
  | nil => rfl
  | cons sort rest =>
    rw [commonSort, commonSort]
    split <;> rfl

/-! ### Stacks with and without the variables -/

theorem lookup_eq_none {vars : List VarDecl} {name : String} (h : ∀ v ∈ vars, v.name ≠ name) :
    (vars.map fun v => (v.name, v.sort)).lookup name = none := by
  rw [Stack.lookup_locals, Option.map_eq_none_iff, List.find?_eq_none]
  simpa using h

theorem Stack.Shares.agreeOn {H K : Stack} {ls : List Lookup} (h : K.Shares H)
    (hvars : ∀ key, Lookup.var key ∈ ls →
      (H.var? key).map (·.sort) = (K.var? key).map (·.sort)) : AgreeOn ls H K := by
  intro l hl
  cases l with
  | sort key => exact h.sort? key
  | overloads key => exact h.overloads key
  | var key => exact hvars key hl

/-- Variables that are not asked for do not matter. -/
theorem Stack.agreeOn_bind {G : Stack} {vars : List VarDecl} {ls : List Lookup}
    (h : ∀ v ∈ vars, Lookup.var v.name ∉ ls) : AgreeOn ls (G.bind vars).value G := by
  refine ((Shares.refl G).bind vars).agreeOn fun key hkey => ?_
  have hne : ∀ v ∈ vars, v.name ≠ key := fun v hv hname => h v hv (hname ▸ hkey)
  rw [varSort?_bind, lookup_eq_none hne, Option.none_or]

/-- Whether `H` is `K` with variables that have the sorts of the terms they are replaced by. -/
structure Inlines (σ : List (String × Term)) (H K : Stack) : Prop where
  shares : K.Shares H
  replaced : ∀ x t, σ.lookup x = some t → ∀ s, ∃ r,
    (H.var? (quoteSymbol x)).map (·.sort) = some r ∧ (infer K s t).value = some r
  other : ∀ x, σ.lookup x = none →
    (H.var? (quoteSymbol x)).map (·.sort) = (K.var? (quoteSymbol x)).map (·.sort)

section

variable {σ : List (String × Term)} {H K : Stack}

/-- Binders that capture nothing. -/
theorem Inlines.bind (h : Inlines σ H K) {vs ws : List VarDecl}
    (hlocals : (vs.map fun v => (v.name, v.sort)) = ws.map fun v => (v.name, v.sort))
    (hfresh : ∀ v ∈ vs, ∃ x, Fresh σ x ∧ v.name = quoteSymbol x) :
    Inlines σ (H.bind vs).value (K.bind ws).value := by
  have hnames : vs.map (·.name) = ws.map (·.name) := by
    simpa [Function.comp_def] using congrArg (List.map Prod.fst) hlocals
  refine ⟨((Stack.Shares.refl K).bind ws).symm.trans (h.shares.bind vs), fun x t hx s => ?_,
    fun x hx => ?_⟩
  · obtain ⟨r, hvar, ht⟩ := h.replaced x t hx s
    have hmem := mem_of_lookup hx
    refine ⟨r, ?_, ?_⟩
    · rw [Stack.varSort?_bind, lookup_eq_none, Option.none_or, hvar]
      intro v hv hname
      obtain ⟨y, hy, hvy⟩ := hfresh v hv
      rw [← quoteSymbol_injective (hvy.symm.trans hname)] at hmem
      exact hy.1 (List.mem_map_of_mem hmem)
    · have hagree : Stack.AgreeOn t.lookups (K.bind ws).value K := by
        refine Stack.agreeOn_bind fun w hw => ?_
        have hmem' : w.name ∈ vs.map (·.name) := by
          rw [hnames]
          exact List.mem_map_of_mem hw
        obtain ⟨v, hv, hname⟩ := List.mem_map.mp hmem'
        obtain ⟨y, hy, hvy⟩ := hfresh v hv
        rw [← hname, hvy]
        exact hy.2 _ hmem
      rw [infer_of_agreeOn s t hagree, ht]
  · rw [Stack.varSort?_bind, Stack.varSort?_bind, hlocals, h.other x hx]

/-- A binding of the variable is found together with the sort of its term. -/
theorem lookup_letLocals {G : Stack} {s : Spot} {i : Nat} {bindings : List (String × Term)}
    {sorts : List SmtSort} (h : (inferBindings G s i bindings).Returns False sorts) (x : String)
    (s' : Spot) :
    ((bindings.map fun b => quoteSymbol b.1).zip sorts).lookup (quoteSymbol x) =
      (bindings.lookup x).bind fun t => (infer G s' t).value := by
  induction bindings generalizing i sorts with
  | nil => rfl
  | cons b bindings ih =>
    obtain ⟨y, t⟩ := b
    rw [inferBindings, returns_consSort] at h
    obtain ⟨r, rest, rfl, hr, hrest⟩ := h
    have hquote : (quoteSymbol x == quoteSymbol y) = (x == y) := by
      rw [Bool.eq_iff_iff, beq_iff_eq, beq_iff_eq, quoteSymbol_injective.eq_iff]
    rw [List.map_cons, List.zip_cons_cons, List.lookup_cons, List.lookup_cons, hquote, ih hrest]
    cases x == y with
    | true => exact ((value_infer_spot G _ s' t).symm.trans hr.1).symm
    | false => rfl

/-- The variables of a `let`, of which the first of a name counts. -/
theorem inlines_letVars {G : Stack} {s : Spot} {bindings : List (String × Term)}
    {sorts : List SmtSort} (h : (inferBindings G (s.item 1) 0 bindings).value = some sorts)
    (hsorts : ∀ b ∈ bindings, (infer G s b.2).value.isSome) :
    Inlines bindings (G.bind (letVars s bindings sorts)).value G := by
  have hlookup (x : String) := lookup_letLocals ⟨h, False.elim⟩ x s
  refine ⟨(Stack.Shares.refl G).bind _, fun x t hx s' => ?_, fun x hx => ?_⟩
  · obtain ⟨r, hr⟩ := Option.isSome_iff_exists.mp (hsorts _ (mem_of_lookup hx))
    refine ⟨r, ?_, (value_infer_spot G s' s t).trans hr⟩
    rw [Stack.varSort?_bind, locals_letVars, hlookup, hx, Option.bind_some, hr, Option.some_or]
  · rw [Stack.varSort?_bind, locals_letVars, hlookup, hx, Option.bind_none, Option.none_or]

end

/-! ### Terms -/

theorem Stack.Shares.caseVars {H K : Stack} (h : K.Shares H) (sort : SmtSort) (s : Spot)
    (p : Pattern) (isLast : Bool) : H.caseVars sort s p isLast = K.caseVars sort s p isLast := by
  simp only [Stack.caseVars, patternFields, h.overloads, resolve_congr h.sort?]

/-- A case is entered with the symbols of its pattern. -/
theorem exists_of_mem_caseVars {G : Stack} {sort : SmtSort} {s : Spot} {p : Pattern} {isLast : Bool}
    {vars : List VarDecl} (h : G.caseVars sort s p isLast = some vars) :
    ∀ v ∈ vars, ∃ x ∈ G.patternSymbols sort p isLast, v.name = quoteSymbol x := by
  unfold Stack.caseVars at h
  split at h
  · cases h
  split at h
  · next fields hfields =>
    cases h
    intro v hv
    have hmem : (v.name, v.sort) ∈ (p.arguments.map quoteSymbol).zip fields := by
      rw [← locals_argumentVars p s]
      exact List.mem_map_of_mem hv
    obtain ⟨x, hx, hname⟩ := List.mem_map.mp (List.of_mem_zip hmem).1
    have hcatch : G.isCatchAll sort p isLast = false := by
      rw [Stack.isCatchAll, hfields, List.isEmpty_cons, Bool.and_false]
    refine ⟨x, ?_, hname.symm⟩
    rwa [Stack.patternSymbols, hcatch]
  · next hnil =>
    split at h
    · next hlast =>
      cases h
      have hcatch : G.isCatchAll sort p isLast = true := by
        rw [Stack.isCatchAll, hlast, hnil, List.isEmpty_nil, Bool.and_true]
      rw [Stack.patternSymbols, hcatch]
      exact List.forall_mem_singleton.mpr ⟨p.head, List.mem_singleton_self _, rfl⟩
    · cases h
  · cases h

theorem QualIdentifier.var_not_mem_lookups (q : QualIdentifier) (key : String) :
    Lookup.var key ∉ q.lookups := by
  cases hq : q.ascription <;> simp [lookups, SmtSort.lookups?, hq]

theorem QualIdentifier.mem_varLookups {q : QualIdentifier} {key : String}
    (h : Lookup.var key ∈ q.varLookups) : ∃ x, q.plainSymbol? = some x ∧ key = quoteSymbol x := by
  unfold varLookups at h
  split at h
  · exact absurd h List.not_mem_nil
  · next hq =>
    refine ⟨q.name.symbol, by rw [plainSymbol?, if_neg hq], ?_⟩
    obtain ⟨⟨symbol, indices⟩, ascription⟩ := q
    have hindices : indices = [] := by
      simp [Identifier.isIndexed] at hq
      exact hq.2
    subst hindices
    rw [List.mem_singleton, Lookup.var.injEq] at h
    exact h.trans (Identifier.key_simple symbol)

section

variable {σ : List (String × Term)}

theorem value_infer_inline_ident {H K : Stack} (h : Inlines σ H K) (s : Spot) (q : QualIdentifier) :
    (infer H s (.ident q)).value = (infer K s ((Term.ident q).inline σ)).value := by
  rw [Term.inline]
  cases hq : q.plainSymbol?.bind (List.lookup · σ) with
  | some t =>
    obtain ⟨x, hx, hlookup⟩ := Option.bind_eq_some_iff.mp hq
    obtain rfl := QualIdentifier.plainSymbol?_eq_some.mp hx
    obtain ⟨r, hvar, ht⟩ := h.replaced x t hlookup s
    rw [Option.getD_some, ht, infer_var hvar, Logged.value_pure]
  | none =>
    rw [Option.getD_none, infer_of_agreeOn s (.ident q)]
    refine h.shares.agreeOn fun key hkey => ?_
    rcases List.mem_append.mp hkey with hkey | hkey
    · obtain ⟨x, hx, rfl⟩ := QualIdentifier.mem_varLookups hkey
      rw [hx, Option.bind_some] at hq
      exact h.other x hq
    · exact absurd hkey (q.var_not_mem_lookups key)

mutual

/-- Putting terms in place of the variables that have their sorts keeps the sort of a term, if no
binder in it captures anything. -/
theorem value_infer_inline : ∀ {H K : Stack} (_ : Inlines σ H K) (s : Spot) (t : Term),
    (∀ v ∈ visits H s t, ∀ x ∈ v.bound, Fresh σ x) →
      (infer H s t).value = (infer K s (t.inline σ)).value
  | H, K, h, s, .constant c, _ => by
    rw [Term.inline, infer_of_agreeOn s (.constant c)]
    exact h.shares.agreeOn fun key hkey => by simp [Term.lookups] at hkey
  | H, K, h, s, .ident q, _ => value_infer_inline_ident h s q
  | H, K, h, s, .app q args, hfresh => by
    have hargs := value_inferAll_inline h s 1 args (List.forall_mem_cons.mp hfresh).2
    rw [infer, Term.inline, infer, Logged.value_bind, Logged.value_bind, ← hargs]
    cases (inferAll H s 1 args).value with
    | none => rfl
    | some sorts =>
      have hagree : Stack.AgreeOn q.lookups H K :=
        h.shares.agreeOn fun key hkey => absurd hkey (q.var_not_mem_lookups key)
      simp only [application_of_agreeOn hagree]
      exact value_application K _ _ q sorts
  | H, K, h, s, .letIn bindings body, hfresh => by
    obtain ⟨hnames, hrest⟩ := List.forall_mem_cons.mp hfresh
    obtain ⟨hbindings, hbody⟩ := List.forall_mem_append.mp hrest
    have hsorts := value_inferBindings_inline h (s.item 1) 0 bindings hbindings
    rw [infer, Term.inline, infer, Logged.value_bind, Logged.value_bind, ← hsorts]
    cases hvalue : (inferBindings H (s.item 1) 0 bindings).value with
    | none => rfl
    | some sorts =>
      rw [letScope_eq hvalue] at hbody
      refine value_infer_inline (h.bind ?_ fun v hv => ?_) (s.item 2) body hbody
      · rw [locals_letVars, locals_letVars, Term.map_inlineBindings]
      · have hmem : (v.name, v.sort) ∈ (bindings.map fun b => quoteSymbol b.1).zip sorts := by
          rw [← locals_letVars s]
          exact List.mem_map_of_mem hv
        obtain ⟨b, hb, hname⟩ := List.mem_map.mp (List.of_mem_zip hmem).1
        exact ⟨b.1, hnames b.1 (List.mem_map_of_mem hb), hname.symm⟩
  | H, K, h, s, .quantified q vars body, hfresh => by
    obtain ⟨hnames, hbody⟩ := List.forall_mem_cons.mp hfresh
    have hinlines : Inlines σ (quantifierScope H s vars) (quantifierScope K s vars) := by
      refine h.bind ?_ fun v hv => ?_
      · simp only [locals_quantifierVars, Stack.resolve_congr h.shares.sort?]
      · have hmem : (v.name, v.sort) ∈
            vars.map fun v => (quoteSymbol v.name, H.resolve [] v.sort) := by
          rw [← locals_quantifierVars H s]
          exact List.mem_map_of_mem hv
        obtain ⟨w, hw, heq⟩ := List.mem_map.mp hmem
        exact ⟨w.name, hnames w.name (List.mem_map_of_mem hw), (congrArg Prod.fst heq).symm⟩
    have hvalue := value_infer_inline hinlines (s.item 2) body hbody
    rw [quantifierScope, quantifierScope] at hvalue
    rw [infer, Term.inline, infer]
    simp only [Logged.value_bind, hvalue]
    cases (infer _ (s.item 2) (body.inline σ)).value with
    | none => rfl
    | some sort =>
      simp only
      split <;> rfl
  | H, K, h, s, .matching scrutinee arms, hfresh => by
    obtain ⟨hsymbols, hrest⟩ := List.forall_mem_cons.mp hfresh
    obtain ⟨hscrutinee, harms⟩ := List.forall_mem_append.mp hrest
    have hvalue := value_infer_inline h (s.item 1) scrutinee hscrutinee
    rw [infer, Term.inline, infer, Logged.value_bind, Logged.value_bind, ← hvalue]
    cases hsort : (infer H (s.item 1) scrutinee).value with
    | none => rfl
    | some sort =>
      simp only [Visit.bound, hsort, Option.elim_some] at hsymbols
      rw [hsort] at harms
      simp only [Logged.value_bind]
      rw [← value_inferArms_inline h _ _ sort (s.item 2) 0 arms harms hsymbols]
      cases (inferArms H _ sort (s.item 2) 0 arms).value with
      | none => rfl
      | some sorts => exact value_commonSort _ _ sorts
  | H, K, h, s, .annotated t attributes, hfresh => by
    rw [infer, Term.inline, infer]
    exact value_infer_inline h (s.item 1) t (List.forall_mem_cons.mp hfresh).2

theorem value_inferAll_inline : ∀ {H K : Stack} (_ : Inlines σ H K) (s : Spot) (i : Nat)
    (ts : List Term), (∀ v ∈ allVisits H s i ts, ∀ x ∈ v.bound, Fresh σ x) →
      (inferAll H s i ts).value = (inferAll K s i (Term.inlineAll σ ts)).value
  | H, K, h, s, i, [], _ => rfl
  | H, K, h, s, i, t :: ts, hfresh => by
    obtain ⟨ht, hts⟩ := List.forall_mem_append.mp hfresh
    simp only [inferAll, Term.inlineAll, Logged.value_bind, Logged.value_pure,
      value_infer_inline h (s.item i) t ht, value_inferAll_inline h s (i + 1) ts hts]

theorem value_inferBindings_inline : ∀ {H K : Stack} (_ : Inlines σ H K) (s : Spot) (i : Nat)
    (bs : List (String × Term)), (∀ v ∈ bindingVisits H s i bs, ∀ x ∈ v.bound, Fresh σ x) →
      (inferBindings H s i bs).value = (inferBindings K s i (Term.inlineBindings σ bs)).value
  | H, K, h, s, i, [], _ => rfl
  | H, K, h, s, i, (x, t) :: bs, hfresh => by
    obtain ⟨ht, hbs⟩ := List.forall_mem_append.mp hfresh
    simp only [inferBindings, Term.inlineBindings, Logged.value_bind, Logged.value_pure,
      value_infer_inline h ((s.item i).item 1) t ht, value_inferBindings_inline h s (i + 1) bs hbs]

theorem value_inferArms_inline : ∀ {H K : Stack} (_ : Inlines σ H K) (n n' : Node) (sort : SmtSort)
    (s : Spot) (i : Nat) (arms : List (Pattern × Term)),
    (∀ v ∈ armVisits H n (some sort) s i arms, ∀ x ∈ v.bound, Fresh σ x) →
    (∀ x ∈ H.armSymbols sort arms, Fresh σ x) →
      (inferArms H n sort s i arms).value = (inferArms K n' sort s i (Term.inlineArms σ arms)).value
  | H, K, h, n, n', sort, s, i, [], _, _ => rfl
  | H, K, h, n, n', sort, s, i, (p, t) :: arms, hfresh, hsymbols => by
    obtain ⟨ht, harms⟩ := List.forall_mem_append.mp hfresh
    obtain ⟨hp, hsymbols⟩ := List.forall_mem_append.mp hsymbols
    have harm : (inferArm H n sort (s.item i) p t arms.isEmpty).value =
        (inferArm K n' sort (s.item i) p (t.inline σ) arms.isEmpty).value := by
      simp only [inferArm, Logged.value_bind]
      have hscope := value_caseScope H n sort ((s.item i).item 0) p arms.isEmpty
      rw [hscope, value_caseScope K, ← h.shares.caseVars]
      cases hvars : H.caseVars sort ((s.item i).item 0) p arms.isEmpty with
      | none => rfl
      | some vars =>
        rw [hvars] at hscope
        rw [armScope_eq hscope] at ht
        refine value_infer_inline (h.bind rfl fun v hv => ?_) _ t ht
        obtain ⟨x, hx, hname⟩ := exists_of_mem_caseVars hvars v hv
        exact ⟨x, hp x hx, hname⟩
    rw [Term.inlineArms, inferArms_cons, inferArms_cons, Term.isEmpty_inlineArms]
    simp only [Logged.value_bind, Logged.value_pure, harm,
      value_inferArms_inline h n n' sort s (i + 1) arms harms hsymbols]

end

end

theorem exists_value_inferBindings {G : Stack} {s : Spot} (s' : Spot) (i : Nat)
    {bindings : List (String × Term)} (h : ∀ b ∈ bindings, (infer G s b.2).value.isSome) :
    ∃ sorts, (inferBindings G s' i bindings).value = some sorts := by
  induction bindings generalizing i with
  | nil => exact ⟨[], rfl⟩
  | cons b bindings ih =>
    obtain ⟨x, t⟩ := b
    obtain ⟨ht, hbindings⟩ := List.forall_mem_cons.mp h
    obtain ⟨r, hr⟩ := Option.isSome_iff_exists.mp ht
    obtain ⟨rest, hrest⟩ := ih (i + 1) hbindings
    refine ⟨r :: rest, ?_⟩
    rw [inferBindings, Logged.value_bind, Logged.value_bind, Logged.value_pure,
      value_infer_spot G _ s t, hr, hrest, consSort]

/-- The body of a `let` has the same sort with the bound terms in place of the variables, if all
bound terms have sorts, and no symbol that is bound inside the body is one of the variables or
occurs as a variable in a bound term. Of two bindings of a variable, the first one counts. -/
theorem infer_letIn_eq_inline (G : Stack) (s s' : Spot) (bindings : List (String × Term))
    (body : Term) (hsorts : ∀ b ∈ bindings, (infer G s b.2).value.isSome)
    (hfresh : ∀ v ∈ visits (letScope G s bindings) (s.item 2) body, ∀ x ∈ v.bound,
      Fresh bindings x) :
    (infer G s (.letIn bindings body)).value = (infer G s' (body.inline bindings)).value := by
  obtain ⟨sorts, hvalue⟩ := exists_value_inferBindings (s.item 1) 0 hsorts
  rw [letScope_eq hvalue] at hfresh
  rw [infer, Logged.value_bind, hvalue, value_infer_spot G s' (s.item 2)]
  exact value_infer_inline (inlines_letVars hvalue hsorts) (s.item 2) body hfresh

/-- A list sort with its constructors. -/
def tailScript : List Context.Action :=
  [.root Check.bare ⟨⟨.nowhere, [], []⟩, .script
    [.declareDatatype "L" ⟨none, [⟨"nil", []⟩, ⟨"cons", [⟨"tail", .simple "L"⟩]⟩]⟩]⟩]

/-- The constructor in the last case binds nothing, so that it may occur in a bound term. -/
theorem infer_letIn_eq_inline_list :
    let G := (Context.after tailScript).stack
    let s : Spot := .top ⟨.nowhere, [], []⟩
    let var (x : String) : Term := .ident ⟨.simple x, none⟩
    let cons (t : Term) : Term := .app ⟨.simple "cons", none⟩ [t]
    let bindings := [("x", var "nil"), ("y", cons (var "nil"))]
    let body (x y : Term) : Term :=
      .matching y [(.applied "cons" none ["z"], cons (var "z")), (.symbol "nil", x)]
    (infer G s (.letIn bindings (body (var "x") (var "y")))).value = some (.simple "L") ∧
      (infer G s (.letIn bindings (body (var "x") (var "y")))).value =
        (infer G s (body (var "nil") (cons (var "nil")))).value := by
  intro G s var cons bindings body
  exact ⟨by decide +kernel, infer_letIn_eq_inline G s s bindings (body (var "x") (var "y"))
    (by decide +kernel) (by decide +kernel)⟩

end WellSorted
