import WellSorted.Proofs.Rebuilding.Sorts

/-!
# Building terms again

Terms follow the recursion of their builder, one lemma for each kind of list.
-/

namespace WellSorted

/-! ### Qualified identifiers, variables and patterns -/

theorem QualIdentifier.rereads (f : Form) :
    Rereads (Built QualIdentifier.ofForm) QualIdentifier.spelling f := by
  intro q hq
  unfold Built QualIdentifier.ofForm at hq
  split at hq
  · next e head tail =>
    split at hq
    · next hhead =>
      obtain ⟨e₁, rfl⟩ := Form.symbol?_eq_some.mp hhead
      split at hq
      · next name sort =>
        simp only [Build.bind_eq_ok, Build.pure_eq_ok] at hq
        obtain ⟨i, hi, s, hs, rfl⟩ := hq
        refine reread_wordPair (by decide) (Identifier.rereads name i hi)
          (SmtSort.rereads sort s hs) fun e' e₀ g₁ g₂ h₁ h₂ => ?_
        simp only [Built, QualIdentifier.ofForm, Form.symbol?, ↓reduceIte, Build.bind_eq_ok,
          Build.pure_eq_ok]
        exact ⟨i, h₁, s, h₂, rfl⟩
      · cases hq
    · simp only [Build.bind_eq_ok, Build.pure_eq_ok] at hq
      obtain ⟨i, hi, rfl⟩ := hq
      refine (Identifier.rereads_ofItems hi).imp ?_
      rintro _ ⟨e', g₀, gs, rfl, hhead, hgs⟩
      simp only [Built, QualIdentifier.ofForm, hhead, Option.some.injEq, String.reduceEq,
        ↓reduceIte, Build.bind_eq_ok, Build.pure_eq_ok]
      exact ⟨i, hgs, rfl⟩
  · next hlist =>
    simp only [Build.bind_eq_ok, Build.pure_eq_ok] at hq
    obtain ⟨i, hi, rfl⟩ := hq
    cases f with
    | atom e t =>
      cases t with
      | symbol s =>
        cases hi
        exact reread_atom fun _ => rfl
      | _ => cases hi
    | list e fs =>
      cases fs with
      | nil => cases hi
      | cons f fs => exact absurd rfl (hlist e f fs)

theorem SortedVar.rereads (f : Form) : Rereads (Built SortedVar.ofForm) SortedVar.spelling f := by
  intro v hv
  unfold Built SortedVar.ofForm at hv
  split at hv
  · next e name sort =>
    simp only [Build.bind_eq_ok, Build.pure_eq_ok] at hv
    obtain ⟨x, hx, s, hs, rfl⟩ := hv
    refine reread_pair (rereads_symbol name x hx) (SmtSort.rereads sort s hs)
      fun e' g₁ g₂ h₁ h₂ => ?_
    simp only [Built, SortedVar.ofForm, Build.bind_eq_ok, Build.pure_eq_ok]
    exact ⟨x, h₁, s, h₂, rfl⟩
  · cases hv

/-- A pattern as the head of a list with some binders. -/
def Pattern.headOf (e : Extent) (tail : List Form) : Pattern → Build Pattern
  | symbol ctor => do return applied ctor none (← tail.mapM Form.symbol)
  | qualified ctor sort => do return applied ctor (some sort) (← tail.mapM Form.symbol)
  | applied _ _ _ => .error ⟨e, .invalid .pattern⟩

theorem Pattern.ofForm_list (e : Extent) (head : Form) (tail : List Form) :
    Pattern.ofForm (.list e (head :: tail)) =
      if head.symbol? = some "as" then
        match tail with
        | [ctor, sort] => do
          let ctor ← ctor.symbol
          let sort ← SmtSort.ofForm sort
          return qualified ctor sort
        | _ => .error ⟨e, .argumentCount "as" 2 tail.length⟩
      else if tail.isEmpty then .error ⟨e, .invalid .pattern⟩
      else Pattern.ofForm head >>= Pattern.headOf e tail := by
  rw [Pattern.ofForm.eq_def]
  rfl

theorem Pattern.headOf_eq_ok {e : Extent} {tail : List Form} {q p : Pattern}
    (h : q.headOf e tail = .ok p) : ∃ args, tail.mapM Form.symbol = .ok args ∧
      p.spelling = .group (q.spelling :: args.map Spelling.symbol) ∧
      ∀ e' gs, gs.mapM Form.symbol = .ok args → q.headOf e' gs = .ok p := by
  cases q with
  | symbol ctor =>
    simp only [headOf, Build.bind_eq_ok, Build.pure_eq_ok] at h ⊢
    obtain ⟨args, hargs, rfl⟩ := h
    exact ⟨args, hargs, rfl, fun _ gs hgs => ⟨args, hgs, rfl⟩⟩
  | qualified ctor sort =>
    simp only [headOf, Build.bind_eq_ok, Build.pure_eq_ok] at h ⊢
    obtain ⟨args, hargs, rfl⟩ := h
    exact ⟨args, hargs, rfl, fun _ gs hgs => ⟨args, hgs, rfl⟩⟩
  | applied _ _ _ => cases h

theorem Pattern.rereads (f : Form) : Rereads (Built Pattern.ofForm) Pattern.spelling f := by
  intro p hp
  cases f with
  | atom e t =>
    cases t with
    | symbol s =>
      cases hp
      exact reread_atom fun _ => rfl
    | _ => cases hp
  | list e fs =>
    cases fs with
    | nil => cases hp
    | cons head tail =>
      rw [Built, Pattern.ofForm_list] at hp
      split at hp
      · next hhead =>
        obtain ⟨e₁, rfl⟩ := Form.symbol?_eq_some.mp hhead
        split at hp
        · next ctor sort =>
          simp only [Build.bind_eq_ok, Build.pure_eq_ok] at hp
          obtain ⟨c, hc, s, hs, rfl⟩ := hp
          refine reread_wordPair (by decide) (rereads_symbol ctor c hc)
            (SmtSort.rereads sort s hs) fun e' e₀ g₁ g₂ h₁ h₂ => ?_
          simp only [Built, Pattern.ofForm_list, Form.symbol?, ↓reduceIte, Build.bind_eq_ok,
            Build.pure_eq_ok]
          exact ⟨c, h₁, s, h₂, rfl⟩
        · cases hp
      split at hp
      · cases hp
      · next hne htail =>
        obtain ⟨q, hq, hp⟩ := Build.bind_eq_ok.mp hp
        obtain ⟨args, hargs, hspelling, hagain⟩ := Pattern.headOf_eq_ok hp
        have hhead := Pattern.rereads head q hq
        have htails := rereadsAll_mapM (fun f _ => rereads_symbol f) args hargs
        rw [hspelling]
        refine (hhead.sameHead.cons htails.sameLength).group.imp ?_
        rintro _ ⟨e', _, rfl, g, gs, rfl, ⟨hg, hsymbol, -⟩, hgs, hlength⟩
        rw [← hsymbol] at hne
        rw [List.isEmpty_iff_length_eq_zero, ← hlength, ← List.isEmpty_iff_length_eq_zero] at htail
        rw [Built, Pattern.ofForm_list, if_neg hne, if_neg htail, Build.bind_eq_ok]
        exact ⟨q, hg, hagain e' gs hgs⟩

/-! ### Terms -/

theorem TermHead.ofForm_congr {f g : Form} (h : g.symbol? = f.symbol?) :
    TermHead.ofForm g = TermHead.ofForm f := by
  rw [TermHead.ofForm, TermHead.ofForm, h]

theorem TermHead.ofForm_eq_letIn {f : Form} (h : TermHead.ofForm f = .letIn) :
    f.symbol? = some "let" := by
  unfold TermHead.ofForm at h
  grind

theorem TermHead.ofForm_eq_quantifier {f : Form} {q : Quantifier}
    (h : TermHead.ofForm f = .quantifier q) : f.symbol? = some q.word := by
  unfold TermHead.ofForm at h
  grind [Quantifier.word]

theorem TermHead.ofForm_eq_matching {f : Form} (h : TermHead.ofForm f = .matching) :
    f.symbol? = some "match" := by
  unfold TermHead.ofForm at h
  grind

theorem TermHead.ofForm_eq_annotated {f : Form} (h : TermHead.ofForm f = .annotated) :
    f.symbol? = some "!" := by
  unfold TermHead.ofForm at h
  grind

namespace Term

theorem spellings_eq_map (ts : List Term) : spellings ts = ts.map spelling := by
  induction ts with
  | nil => rfl
  | cons t ts ih => rw [spellings, ih, List.map_cons]

theorem bindingSpellings_eq_map (bs : List (String × Term)) :
    bindingSpellings bs = bs.map fun b => .group [.symbol b.1, b.2.spelling] := by
  induction bs with
  | nil => rfl
  | cons b bs ih => rw [bindingSpellings, ih, List.map_cons]

theorem armSpellings_eq_map (arms : List (Pattern × Term)) :
    armSpellings arms = arms.map fun a => .group [a.1.spelling, a.2.spelling] := by
  induction arms with
  | nil => rfl
  | cons a arms ih => rw [armSpellings, ih, List.map_cons]

theorem ofForms_eq_mapM (fs : List Form) : ofForms fs = fs.mapM ofForm := by
  induction fs with
  | nil => rfl
  | cons f fs ih => rw [ofForms, ih, List.mapM_cons]

theorem bindingsOfForms_eq_mapM (fs : List Form) :
    bindingsOfForms fs = fs.mapM bindingOfForm := by
  induction fs with
  | nil => rfl
  | cons f fs ih => rw [bindingsOfForms, ih, List.mapM_cons]

theorem armsOfForms_eq_mapM (fs : List Form) : armsOfForms fs = fs.mapM armOfForm := by
  induction fs with
  | nil => rfl
  | cons f fs ih => rw [armsOfForms, ih, List.mapM_cons]

/-- Terms are reread from all forms below a size: the induction hypothesis. -/
def RereadsBelow (n : Nat) : Prop :=
  ∀ f : Form, sizeOf f < n → Rereads (Built Term.ofForm) Term.spelling f

theorem RereadsBelow.mono {m n : Nat} (h : RereadsBelow n) (hmn : m ≤ n) : RereadsBelow m :=
  fun f hf => h f (Nat.lt_of_lt_of_le hf hmn)

theorem rereads_binding {f : Form} (ih : RereadsBelow (sizeOf f)) :
    Rereads (Built bindingOfForm) (fun b => .group [.symbol b.1, b.2.spelling]) f := by
  intro b hb
  unfold Built bindingOfForm at hb
  split at hb
  · next e name term =>
    simp only [Build.bind_eq_ok, Build.pure_eq_ok] at hb
    obtain ⟨x, hx, t, ht, rfl⟩ := hb
    have hterm := ih term (Form.sizeOf_lt_list (by simp)) t ht
    refine reread_pair (rereads_symbol name x hx) hterm fun e' g₁ g₂ h₁ h₂ => ?_
    simp only [Built, bindingOfForm, Build.bind_eq_ok, Build.pure_eq_ok]
    exact ⟨x, h₁, t, h₂, rfl⟩
  · cases hb

theorem rereads_arm {f : Form} (ih : RereadsBelow (sizeOf f)) :
    Rereads (Built armOfForm) (fun a => .group [a.1.spelling, a.2.spelling]) f := by
  intro a ha
  unfold Built armOfForm at ha
  split at ha
  · next e pattern term =>
    simp only [Build.bind_eq_ok, Build.pure_eq_ok] at ha
    obtain ⟨p, hp, t, ht, rfl⟩ := ha
    have hterm := ih term (Form.sizeOf_lt_list (by simp)) t ht
    refine reread_pair (Pattern.rereads pattern p hp) hterm fun e' g₁ g₂ h₁ h₂ => ?_
    simp only [Built, armOfForm, Build.bind_eq_ok, Build.pure_eq_ok]
    exact ⟨p, h₁, t, h₂, rfl⟩
  · cases ha

theorem bindingsOfForm_eq (f : Form) :
    bindingsOfForm f = f.items >>= (·.mapM bindingOfForm) := by
  cases f with
  | atom e t => rfl
  | list e fs => rw [bindingsOfForm, bindingsOfForms_eq_mapM]; rfl

theorem armsOfForm_eq (f : Form) : armsOfForm f = f.items >>= (·.mapM armOfForm) := by
  cases f with
  | atom e t => rfl
  | list e fs => rw [armsOfForm, armsOfForms_eq_mapM]; rfl

theorem rereads_bindings {f : Form} (ih : RereadsBelow (sizeOf f)) :
    Rereads (Built bindingsOfForm) (fun bs => .group (bindingSpellings bs)) f := by
  simp only [funext bindingsOfForm_eq, bindingSpellings_eq_map]
  exact rereads_items fun g hg => rereads_binding (ih.mono (Nat.le_of_lt hg))

theorem rereads_arms {f : Form} (ih : RereadsBelow (sizeOf f)) :
    Rereads (Built armsOfForm) (fun arms => .group (armSpellings arms)) f := by
  simp only [funext armsOfForm_eq, armSpellings_eq_map]
  exact rereads_items fun g hg => rereads_arm (ih.mono (Nat.le_of_lt hg))

theorem rereadsAll_args {fs : List Form}
    (ih : ∀ f ∈ fs, Rereads (Built Term.ofForm) Term.spelling f) :
    RereadsAll (Built Term.ofForms) Term.spellings fs := by
  simp only [funext ofForms_eq_mapM, funext spellings_eq_map]
  exact rereadsAll_mapM ih

/-- What a head makes of a list. -/
def ofHead (e : Extent) (head : Form) (tail : List Form) : TermHead → Build Term
  | .identifier => do return ident (← QualIdentifier.ofForm (.list e (head :: tail)))
  | .letIn =>
    match tail with
    | [bindings, body] => do
      let bindings ← bindingsOfForm bindings
      let body ← ofForm body
      return letIn bindings body
    | _ => .error ⟨e, .argumentCount "let" 2 tail.length⟩
  | .quantifier q =>
    match tail with
    | [vars, body] => do
      let vars ← SortedVar.listOfForm vars
      let body ← ofForm body
      return quantified q vars body
    | _ => .error ⟨e, .argumentCount q.word 2 tail.length⟩
  | .matching =>
    match tail with
    | [scrutinee, arms] => do
      let arms ← armsOfForm arms
      let scrutinee ← ofForm scrutinee
      return matching scrutinee arms
    | _ => .error ⟨e, .argumentCount "match" 2 tail.length⟩
  | .annotated =>
    match tail with
    | [] => .error ⟨e, .invalid .term⟩
    | term :: attributes => do
      let term ← ofForm term
      let attributes ← Attribute.ofForms attributes
      return annotated term attributes
  | .function =>
    if tail.isEmpty then .error ⟨e, .invalid .term⟩
    else do
      let function ← QualIdentifier.ofForm head
      let args ← ofForms tail
      return app function args

theorem ofForm_list {e : Extent} {head : Form} {tail : List Form} {h : TermHead}
    (hhead : TermHead.ofForm head = h) : ofForm (.list e (head :: tail)) = ofHead e head tail h := by
  subst hhead
  rw [ofForm, ofItems.eq_def]
  rfl

section

variable {e : Extent} {head : Form} {tail : List Form} {t : Term}

theorem reread_ident (hhead : TermHead.ofForm head = .identifier)
    (ht : Built ofForm (.list e (head :: tail)) t) :
    Reread (Built ofForm · t) t.spelling (.list e (head :: tail)) := by
  simp only [Built, ofForm_list hhead, ofHead, Build.bind_eq_ok, Build.pure_eq_ok] at ht
  obtain ⟨q, hq, rfl⟩ := ht
  have h := QualIdentifier.rereads _ q hq
  refine ⟨h.spells, h.legible, fun g hg => ?_⟩
  obtain ⟨e', f, fs, rfl, hf⟩ := exists_list_of_spells h.spells hg
  simp only [Built, ofForm_list ((TermHead.ofForm_congr hf).trans hhead), ofHead,
    Build.bind_eq_ok, Build.pure_eq_ok]
  exact ⟨q, h.again _ hg, rfl⟩

theorem reread_letIn (ih : ∀ f ∈ tail, RereadsBelow (sizeOf f + 1))
    (hhead : TermHead.ofForm head = .letIn) (ht : Built ofForm (.list e (head :: tail)) t) :
    Reread (Built ofForm · t) t.spelling (.list e (head :: tail)) := by
  obtain ⟨e₁, rfl⟩ := Form.symbol?_eq_some.mp (TermHead.ofForm_eq_letIn hhead)
  have hword : ∀ e, TermHead.ofForm (.atom e (.symbol "let")) = .letIn := fun _ => hhead
  simp only [Built, ofForm_list hhead, ofHead.eq_def] at ht
  split at ht
  · next bindings body =>
    simp only [Build.bind_eq_ok, Build.pure_eq_ok] at ht
    obtain ⟨bs, hbs, b, hb, rfl⟩ := ht
    have hbindings := rereads_bindings ((ih bindings (by simp)).mono (Nat.le_succ _)) bs hbs
    have hbody := ih body (by simp) body (Nat.lt_succ_self _) b hb
    refine reread_wordPair (by decide) hbindings hbody fun e' e₀ g₁ g₂ h₁ h₂ => ?_
    simp only [Built, ofForm_list (hword e₀), ofHead, Build.bind_eq_ok, Build.pure_eq_ok]
    exact ⟨bs, h₁, b, h₂, rfl⟩
  · cases ht

theorem reread_quantified {q : Quantifier} (ih : ∀ f ∈ tail, RereadsBelow (sizeOf f + 1))
    (hhead : TermHead.ofForm head = .quantifier q)
    (ht : Built ofForm (.list e (head :: tail)) t) :
    Reread (Built ofForm · t) t.spelling (.list e (head :: tail)) := by
  obtain ⟨e₁, rfl⟩ := Form.symbol?_eq_some.mp (TermHead.ofForm_eq_quantifier hhead)
  have hword : ∀ e, TermHead.ofForm (.atom e (.symbol q.word)) = .quantifier q := fun _ => hhead
  simp only [Built, ofForm_list hhead, ofHead.eq_def] at ht
  split at ht
  · next vars body =>
    simp only [Build.bind_eq_ok, Build.pure_eq_ok] at ht
    obtain ⟨vs, hvs, b, hb, rfl⟩ := ht
    have hvars := rereads_items (f := vars) (fun g _ => SortedVar.rereads g) vs hvs
    have hbody := ih body (by simp) body (Nat.lt_succ_self _) b hb
    refine reread_wordPair (by cases q <;> decide) hvars hbody fun e' e₀ g₁ g₂ h₁ h₂ => ?_
    simp only [Built, ofForm_list (hword e₀), ofHead, Build.bind_eq_ok, Build.pure_eq_ok]
    exact ⟨vs, h₁, b, h₂, rfl⟩
  · cases ht

theorem reread_matching (ih : ∀ f ∈ tail, RereadsBelow (sizeOf f + 1))
    (hhead : TermHead.ofForm head = .matching) (ht : Built ofForm (.list e (head :: tail)) t) :
    Reread (Built ofForm · t) t.spelling (.list e (head :: tail)) := by
  obtain ⟨e₁, rfl⟩ := Form.symbol?_eq_some.mp (TermHead.ofForm_eq_matching hhead)
  have hword : ∀ e, TermHead.ofForm (.atom e (.symbol "match")) = .matching := fun _ => hhead
  simp only [Built, ofForm_list hhead, ofHead.eq_def] at ht
  split at ht
  · next scrutinee arms =>
    simp only [Build.bind_eq_ok, Build.pure_eq_ok] at ht
    obtain ⟨as, has, s, hs, rfl⟩ := ht
    have hscrutinee := ih scrutinee (by simp) scrutinee (Nat.lt_succ_self _) s hs
    have harms := rereads_arms ((ih arms (by simp)).mono (Nat.le_succ _)) as has
    refine reread_wordPair (by decide) hscrutinee harms fun e' e₀ g₁ g₂ h₁ h₂ => ?_
    simp only [Built, ofForm_list (hword e₀), ofHead, Build.bind_eq_ok, Build.pure_eq_ok]
    exact ⟨as, h₂, s, h₁, rfl⟩
  · cases ht

theorem reread_annotated (ih : ∀ f ∈ tail, RereadsBelow (sizeOf f + 1))
    (hhead : TermHead.ofForm head = .annotated) (ht : Built ofForm (.list e (head :: tail)) t) :
    Reread (Built ofForm · t) t.spelling (.list e (head :: tail)) := by
  obtain ⟨e₁, rfl⟩ := Form.symbol?_eq_some.mp (TermHead.ofForm_eq_annotated hhead)
  have hword : ∀ e, TermHead.ofForm (.atom e (.symbol "!")) = .annotated := fun _ => hhead
  simp only [Built, ofForm_list hhead, ofHead.eq_def] at ht
  split at ht
  · cases ht
  · next term attributes =>
    simp only [Build.bind_eq_ok, Build.pure_eq_ok] at ht
    obtain ⟨t, ht, as, has, rfl⟩ := ht
    have hterm := ih term (by simp) term (Nat.lt_succ_self _) t ht
    refine ((reread_word (by decide)).cons (hterm.cons
      (Attribute.rereadsAll attributes as has))).group.imp ?_
    rintro _ ⟨e', _, rfl, _, _, rfl, ⟨e₀, rfl⟩, g, gs, rfl, hg, hgs⟩
    simp only [Built, ofForm_list (hword e₀), ofHead, Build.bind_eq_ok, Build.pure_eq_ok]
    exact ⟨t, hg, as, hgs, rfl⟩

theorem reread_app (ih : ∀ f ∈ tail, RereadsBelow (sizeOf f + 1))
    (hhead : TermHead.ofForm head = .function) (ht : Built ofForm (.list e (head :: tail)) t) :
    Reread (Built ofForm · t) t.spelling (.list e (head :: tail)) := by
  simp only [Built, ofForm_list hhead, ofHead.eq_def] at ht
  split at ht
  · cases ht
  · next htail =>
    simp only [Build.bind_eq_ok, Build.pure_eq_ok] at ht
    obtain ⟨q, hq, ts, hts, rfl⟩ := ht
    have hargs := rereadsAll_args (fun f hf => ih f hf f (Nat.lt_succ_self _)) ts hts
    refine ((QualIdentifier.rereads head q hq).sameHead.cons hargs.sameLength).group.imp ?_
    rintro _ ⟨e', _, rfl, g, gs, rfl, ⟨hg, hsymbol, -⟩, hgs, hlength⟩
    rw [List.isEmpty_iff_length_eq_zero, ← hlength, ← List.isEmpty_iff_length_eq_zero] at htail
    simp only [Built, ofForm_list ((TermHead.ofForm_congr hsymbol).trans hhead), ofHead,
      if_neg htail, Build.bind_eq_ok, Build.pure_eq_ok]
    exact ⟨q, hg, ts, hgs, rfl⟩

theorem rereads_list (ih : RereadsBelow (sizeOf (Form.list e (head :: tail)))) :
    Rereads (Built Term.ofForm) Term.spelling (.list e (head :: tail)) := by
  have hitem : ∀ f ∈ tail, RereadsBelow (sizeOf f + 1) :=
    fun f hf => ih.mono (Form.sizeOf_lt_list (List.mem_cons_of_mem _ hf))
  intro t ht
  cases hhead : TermHead.ofForm head with
  | identifier => exact reread_ident hhead ht
  | letIn => exact reread_letIn hitem hhead ht
  | quantifier q => exact reread_quantified hitem hhead ht
  | matching => exact reread_matching hitem hhead ht
  | annotated => exact reread_annotated hitem hhead ht
  | function => exact reread_app hitem hhead ht

end

theorem rereadsBelow (n : Nat) : RereadsBelow n := by
  induction n with
  | zero => exact fun f hf => absurd hf (Nat.not_lt_zero _)
  | succ n ih =>
    intro f hf
    cases f with
    | atom e t =>
      intro t' ht
      cases t <;> first
        | (cases ht; exact reread_atom fun _ => rfl)
        | cases ht
    | list e fs =>
      cases fs with
      | nil =>
        intro t ht
        cases ht
      | cons head tail => exact rereads_list (ih.mono (Nat.lt_succ_iff.mp hf))

theorem rereads (f : Form) : Rereads (Built Term.ofForm) Term.spelling f :=
  rereadsBelow _ f (Nat.lt_succ_self _)

theorem rereads_listOfForm (f : Form) :
    Rereads (Built Term.listOfForm) (fun ts => .group (Term.spellings ts)) f := by
  have hbuild : Term.listOfForm = fun f => f.items >>= (·.mapM Term.ofForm) :=
    funext fun f => by rw [listOfForm, funext ofForms_eq_mapM]
  simp only [hbuild, spellings_eq_map]
  exact rereads_items fun g _ => rereads g

end Term

end WellSorted
