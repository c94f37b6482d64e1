import WellSorted.Proofs.Rebuilding.Commands

/-!
# Building theories, logics and roots again

The value of `:sorts`, `:funs` or `:theories` that is no list of declarations stays a plain
attribute. That it does so again needs more than that it is built again: no form of the same shape
may be a list of declarations (`spells_of_spells`).
-/

namespace WellSorted

mutual

/-- Two forms of one spelling are spelled the same by all spellings. -/
theorem spells_of_spells : ∀ {s s' : Spelling} {f g : Form},
    Spells s f → Spells s g → Spells s' g → Spells s' f
  | .word w, s', f, g, hf, hg, hg' => by
    obtain ⟨e, rfl⟩ := spells_word.mp hf
    obtain ⟨e', rfl⟩ := spells_word.mp hg
    cases s' with
    | group ss => cases hg'
    | _ => exact hg'
  | .token t, s', f, g, hf, hg, hg' => by
    obtain ⟨e, rfl⟩ := spells_token.mp hf
    obtain ⟨e', rfl⟩ := spells_token.mp hg
    cases s' with
    | group ss => cases hg'
    | _ => exact hg'
  | .group ss, s', f, g, hf, hg, hg' => by
    obtain ⟨e, fs, rfl, hfs⟩ := spells_group.mp hf
    obtain ⟨e', gs, rfl, hgs⟩ := spells_group.mp hg
    cases s' with
    | group ss' => exact spellsAll_of_spellsAll hfs hgs hg'
    | _ => cases hg'

theorem spellsAll_of_spellsAll : ∀ {ss ss' : List Spelling} {fs gs : List Form},
    SpellsAll ss fs → SpellsAll ss gs → SpellsAll ss' gs → SpellsAll ss' fs
  | [], ss', fs, gs, hfs, hgs, hgs' => by
    cases spellsAll_nil.mp hfs
    cases spellsAll_nil.mp hgs
    exact hgs'
  | s :: ss, ss', fs, gs, hfs, hgs, hgs' => by
    obtain ⟨f, fs, rfl, hf, hfs⟩ := spellsAll_cons.mp hfs
    obtain ⟨g, gs, rfl, hg, hgs⟩ := spellsAll_cons.mp hgs
    cases ss' with
    | nil => cases hgs'
    | cons s' ss' => exact ⟨spells_of_spells hf hg hgs'.1, spellsAll_of_spellsAll hfs hgs hgs'.2⟩

end

/-! ### Declarations of theories -/

theorem SortSymbolDec.rereads (f : Form) :
    Rereads (Found SortSymbolDec.ofForm?) SortSymbolDec.spelling f := by
  intro d hd
  unfold Found SortSymbolDec.ofForm? at hd
  split at hd
  · next e name arity attributes =>
    simp only [Option.bind_eq_bind, Option.bind_eq_some_iff, Build.toOption_eq_some,
      Option.pure_def, Option.some.injEq] at hd
    obtain ⟨i, hi, n, hn, as, has, rfl⟩ := hd
    refine ((Identifier.rereads name i hi).cons ((rereads_numeral arity n hn).cons
      (Attribute.rereadsAll attributes as has))).group.imp ?_
    rintro _ ⟨e', _, rfl, g₁, _, rfl, h₁, g₂, gs, rfl, h₂, hgs⟩
    simp only [Found, SortSymbolDec.ofForm?, Option.bind_eq_bind, Option.bind_eq_some_iff,
      Build.toOption_eq_some, Option.pure_def, Option.some.injEq]
    exact ⟨i, h₁, n, h₂, as, hgs, rfl⟩
  · cases hd

theorem LiteralClass.word_of_ofWord? {s : String} {c : LiteralClass}
    (h : LiteralClass.ofWord? s = some c) : c.word = s := by
  simpa using List.find?_some h

theorem Constant.token_of_ofToken? {t : Token} {c : Constant} (h : Constant.ofToken? t = some c) :
    c.token = t := by
  cases t <;> cases h <;> rfl

namespace FunSymbolDec

theorem keyword?_of_sort {f : Form} {s : SmtSort} (h : SmtSort.ofForm f = .ok s) :
    f.keyword? = none := by
  cases f with
  | list e fs => rfl
  | atom e t =>
    cases t with
    | symbol x => rfl
    | _ => cases h

theorem keyword?_of_sorts {fs : List Form} {ss : List SmtSort} (h : SmtSort.ofForms fs = .ok ss) :
    ∀ f ∈ fs, f.keyword?.isNone = true := by
  induction fs generalizing ss with
  | nil => nofun
  | cons f fs ih =>
    simp only [SmtSort.ofForms, Build.bind_eq_ok] at h
    obtain ⟨s, hs, ss, hss, -⟩ := h
    intro g hg
    rcases List.mem_cons.mp hg with rfl | hg
    · rw [keyword?_of_sort hs]; rfl
    · exact ih hss g hg

theorem dropWhile_of_attributes {fs : List Form} {as : List Attribute}
    (h : Attribute.ofForms fs = .ok as) : fs.dropWhile (·.keyword?.isNone) = fs := by
  obtain ⟨forms, hcovers, -⟩ := splitMapM_eq_ok.mp h
  cases hcovers <;> rfl

/-- Sorts and attributes that stand side by side are told apart by the first keyword. -/
theorem signature?_eq_some {fs : List Form} {args : List SmtSort} {result : SmtSort}
    {as : List Attribute} : signature? fs = some (args, result, as) ↔
      ∃ fs₁ fs₂, fs = fs₁ ++ fs₂ ∧ SmtSort.ofForms fs₁ = .ok (args ++ [result]) ∧
        Attribute.ofForms fs₂ = .ok as := by
  simp only [signature?, Option.bind_eq_bind, Option.bind_eq_some_iff, Build.toOption_eq_some,
    Option.pure_def, Option.some.injEq, Prod.mk.injEq]
  constructor
  · rintro ⟨ss, hss, as, has, result, hresult, rfl, rfl, rfl⟩
    refine ⟨_, _, List.takeWhile_append_dropWhile.symm, ?_, has⟩
    rw [hss, List.dropLast_append_getLast? _ hresult]
  · rintro ⟨fs₁, fs₂, rfl, hss, has⟩
    have hsorts := keyword?_of_sorts hss
    have hdrop := dropWhile_of_attributes has
    have htake : fs₂.takeWhile (·.keyword?.isNone) = [] := by
      have := List.takeWhile_append_dropWhile (p := (·.keyword?.isNone)) (l := fs₂)
      rwa [hdrop, List.append_left_eq_self] at this
    rw [List.takeWhile_append_of_pos hsorts, htake, List.append_nil,
      List.dropWhile_append_of_pos hsorts, hdrop]
    exact ⟨args ++ [result], hss, as, has, result, by simp, by simp, rfl, rfl⟩

theorem reread_signature {head : Spelling} {f : Form} {P : Form → Prop} {fs : List Form}
    {e : Extent} {args : List SmtSort} {result : SmtSort} {as : List Attribute}
    (hhead : Reread P head f) (h : signature? fs = some (args, result, as)) :
    Reread (fun g => ∃ e g₀ gs, g = .list e (g₀ :: gs) ∧ P g₀ ∧
      signature? gs = some (args, result, as))
      (signatureSpelling head args result as) (.list e (f :: fs)) := by
  obtain ⟨fs₁, fs₂, rfl, hss, has⟩ := signature?_eq_some.mp h
  have hsorts := SmtSort.rereadsAll fs₁ _ hss
  have hspelling : SmtSort.spellings args ++ result.spelling :: Attribute.allSpellings as =
      SmtSort.spellings (args ++ [result]) ++ Attribute.allSpellings as := by
    simp [SmtSort.spellings_eq_map]
  rw [signatureSpelling, List.cons_append, hspelling]
  refine (hhead.cons (hsorts.append (Attribute.rereadsAll fs₂ as has))).group.imp ?_
  rintro _ ⟨e', _, rfl, g₀, _, rfl, hg₀, gs₁, gs₂, rfl, h₁, h₂⟩
  exact ⟨e', g₀, gs₁ ++ gs₂, rfl, hg₀, signature?_eq_some.mpr ⟨gs₁, gs₂, rfl, h₁, h₂⟩⟩

theorem unparametric?_simple {g : Form} {i : Identifier} (args : List SmtSort) (result : SmtSort)
    (as : List Attribute) (hword : g.symbol?.bind LiteralClass.ofWord? = none)
    (hi : Identifier.ofForm g = .ok i) :
    unparametric? g args result as = some (simple i args result as) := by
  unfold unparametric?
  rw [hword, hi]
  cases g with
  | list e fs => rfl
  | atom e t =>
    cases t with
    | symbol s => rfl
    | _ => cases hi

theorem reread_simple {head : Form} {i : Identifier} (args : List SmtSort) (result : SmtSort)
    (as : List Attribute) (hword : head.symbol?.bind LiteralClass.ofWord? = none)
    (hi : Identifier.ofForm head = .ok i) :
    Reread (unparametric? · args result as = some (simple i args result as)) i.spelling head := by
  refine (Identifier.rereads head i hi).sameHead.imp ?_
  rintro g ⟨hg, hsymbol, -⟩
  exact unparametric?_simple args result as (by rw [hsymbol, hword]) hg

theorem reread_unparametric {head : Form} {args : List SmtSort} {result : SmtSort}
    {as : List Attribute} {d : FunSymbolDec} (h : unparametric? head args result as = some d) :
    ∃ s, d.spelling = signatureSpelling s args result as ∧
      Reread (unparametric? · args result as = some d) s head := by
  unfold unparametric? at h
  split at h
  · next c hc =>
    obtain ⟨w, hw, hc⟩ := Option.bind_eq_some_iff.mp hc
    obtain ⟨e, rfl⟩ := Form.symbol?_eq_some.mp hw
    cases LiteralClass.word_of_ofWord? hc
    split at h
    · next hargs =>
      cases List.isEmpty_iff.mp hargs
      cases h
      refine ⟨_, rfl, (reread_word (by cases c <;> decide)).imp ?_⟩
      rintro _ ⟨e', rfl⟩
      simp [unparametric?, Form.symbol?]
    · cases h
  · next e token hword =>
    split at h
    · next c hc =>
      cases Constant.token_of_ofToken? hc
      split at h
      · next hargs =>
        cases List.isEmpty_iff.mp hargs
        cases h
        refine ⟨_, rfl, reread_token.sameHead.imp ?_⟩
        rintro _ ⟨⟨e', rfl⟩, hsymbol, -⟩
        unfold unparametric?
        rw [hsymbol, hword]
        simp
      · cases h
    · simp only [Option.bind_eq_bind, Option.bind_eq_some_iff, Build.toOption_eq_some,
        Option.pure_def, Option.some.injEq] at h
      obtain ⟨i, hi, rfl⟩ := h
      exact ⟨_, rfl, reread_simple args result as hword hi⟩
  · next _ hword =>
    simp only [Option.bind_eq_bind, Option.bind_eq_some_iff, Build.toOption_eq_some,
      Option.pure_def, Option.some.injEq] at h
    obtain ⟨i, hi, rfl⟩ := h
    exact ⟨_, rfl, reread_simple args result as hword hi⟩

theorem rereads (f : Form) : Rereads (Found ofForm?) spelling f := by
  intro d hd
  unfold Found ofForm? at hd
  split at hd
  · next tail hheaded =>
    obtain ⟨e, e₁, rfl⟩ := Form.headed?_eq_some.mp hheaded
    split at hd
    · next params e₂ name rest =>
      simp only [Option.bind_eq_bind, Option.bind_eq_some_iff, Build.toOption_eq_some,
        Option.pure_def, Option.some.injEq, Prod.exists] at hd
      obtain ⟨xs, hxs, args, result, as, hsignature, i, hi, rfl⟩ := hd
      refine reread_wordPair (by decide) (rereads_symbols params xs hxs)
        (reread_signature (Identifier.rereads name i hi) hsignature) ?_
      rintro e' e₀ g₁ _ h₁ ⟨e₃, g₂, gs, rfl, h₂, hgs⟩
      simp only [Found, ofForm?, Form.headed?, Form.symbol?, Option.map_some, Option.bind_eq_bind,
        Option.bind_eq_some_iff, Build.toOption_eq_some, Option.pure_def, Option.some.injEq,
        Prod.exists]
      exact ⟨xs, h₁, args, result, as, hgs, i, h₂, rfl⟩
    · cases hd
  · next hpar =>
    split at hd
    · next e head rest =>
      simp only [Option.bind_eq_bind, Option.bind_eq_some_iff, Prod.exists] at hd
      obtain ⟨args, result, as, hsignature, hd⟩ := hd
      obtain ⟨s, hspelling, hhead⟩ := reread_unparametric hd
      rw [hspelling]
      refine (reread_signature hhead hsignature).sameHeadSymbol.imp ?_
      rintro _ ⟨⟨e', g₀, gs, rfl, hg₀, hgs⟩, hsymbol⟩
      unfold Found ofForm?
      split
      · next tail hheaded =>
        rw [Form.headSymbol?, hheaded, Form.headSymbol?, Option.map_some, eq_comm,
          Option.map_eq_some_iff] at hsymbol
        obtain ⟨⟨_, tail'⟩, hheaded', rfl⟩ := hsymbol
        exact absurd hheaded' (hpar tail')
      · simp only [Option.bind_eq_bind, Option.bind_eq_some_iff, Prod.exists]
        exact ⟨args, result, as, hgs, hg₀⟩
    · cases hd

end FunSymbolDec

/-! ### Attributes of theories and logics -/

theorem rereads_symbol? (f : Form) : Rereads (Found Form.symbol?) Spelling.symbol f := by
  intro s hs
  obtain ⟨e, rfl⟩ := Form.symbol?_eq_some.mp hs
  exact reread_token.imp fun _ => Form.symbol?_eq_some.mpr

theorem rereads_nonemptyItems {α : Type} {value? : Form → Option α} {spell : α → Spelling}
    (h : ∀ f, Rereads (Found value?) spell f) (f : Form) :
    Rereads (Found (Form.nonemptyItems? value?)) (fun as => .group (as.map spell)) f := by
  intro as has
  unfold Found Form.nonemptyItems? at has
  split at has
  · next e item items =>
    have hitems := rereadsAll_forall₂ (fun f _ => h f) as (mapM_eq_some.mp has)
    refine hitems.sameLength.group.imp ?_
    rintro _ ⟨e', gs, rfl, hgs, hlength⟩
    cases gs with
    | nil => cases hlength
    | cons g gs => exact mapM_eq_some.mpr hgs
  · cases has

section

variable {α : Type} {build : AttributeForms → Build α} {spells : α → List Spelling}

/-- Attributes of which some have a value that is taken apart. -/
theorem attributeRereads_structured (structured? : String → Form → Option α)
    (other : Attribute → α)
    (hsome : ∀ a x, a.value.bind (structured? a.keyword) = some x → build a = .ok x)
    (hnone : ∀ a, a.value.bind (structured? a.keyword) = none →
      build a = a.toAttribute >>= fun a => pure (other a))
    (hstructured : ∀ k f x, structured? k f = some x →
      ∃ s, spells x = [.token (.keyword k), s] ∧ Reread (structured? k · = some x) s f)
    (hother : ∀ a, spells (other a) = a.spellings) : AttributeRereads build spells := by
  -- What cannot be taken apart cannot be taken apart in any form of the same spelling.
  have hplain : ∀ k s f g, Spells s f → Spells s g → structured? k f = none →
      structured? k g = none := by
    intro k s f g hf hg hf'
    cases hx : structured? k g with
    | none => rfl
    | some x =>
      obtain ⟨s', -, hs'⟩ := hstructured k g x hx
      have hagain := hs'.again f (spells_of_spells hf hg hs'.spells)
      rw [hf'] at hagain
      cases hagain
  intro k value x hx
  cases value with
  | none =>
    rw [hnone ⟨k, none⟩ rfl, Build.bind_eq_ok] at hx
    obtain ⟨a, ha, hx⟩ := hx
    cases ha
    cases hx
    exact hother _
  | some v =>
    cases hv : structured? k v with
    | some y =>
      cases (hsome ⟨k, some v⟩ y hv).symm.trans hx
      obtain ⟨s, hspells, hs⟩ := hstructured k v x hv
      exact ⟨s, hspells, hs.imp fun g hg => hsome ⟨k, some g⟩ x hg⟩
    | none =>
      rw [hnone ⟨k, some v⟩ hv] at hx
      simp only [Build.bind_eq_ok, Build.pure_eq_ok] at hx
      obtain ⟨a, ha, rfl⟩ := hx
      obtain ⟨s, hspells, hs⟩ : ∃ s, a.spellings = [.token (.keyword k), s] ∧
        Reread (fun g => AttributeForms.toAttribute ⟨k, some g⟩ = .ok a) s v :=
        toAttribute_rereads k (some v) a ha
      refine ⟨s, by rw [hother, hspells], hs.spells, hs.legible, fun g hg => ?_⟩
      rw [hnone ⟨k, some g⟩ (hplain k s v g hs.spells hg hv)]
      simp only [Build.bind_eq_ok, Build.pure_eq_ok]
      exact ⟨a, hs.again g hg, rfl⟩

end

def TheoryAttribute.structured? (k : String) (f : Form) : Option TheoryAttribute :=
  if k = ":sorts" then (f.nonemptyItems? SortSymbolDec.ofForm?).map sorts
  else if k = ":funs" then (f.nonemptyItems? FunSymbolDec.ofForm?).map funs
  else none

theorem TheoryAttribute.ofForms_eq (a : AttributeForms) :
    TheoryAttribute.ofForms a = match a.value.bind (structured? a.keyword) with
      | some x => .ok x
      | none => do return other (← a.toAttribute) := by
  obtain ⟨k, value⟩ := a
  unfold TheoryAttribute.ofForms structured?
  cases value <;> grind

theorem TheoryAttribute.rereads :
    AttributeRereads TheoryAttribute.ofForms TheoryAttribute.spellings := by
  refine attributeRereads_structured structured? other
    (fun a x hx => by rw [ofForms_eq, hx]) (fun a ha => by rw [ofForms_eq, ha])
    ?_ (fun a => rfl)
  intro k f x hx
  unfold structured? at hx
  split at hx
  · next hk =>
    cases hk
    obtain ⟨ds, hds, rfl⟩ := Option.map_eq_some_iff.mp hx
    refine ⟨_, rfl, (rereads_nonemptyItems SortSymbolDec.rereads f ds hds).imp fun g hg => ?_⟩
    simp only [structured?, ↓reduceIte, hg, Option.map_some]
  split at hx
  · next hk =>
    cases hk
    obtain ⟨ds, hds, rfl⟩ := Option.map_eq_some_iff.mp hx
    refine ⟨_, rfl, (rereads_nonemptyItems FunSymbolDec.rereads f ds hds).imp fun g hg => ?_⟩
    simp only [structured?, String.reduceEq, ↓reduceIte, hg, Option.map_some]
  · cases hx

def LogicAttribute.structured? (k : String) (f : Form) : Option LogicAttribute :=
  if k = ":theories" then (f.nonemptyItems? Form.symbol?).map theories else none

theorem LogicAttribute.ofForms_eq (a : AttributeForms) :
    LogicAttribute.ofForms a = match a.value.bind (structured? a.keyword) with
      | some x => .ok x
      | none => do return other (← a.toAttribute) := by
  obtain ⟨k, value⟩ := a
  unfold LogicAttribute.ofForms structured?
  cases value <;> grind

theorem LogicAttribute.rereads :
    AttributeRereads LogicAttribute.ofForms LogicAttribute.spellings := by
  refine attributeRereads_structured structured? other
    (fun a x hx => by rw [ofForms_eq, hx]) (fun a ha => by rw [ofForms_eq, ha])
    ?_ (fun a => rfl)
  intro k f x hx
  unfold structured? at hx
  split at hx
  · next hk =>
    cases hk
    obtain ⟨xs, hxs, rfl⟩ := Option.map_eq_some_iff.mp hx
    refine ⟨_, rfl, (rereads_nonemptyItems rereads_symbol? f xs hxs).imp fun g hg => ?_⟩
    simp only [structured?, ↓reduceIte, hg, Option.map_some]
  · cases hx

/-! ### Theories, logics and roots -/

/-- A list of a word, a name and attributes. -/
def Library.MadeOf {α : Type} (build : AttributeForms → Build α) (word name : String)
    (attributes : List α) (f : Form) : Prop :=
  ∃ e e' g gs, f = .list e (.atom e' (.symbol word) :: g :: gs) ∧ g.symbol = .ok name ∧
    CoversBuilt build gs attributes

theorem Library.reread {α : Type} {build : AttributeForms → Build α} {spells : α → List Spelling}
    (h : AttributeRereads build spells) {word name : String} (hword : isSimpleSymbol word = true)
    {attributes : List α} {f : Form} (hf : Library.MadeOf build word name attributes f) :
    Reread (Library.MadeOf build word name attributes)
      (.group (.word word :: .symbol name :: attributes.flatMap spells)) f := by
  obtain ⟨e, e', g, gs, rfl, hname, hattributes⟩ := hf
  refine ((reread_word hword).cons ((rereads_symbol g name hname).cons
    (rereadsAll_covers h gs attributes hattributes))).group.imp ?_
  rintro _ ⟨e, _, rfl, _, _, rfl, ⟨e', rfl⟩, g, gs, rfl, hg, hgs⟩
  exact ⟨e, e', g, gs, rfl, hg, hgs⟩

def Theory.MadeOf (t : Theory) : Form → Prop :=
  Library.MadeOf TheoryAttribute.ofForms "theory" t.name t.attributes

def Logic.MadeOf (l : Logic) : Form → Prop :=
  Library.MadeOf LogicAttribute.ofForms "logic" l.name l.attributes

theorem Theory.ofItems_eq_ok {f : Form} {items : List Form} {t : Theory} {e e' : Extent} :
    Theory.ofItems f items = .ok t ↔ t.MadeOf (.list e (.atom e' (.symbol "theory") :: items)) := by
  cases items with
  | nil => simp [Theory.ofItems, Form.fail, Theory.MadeOf, Library.MadeOf]
  | cons name attributes =>
    simp only [Theory.ofItems, Build.bind_eq_ok, Build.pure_eq_ok, split_eq_ok]
    constructor
    · rintro ⟨as, has, xs, hxs, n, hn, rfl⟩
      exact ⟨e, e', name, attributes, rfl, hn, as, has, hxs⟩
    · rintro ⟨_, _, _, _, ⟨⟩, hn, as, has, hxs⟩
      exact ⟨as, has, _, hxs, _, hn, rfl⟩

theorem Logic.ofItems_eq_ok {f : Form} {items : List Form} {l : Logic} {e e' : Extent} :
    Logic.ofItems f items = .ok l ↔ l.MadeOf (.list e (.atom e' (.symbol "logic") :: items)) := by
  cases items with
  | nil => simp [Logic.ofItems, Form.fail, Logic.MadeOf, Library.MadeOf]
  | cons name attributes =>
    simp only [Logic.ofItems, Build.bind_eq_ok, Build.pure_eq_ok, split_eq_ok]
    constructor
    · rintro ⟨as, has, xs, hxs, n, hn, rfl⟩
      exact ⟨e, e', name, attributes, rfl, hn, as, has, hxs⟩
    · rintro ⟨_, _, _, _, ⟨⟩, hn, as, has, hxs⟩
      exact ⟨as, has, _, hxs, _, hn, rfl⟩

namespace Root

def spellings : Root → List Spelling
  | script commands => commands.map Command.spelling
  | theory t => [t.spelling]
  | logic l => [l.spelling]

/-- Whether forms are those of a root. -/
def MadeOf (fs : List Form) : Root → Prop
  | script commands => List.Forall₂ (Built Command.ofForm) fs commands
  | theory t => ∃ f, fs = [f] ∧ t.MadeOf f
  | logic l => ∃ f, fs = [f] ∧ l.MadeOf f

theorem mapError_eq_ok {α : Type} {x : Build α} {a : α} :
    x.mapError Rejection.malformed = .ok a ↔ x = .ok a := by
  cases x <;> simp [Except.mapError]

theorem alone_eq_ok {what : Library} {build : Build Root} {rest : List Form} {r : Root} :
    alone what build rest = .ok r ↔ rest = [] ∧ build = .ok r := by
  cases rest with
  | nil => simp [alone]
  | cons f rest => simp [alone, Form.fail]

theorem map_eq_ok {α β : Type} {f : α → β} {x : Build α} {b : β} :
    f <$> x = .ok b ↔ ∃ a, x = .ok a ∧ f a = b := by
  cases x <;> simp [Functor.map, Except.map]

theorem madeOf_of_ofForms {n : Nat} {fs : List Form} {r : Root} (h : ofForms n fs = .ok r) :
    r.MadeOf fs := by
  unfold ofForms at h
  split at h
  · next tail f rest hheaded =>
    simp only [mapError_eq_ok, alone_eq_ok, map_eq_ok] at h
    obtain ⟨rfl, t, ht, rfl⟩ := h
    obtain ⟨e, e', rfl⟩ := Form.headed?_eq_some.mp hheaded
    exact ⟨_, rfl, Theory.ofItems_eq_ok.mp ht⟩
  · next tail f rest hheaded =>
    simp only [mapError_eq_ok, alone_eq_ok, map_eq_ok] at h
    obtain ⟨rfl, l, hl, rfl⟩ := h
    obtain ⟨e, e', rfl⟩ := Form.headed?_eq_some.mp hheaded
    exact ⟨_, rfl, Logic.ofItems_eq_ok.mp hl⟩
  · split at h
    · simp only [mapError_eq_ok, map_eq_ok] at h
      obtain ⟨cs, hcs, rfl⟩ := h
      exact Build.mapM_eq_ok.mp hcs
    · cases h

theorem name_ne_library (c : Command) : c.name ≠ "theory" ∧ c.name ≠ "logic" := by
  cases c with
  | plain c => cases c <;> decide
  | _ =>
    rw [Command.name]
    decide

/-- Commands are lists, and none is called `theory` or `logic`. -/
theorem ofForms_script (n : Nat) {fs : List Form} {cs : List Command}
    (h : List.Forall₂ (Built Command.ofForm) fs cs) : ofForms n fs = .ok (script cs) := by
  have hlists : fs.all (·.items?.isSome) = true := by
    induction h with
    | nil => rfl
    | cons hc _ ih =>
      obtain ⟨e, e', tail, rfl, -⟩ := Command.ofForm_eq_ok.mp hc
      exact ih
  have hname : ∀ w tail, fs.head?.bind Form.headed? = some (w, tail) →
      ∃ c : Command, c.name = w := by
    intro w tail hheaded
    cases h with
    | nil => cases hheaded
    | @cons f c fs cs hc _ =>
      obtain ⟨e, e', tail', rfl, -⟩ := Command.ofForm_eq_ok.mp hc
      cases hheaded
      exact ⟨c, rfl⟩
  unfold ofForms
  split
  · next tail _ _ hheaded =>
    obtain ⟨c, hc⟩ := hname _ _ hheaded
    exact absurd hc (name_ne_library c).1
  · next tail _ _ hheaded =>
    obtain ⟨c, hc⟩ := hname _ _ hheaded
    exact absurd hc (name_ne_library c).2
  · rw [if_pos hlists, mapError_eq_ok, map_eq_ok]
    exact ⟨cs, Build.mapM_eq_ok.mpr h, rfl⟩

theorem ofForms_eq_ok {n : Nat} {fs : List Form} {r : Root} :
    ofForms n fs = .ok r ↔ r.MadeOf fs := by
  refine ⟨madeOf_of_ofForms, fun h => ?_⟩
  cases r with
  | theory t =>
    obtain ⟨_, rfl, ht⟩ := h
    obtain ⟨e, e', g, gs, rfl, -⟩ := id ht
    simp only [ofForms, List.head?_cons, Option.bind_some, Form.headed?, Form.symbol?,
      Option.map_some, mapError_eq_ok, alone_eq_ok, map_eq_ok]
    exact ⟨trivial, t, Theory.ofItems_eq_ok.mpr ht, rfl⟩
  | logic l =>
    obtain ⟨_, rfl, hl⟩ := h
    obtain ⟨e, e', g, gs, rfl, -⟩ := id hl
    simp only [ofForms, List.head?_cons, Option.bind_some, Form.headed?, Form.symbol?,
      Option.map_some, mapError_eq_ok, alone_eq_ok, map_eq_ok]
    exact ⟨trivial, l, Logic.ofItems_eq_ok.mpr hl, rfl⟩
  | script cs => exact ofForms_script n h

/-- A root can be read from its spelling, and is built again from every forms that it spells. -/
theorem legible_of_madeOf {fs : List Form} {r : Root} (h : r.MadeOf fs) (hl : Form.AllLegible fs) :
    Spelling.AllLegible r.spellings ∧ ∀ gs, SpellsAll r.spellings gs → r.MadeOf gs := by
  cases r with
  | theory t =>
    obtain ⟨f, rfl, ht⟩ := h
    have hf := Library.reread TheoryAttribute.rereads (by decide) ht
    exact ⟨hf.one.legible hl, hf.one.again⟩
  | logic l =>
    obtain ⟨f, rfl, hlogic⟩ := h
    have hf := Library.reread LogicAttribute.rereads (by decide) hlogic
    exact ⟨hf.one.legible hl, hf.one.again⟩
  | script cs =>
    have h' : List.Forall₂ (Built Command.ofForm) fs cs := h
    clear h
    induction h' with
    | nil => exact ⟨trivial, fun gs hgs => by rw [spellsAll_nil.mp hgs]; exact .nil⟩
    | cons hc _ ih =>
      obtain ⟨f', hlegible, hf'⟩ := Command.exists_reread hc
      obtain ⟨hlegibles, hagain⟩ := ih hl.2
      refine ⟨⟨hf'.legible (hlegible hl.1), hlegibles⟩, fun gs hgs => ?_⟩
      obtain ⟨g, gs, rfl, hg, hgs'⟩ := spellsAll_cons.mp hgs
      exact .cons (hf'.again g hg) (hagain gs hgs')

end Root

end WellSorted
