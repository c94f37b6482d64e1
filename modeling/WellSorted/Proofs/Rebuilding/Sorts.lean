import WellSorted.Build.Root
import WellSorted.Proofs.Rebuilding.Basic

/-!
# Building sorts and attributes again

Attributes are neighbouring forms. `Covers fs as` says which forms they take; it is what splitting
them computes (`split_eq_ok`), and it carries over to any forms that are spelled the same way.
-/

namespace WellSorted

/-! ### Identifiers and sorts -/

theorem Index.rereads (f : Form) : Rereads (Built Index.ofForm) Index.spelling f := by
  intro i hi
  unfold Built Index.ofForm at hi
  split at hi
  · cases hi
    exact reread_atom fun _ => rfl
  · cases hi
    exact reread_atom fun _ => rfl
  · cases hi

/-- An identifier in parentheses has an index. -/
theorem Identifier.ofItems_eq_ok {e : Extent} {fs : List Form} {i : Identifier} :
    Identifier.ofItems e fs = .ok i ↔ ∃ e₁ e₂ indices, indices ≠ [] ∧
      fs = .atom e₁ (.symbol "_") :: .atom e₂ (.symbol i.symbol) :: indices ∧
      indices.mapM Index.ofForm = .ok i.indices := by
  constructor
  · intro h
    unfold Identifier.ofItems at h
    split at h
    · next head name index indices =>
      split at h
      · next hhead =>
        simp only [Build.bind_eq_ok, Build.pure_eq_ok, Form.symbol_eq_ok] at h
        obtain ⟨s, ⟨e₂, rfl⟩, is, his, rfl⟩ := h
        obtain ⟨e₁, rfl⟩ : ∃ e₁, head = .atom e₁ (.symbol "_") :=
          Form.symbol_eq_ok.mp (by rw [Form.symbol, hhead])
        exact ⟨e₁, e₂, index :: indices, by simp, rfl, his⟩
      · cases h
    · cases h
  · rintro ⟨e₁, e₂, indices, hne, rfl, h⟩
    cases indices with
    | nil => exact absurd rfl hne
    | cons index indices =>
      simp only [Identifier.ofItems, Form.symbol?, ↓reduceIte, Build.bind_eq_ok, Build.pure_eq_ok,
        Form.symbol_eq_ok]
      exact ⟨i.symbol, ⟨e₂, rfl⟩, i.indices, h, rfl⟩

/-- The forms of an indexed identifier. -/
theorem Identifier.spells_indexed {i : Identifier} (h : i.indices ≠ []) {g : Form} :
    Spells i.spelling g ↔ ∃ e e₁ e₂ gs, g = .list e (.atom e₁ (.symbol "_") ::
      .atom e₂ (.symbol i.symbol) :: gs) ∧ SpellsAll (i.indices.map Index.spelling) gs := by
  have hi : i.isIndexed = true := by simpa [Identifier.isIndexed] using h
  simp only [Identifier.spelling, hi, ↓reduceIte, spells_group, spellsAll_cons, spells_word,
    spells_symbol]
  constructor
  · rintro ⟨e, _, rfl, _, _, rfl, ⟨e₁, rfl⟩, _, gs, rfl, ⟨e₂, rfl⟩, hgs⟩
    exact ⟨e, e₁, e₂, gs, rfl, hgs⟩
  · rintro ⟨e, e₁, e₂, gs, rfl, hgs⟩
    exact ⟨e, _, rfl, _, _, rfl, ⟨e₁, rfl⟩, _, gs, rfl, ⟨e₂, rfl⟩, hgs⟩

theorem Identifier.rereads_ofItems {e : Extent} {fs : List Form} {i : Identifier}
    (h : Identifier.ofItems e fs = .ok i) :
    Reread (fun g => ∃ e' g₀ gs, g = .list e' (g₀ :: gs) ∧ g₀.symbol? = some "_" ∧
      Identifier.ofItems e' (g₀ :: gs) = .ok i) i.spelling (.list e fs) := by
  obtain ⟨e₁, e₂, indices, hne, rfl, his⟩ := Identifier.ofItems_eq_ok.mp h
  have hall := rereadsAll_mapM (fun f _ => Index.rereads f) _ his
  have hlength := (Build.mapM_eq_ok.mp his).length_eq
  have hne' : i.indices ≠ [] := by
    intro hnil
    rw [hnil, List.length_nil, List.length_eq_zero_iff] at hlength
    exact hne hlength
  refine ⟨?_, fun hl => ?_, fun g hg => ?_⟩
  · exact (Identifier.spells_indexed hne').mpr ⟨e, e₁, e₂, indices, rfl, hall.spells⟩
  · have hi : i.isIndexed = true := by simpa [Identifier.isIndexed] using hne'
    simp only [Identifier.spelling, hi, ↓reduceIte]
    exact ⟨Spelling.legible_word (by decide), hl.2.1, hall.legible hl.2.2⟩
  · obtain ⟨e', e₁', e₂', gs, rfl, hgs⟩ := (Identifier.spells_indexed hne').mp hg
    refine ⟨e', _, _, rfl, rfl, Identifier.ofItems_eq_ok.mpr
      ⟨e₁', e₂', gs, ?_, rfl, hall.again gs hgs⟩⟩
    rintro rfl
    have := (Build.mapM_eq_ok.mp (hall.again [] hgs)).length_eq
    rw [List.length_nil, eq_comm, List.length_eq_zero_iff] at this
    exact hne' this

theorem Identifier.rereads (f : Form) : Rereads (Built Identifier.ofForm) Identifier.spelling f := by
  intro i hi
  unfold Built Identifier.ofForm at hi
  split at hi
  · cases hi
    exact reread_atom fun _ => rfl
  · cases hi
  · refine (Identifier.rereads_ofItems hi).imp ?_
    rintro g ⟨e', g₀, gs, rfl, -, hgs⟩
    exact hgs

mutual

theorem SmtSort.rereads : ∀ f : Form, Rereads (Built SmtSort.ofForm) SmtSort.spelling f
  | .atom e t => by
    intro s hs
    cases t with
    | symbol name =>
      cases hs
      exact reread_atom fun _ => rfl
    | _ => cases hs
  | .list e [] => by
    intro _ h
    cases h
  | .list e (head :: tail) => by
    intro s hs
    rw [Built, SmtSort.ofForm] at hs
    split at hs
    · simp only [Build.bind_eq_ok, Build.pure_eq_ok] at hs
      obtain ⟨i, hi, rfl⟩ := hs
      refine (Identifier.rereads_ofItems hi).imp ?_
      rintro g ⟨e', g₀, gs, rfl, hhead, hgs⟩
      rw [Built, SmtSort.ofForm, if_pos hhead]
      simp only [Build.bind_eq_ok, Build.pure_eq_ok]
      exact ⟨i, hgs, rfl⟩
    split at hs
    · cases hs
    · next hne htail =>
      simp only [Build.bind_eq_ok, Build.pure_eq_ok] at hs
      obtain ⟨i, hi, ss, hss, rfl⟩ := hs
      have hhead := Identifier.rereads head i hi
      have hargs := SmtSort.rereadsAll tail ss hss
      cases ss with
      | nil =>
        cases spellsAll_nil.mp hargs.spells
        exact absurd rfl htail
      | cons s ss =>
        refine (hhead.sameHead.cons hargs.sameLength).group.imp ?_
        rintro _ ⟨e', _, rfl, g, gs, rfl, ⟨hg, hsymbol, -⟩, hgs, hlength⟩
        rw [← hsymbol] at hne
        rw [List.isEmpty_iff_length_eq_zero, ← hlength, ← List.isEmpty_iff_length_eq_zero] at htail
        rw [Built, SmtSort.ofForm, if_neg hne, if_neg htail]
        simp only [Build.bind_eq_ok, Build.pure_eq_ok]
        exact ⟨i, hg, s :: ss, hgs, rfl⟩

theorem SmtSort.rereadsAll : ∀ fs : List Form,
    RereadsAll (Built SmtSort.ofForms) SmtSort.spellings fs
  | [] => by
    intro ss hss
    cases hss
    exact RereadAll.nil.imp fun _ h => by rw [h]; rfl
  | f :: fs => by
    intro ss hss
    simp only [Built, SmtSort.ofForms, Build.bind_eq_ok, Build.pure_eq_ok] at hss
    obtain ⟨s, hs, ss, hss, rfl⟩ := hss
    refine ((SmtSort.rereads f s hs).cons (SmtSort.rereadsAll fs ss hss)).imp ?_
    rintro _ ⟨g, gs, rfl, hg, hgs⟩
    simp only [Built, SmtSort.ofForms, Build.bind_eq_ok, Build.pure_eq_ok]
    exact ⟨s, hg, ss, hgs, rfl⟩

end

theorem SmtSort.spellings_eq_map (ss : List SmtSort) :
    SmtSort.spellings ss = ss.map SmtSort.spelling := by
  induction ss with
  | nil => rfl
  | cons s ss ih => rw [SmtSort.spellings, ih, List.map_cons]

theorem SmtSort.rereads_items (f : Form) :
    Rereads (Built fun f => f.items >>= SmtSort.ofForms) (fun ss => .group (SmtSort.spellings ss))
      f := by
  intro ss hss
  obtain ⟨fs, hfs, hss⟩ := Build.bind_eq_ok.mp hss
  cases f with
  | atom e t => cases hfs
  | list e fs' =>
    cases hfs
    refine (SmtSort.rereadsAll fs ss hss).group.imp ?_
    rintro _ ⟨e', gs, rfl, hgs⟩
    exact hgs

/-! ### Data and attributes -/

mutual

theorem Datum.rereads : ∀ f : Form, Rereads (fun f d => Datum.ofForm f = d) Datum.spelling f
  | .atom e t => by
    rintro _ rfl
    cases t <;> exact reread_atom fun _ => rfl
  | .list e fs => by
    rintro _ rfl
    refine (Datum.rereadsAll fs _ rfl).group.imp ?_
    rintro _ ⟨e', gs, rfl, hgs⟩
    exact congrArg Datum.list hgs

theorem Datum.rereadsAll : ∀ fs : List Form,
    RereadsAll (fun fs ds => Datum.ofForms fs = ds) Datum.spellings fs
  | [] => by
    rintro _ rfl
    exact RereadAll.nil.imp fun _ h => by rw [h]
  | f :: fs => by
    rintro _ rfl
    refine ((Datum.rereads f _ rfl).cons (Datum.rereadsAll fs _ rfl)).imp ?_
    rintro _ ⟨g, gs, rfl, hg, hgs⟩
    rw [Datum.ofForms, Datum.ofForms, hg, hgs]

end

theorem AttributeValue.rereads (f : Form) :
    Rereads (Built AttributeValue.ofForm) AttributeValue.spelling f := by
  intro v hv
  cases f with
  | atom e t =>
    cases t <;> first
      | (cases hv; exact reread_atom fun _ => rfl)
      | cases hv
  | list e fs =>
    cases hv
    refine (Datum.rereadsAll fs _ rfl).group.imp ?_
    rintro _ ⟨e', gs, rfl, hgs⟩
    rw [Built, AttributeValue.ofForm, hgs]

/-- The forms that attributes take: a keyword each, and a value that is no keyword. -/
inductive Covers : List Form → List AttributeForms → Prop
  | nil : Covers [] []
  | flag {e : Extent} {k : String} {fs : List Form} {as : List AttributeForms} :
      Covers fs as → Covers (.atom e (.keyword k) :: fs) (⟨k, none⟩ :: as)
  | value {e : Extent} {k : String} {v : Form} {fs : List Form} {as : List AttributeForms} :
      v.keyword? = none → Covers fs as →
      Covers (.atom e (.keyword k) :: v :: fs) (⟨k, some v⟩ :: as)

theorem split_eq_ok_of_pending {k : String} {e : Extent} {fs : List Form}
    {as : List AttributeForms} :
    (AttributeForms.split none fs = .ok as ↔ Covers fs as) ∧
      (AttributeForms.split (some k) fs = .ok as ↔ Covers (.atom e (.keyword k) :: fs) as) := by
  induction fs generalizing k e as with
  | nil =>
    constructor
    · exact ⟨fun h => by cases h; exact .nil, fun h => by cases h; rfl⟩
    · refine ⟨fun h => by cases h; exact .flag .nil, fun h => ?_⟩
      cases h with
      | flag h =>
        cases h
        rfl
  | cons f fs ih =>
    cases hk : f.keyword? with
    | none =>
      constructor
      · simp only [AttributeForms.split, hk]
        refine ⟨nofun, fun h => ?_⟩
        cases h <;> cases hk
      · simp only [AttributeForms.split, hk, Build.bind_eq_ok, Build.pure_eq_ok]
        constructor
        · rintro ⟨as, has, rfl⟩
          exact .value hk ((ih (k := k) (e := e)).1.mp has)
        · intro h
          cases h with
          | flag h => cases h <;> cases hk
          | value _ h => exact ⟨_, (ih (k := k) (e := e)).1.mpr h, rfl⟩
    | some k' =>
      obtain ⟨e', rfl⟩ := Form.keyword?_eq_some.mp hk
      constructor
      · simp only [AttributeForms.split, hk]
        exact (ih (k := k') (e := e')).2
      · simp only [AttributeForms.split, hk, Build.bind_eq_ok, Build.pure_eq_ok]
        constructor
        · rintro ⟨as, has, rfl⟩
          exact .flag ((ih (k := k') (e := e')).2.mp has)
        · intro h
          cases h with
          | flag h => exact ⟨_, (ih (k := k') (e := e')).2.mpr h, rfl⟩
          | value hv _ => cases hv

theorem split_eq_ok {fs : List Form} {as : List AttributeForms} :
    AttributeForms.split none fs = .ok as ↔ Covers fs as :=
  (split_eq_ok_of_pending (k := "") (e := ⟨0, 0⟩)).1

/-- What an attribute builds is built again from its keyword and from what its value is spelled
as. -/
def AttributeRereads {α : Type} (build : AttributeForms → Build α) (spells : α → List Spelling) :
    Prop :=
  ∀ k value x, build ⟨k, value⟩ = .ok x →
    match value with
    | none => spells x = [.token (.keyword k)]
    | some v => ∃ s, spells x = [.token (.keyword k), s] ∧
        Reread (fun g => build ⟨k, some g⟩ = .ok x) s v

/-- The attributes that forms cover, each of them built. -/
def CoversBuilt {α : Type} (build : AttributeForms → Build α) (fs : List Form) (xs : List α) : Prop :=
  ∃ as, Covers fs as ∧ as.mapM build = .ok xs

theorem rereadsAll_covers {α : Type} {build : AttributeForms → Build α}
    {spells : α → List Spelling} (h : AttributeRereads build spells) (fs : List Form) :
    RereadsAll (CoversBuilt build) (·.flatMap spells) fs := by
  rintro xs ⟨as, hcovers, hxs⟩
  induction hcovers generalizing xs with
  | nil =>
    cases hxs
    exact RereadAll.nil.imp fun gs hgs => ⟨[], by rw [hgs]; exact .nil, rfl⟩
  | @flag e k fs as _ ih =>
    simp only [List.mapM_cons, Build.bind_eq_ok, Build.pure_eq_ok] at hxs
    obtain ⟨x, hx, xs, hxs, rfl⟩ := hxs
    have hspells : spells x = [.token (.keyword k)] := h k none x hx
    simp only [List.flatMap_cons, hspells, List.singleton_append]
    refine (reread_token.cons (ih xs hxs)).imp ?_
    rintro _ ⟨_, gs, rfl, ⟨e', rfl⟩, as', hcovers', hxs'⟩
    refine ⟨⟨k, none⟩ :: as', .flag hcovers', ?_⟩
    simp only [List.mapM_cons, Build.bind_eq_ok, Build.pure_eq_ok]
    exact ⟨x, hx, xs, hxs', rfl⟩
  | @value e k v fs as hv _ ih =>
    simp only [List.mapM_cons, Build.bind_eq_ok, Build.pure_eq_ok] at hxs
    obtain ⟨x, hx, xs, hxs, rfl⟩ := hxs
    obtain ⟨s, hspells, hvalue⟩ : ∃ s, spells x = [.token (.keyword k), s] ∧
      Reread (fun g => build ⟨k, some g⟩ = .ok x) s v := h k (some v) x hx
    simp only [List.flatMap_cons, hspells, List.cons_append, List.nil_append]
    refine (reread_token.cons (hvalue.sameHead.cons (ih xs hxs))).imp ?_
    rintro _ ⟨_, _, rfl, ⟨e', rfl⟩, g, gs, rfl, ⟨hg, -, hkeyword⟩, as', hcovers', hxs'⟩
    refine ⟨⟨k, some g⟩ :: as', .value (hkeyword.trans hv) hcovers', ?_⟩
    simp only [List.mapM_cons, Build.bind_eq_ok, Build.pure_eq_ok]
    exact ⟨x, hg, xs, hxs', rfl⟩

theorem toAttribute_rereads : AttributeRereads AttributeForms.toAttribute Attribute.spellings := by
  intro k value x hx
  cases value with
  | none =>
    cases hx
    rfl
  | some v =>
    simp only [AttributeForms.toAttribute, Build.bind_eq_ok, Build.pure_eq_ok] at hx
    obtain ⟨a, ha, rfl⟩ := hx
    refine ⟨a.spelling, rfl, (AttributeValue.rereads v a ha).imp fun g hg => ?_⟩
    simp only [AttributeForms.toAttribute, Build.bind_eq_ok, Build.pure_eq_ok]
    exact ⟨a, hg, rfl⟩

theorem splitMapM_eq_ok {α : Type} {build : AttributeForms → Build α} {fs : List Form}
    {xs : List α} :
    (do (← AttributeForms.split none fs).mapM build) = .ok xs ↔ CoversBuilt build fs xs := by
  simp only [Build.bind_eq_ok, split_eq_ok, CoversBuilt]

theorem Attribute.rereadsAll (fs : List Form) :
    RereadsAll (Built Attribute.ofForms) Attribute.allSpellings fs := by
  intro as has
  exact (rereadsAll_covers toAttribute_rereads fs as (splitMapM_eq_ok.mp has)).imp
    fun _ => splitMapM_eq_ok.mpr

theorem Attribute.single_eq_ok {e : Extent} {fs : List Form} {a : Attribute} :
    Attribute.single e fs = .ok a ↔ CoversBuilt AttributeForms.toAttribute fs [a] := by
  simp only [Attribute.single, Build.bind_eq_ok, split_eq_ok, CoversBuilt]
  constructor
  · rintro ⟨as, has, h⟩
    refine ⟨as, has, ?_⟩
    split at h
    · simp only [List.mapM_cons, List.mapM_nil, Build.bind_eq_ok, Build.pure_eq_ok]
      exact ⟨a, h, [], rfl, rfl⟩
    · cases h
  · rintro ⟨as, has, h⟩
    rw [Build.mapM_eq_ok] at h
    obtain _ | ⟨ha, _ | _⟩ := h
    exact ⟨_, has, ha⟩

end WellSorted
