import WellSorted.Build.Fault
import WellSorted.Proofs.Reading

/-!
# Building again what was written

`Rereads built spell f`: whatever is built from the form `f` is written as `f` is, and is built
again from every form that its spelling spells; its spelling is legible if `f` is. What is spelled
side by side or in parentheses is reread if its parts are.
-/

namespace WellSorted

structure Reread (again : Form → Prop) (spelling : Spelling) (f : Form) : Prop where
  spells : Spells spelling f
  legible : f.Legible → spelling.Legible
  again : ∀ g, Spells spelling g → again g

def Rereads {α : Type} (built : Form → α → Prop) (spell : α → Spelling) (f : Form) : Prop :=
  ∀ a, built f a → Reread (built · a) (spell a) f

/-- The same for what is built from neighbouring forms. -/
structure RereadAll (again : List Form → Prop) (spellings : List Spelling) (fs : List Form) :
    Prop where
  spells : SpellsAll spellings fs
  legible : Form.AllLegible fs → Spelling.AllLegible spellings
  again : ∀ gs, SpellsAll spellings gs → again gs

def RereadsAll {α : Type} (built : List Form → α → Prop) (spells : α → List Spelling)
    (fs : List Form) : Prop :=
  ∀ a, built fs a → RereadAll (built · a) (spells a) fs

/-- The results of a builder. -/
abbrev Built {α β : Type} (build : α → Build β) (a : α) (b : β) : Prop := build a = .ok b

/-- The results of an optional builder. -/
abbrev Found {α β : Type} (build? : α → Option β) (a : α) (b : β) : Prop := build? a = some b

/-! ### Parts and wholes -/

theorem spellsAll_length {ss : List Spelling} {fs : List Form} (h : SpellsAll ss fs) :
    fs.length = ss.length := by
  induction ss generalizing fs with
  | nil => cases spellsAll_nil.mp h; rfl
  | cons s ss ih =>
    obtain ⟨f, rest, rfl, -, hrest⟩ := spellsAll_cons.mp h
    simp [ih hrest]

/-- Whatever is spelled like a list is a list with the same head. -/
theorem exists_list_of_spells {s : Spelling} {e : Extent} {f : Form} {fs : List Form} {g : Form}
    (hf : Spells s (.list e (f :: fs))) (hg : Spells s g) :
    ∃ e' f' fs', g = .list e' (f' :: fs') ∧ f'.symbol? = f.symbol? := by
  cases s with
  | word w => cases hf
  | token t => cases hf
  | group ss =>
    obtain ⟨s, ss, rfl⟩ : ∃ s rest, ss = s :: rest := by
      cases ss with
      | nil => cases hf
      | cons s ss => exact ⟨s, ss, rfl⟩
    obtain ⟨e', _, rfl, hgs⟩ := spells_group.mp hg
    obtain ⟨f', fs', rfl, hf', -⟩ := spellsAll_cons.mp hgs
    exact ⟨e', f', fs', rfl, symbol?_eq_of_spells hf.1 hf'⟩

/-- The symbol that a list starts with. -/
def Form.headSymbol? (f : Form) : Option String := f.headed?.map Prod.fst

theorem headSymbol?_eq_of_spells {s : Spelling} {f g : Form} (hf : Spells s f) (hg : Spells s g) :
    g.headSymbol? = f.headSymbol? := by
  match f, g with
  | .list e (f :: fs), g =>
    obtain ⟨e', f', fs', rfl, h⟩ := exists_list_of_spells hf hg
    simp only [Form.headSymbol?, Form.headed?, h, Option.map_map, Function.comp_def]
  | f, .list e (g :: gs) =>
    obtain ⟨e', g', gs', rfl, h⟩ := exists_list_of_spells hg hf
    simp only [Form.headSymbol?, Form.headed?, h, Option.map_map, Function.comp_def]
  | .atom .., .atom .. => rfl
  | .list _ [], .atom .. => rfl
  | .atom .., .list _ [] => rfl
  | .list _ [], .list _ [] => rfl

section

variable {P Q R : Form → Prop} {Ps Qs : List Form → Prop} {s t u : Spelling} {ss ts : List Spelling}
  {f g h : Form} {fs gs : List Form}

theorem Reread.imp (hf : Reread P s f) (hPQ : ∀ g, P g → Q g) : Reread Q s f :=
  ⟨hf.spells, hf.legible, fun g hg => hPQ g (hf.again g hg)⟩

theorem RereadAll.imp (hfs : RereadAll Ps ss fs) (hPQ : ∀ gs, Ps gs → Qs gs) : RereadAll Qs ss fs :=
  ⟨hfs.spells, hfs.legible, fun gs hgs => hPQ gs (hfs.again gs hgs)⟩

/-- What the head of a list is asked for is the same wherever its spelling is read. -/
theorem Reread.sameHead (hf : Reread P s f) :
    Reread (fun g => P g ∧ g.symbol? = f.symbol? ∧ g.keyword? = f.keyword?) s f :=
  ⟨hf.spells, hf.legible, fun g hg => ⟨hf.again g hg, symbol?_eq_of_spells hf.spells hg,
    keyword?_eq_of_spells hf.spells hg⟩⟩

theorem Reread.sameHeadSymbol (hf : Reread P s f) :
    Reread (fun g => P g ∧ g.headSymbol? = f.headSymbol?) s f :=
  ⟨hf.spells, hf.legible, fun g hg => ⟨hf.again g hg, headSymbol?_eq_of_spells hf.spells hg⟩⟩

theorem RereadAll.sameLength (hfs : RereadAll Ps ss fs) :
    RereadAll (fun gs => Ps gs ∧ gs.length = fs.length) ss fs :=
  ⟨hfs.spells, hfs.legible, fun gs hgs => ⟨hfs.again gs hgs,
    (spellsAll_length hgs).trans (spellsAll_length hfs.spells).symm⟩⟩

theorem reread_word {w : String} (hw : isSimpleSymbol w = true) {e : Extent} :
    Reread (fun g => ∃ e, g = .atom e (.symbol w)) (.word w) (.atom e (.symbol w)) :=
  ⟨rfl, fun _ => Spelling.legible_word hw, fun _ => spells_word.mp⟩

theorem reread_token {t : Token} {e : Extent} :
    Reread (fun g => ∃ e, g = .atom e t) (.token t) (.atom e t) :=
  ⟨rfl, id, fun _ => spells_token.mp⟩

/-- What is true of a token at every extent is true of all that its spelling reads to. -/
theorem reread_atom {t : Token} {e : Extent} (h : ∀ e, P (.atom e t)) :
    Reread P (.token t) (.atom e t) := by
  refine reread_token.imp ?_
  rintro _ ⟨e', rfl⟩
  exact h e'

theorem RereadAll.nil : RereadAll (· = []) [] [] :=
  ⟨trivial, fun _ => trivial, fun _ => spellsAll_nil.mp⟩

theorem Reread.cons (hf : Reread P s f) (hfs : RereadAll Ps ss fs) :
    RereadAll (fun gs => ∃ g rest, gs = g :: rest ∧ P g ∧ Ps rest) (s :: ss) (f :: fs) := by
  refine ⟨⟨hf.spells, hfs.spells⟩, fun hl => ⟨hf.legible hl.1, hfs.legible hl.2⟩, fun gs hgs => ?_⟩
  obtain ⟨g, rest, rfl, hg, hrest⟩ := spellsAll_cons.mp hgs
  exact ⟨g, rest, rfl, hf.again g hg, hfs.again rest hrest⟩

theorem Reread.one (hf : Reread P s f) : RereadAll (fun gs => ∃ g, gs = [g] ∧ P g) [s] [f] := by
  refine (hf.cons .nil).imp ?_
  rintro _ ⟨g, _, rfl, hg, rfl⟩
  exact ⟨g, rfl, hg⟩

theorem Reread.two (hf : Reread P s f) (hg : Reread Q t g) :
    RereadAll (fun gs => ∃ g₁ g₂, gs = [g₁, g₂] ∧ P g₁ ∧ Q g₂) [s, t] [f, g] := by
  refine (hf.cons hg.one).imp ?_
  rintro _ ⟨g₁, _, rfl, h₁, g₂, rfl, h₂⟩
  exact ⟨g₁, g₂, rfl, h₁, h₂⟩

theorem Reread.three (hf : Reread P s f) (hg : Reread Q t g) (hh : Reread R u h) :
    RereadAll (fun gs => ∃ g₁ g₂ g₃, gs = [g₁, g₂, g₃] ∧ P g₁ ∧ Q g₂ ∧ R g₃)
      [s, t, u] [f, g, h] := by
  refine (hf.cons (hg.two hh)).imp ?_
  rintro _ ⟨g₁, _, rfl, h₁, g₂, g₃, rfl, h₂, h₃⟩
  exact ⟨g₁, g₂, g₃, rfl, h₁, h₂, h₃⟩

theorem RereadAll.append (hfs : RereadAll Ps ss fs) (hgs : RereadAll Qs ts gs) :
    RereadAll (fun hs => ∃ hs₁ hs₂, hs = hs₁ ++ hs₂ ∧ Ps hs₁ ∧ Qs hs₂) (ss ++ ts) (fs ++ gs) := by
  refine ⟨spellsAll_append.mpr ⟨fs, gs, rfl, hfs.spells, hgs.spells⟩, fun hl => ?_, fun hs hh => ?_⟩
  · obtain ⟨hl₁, hl₂⟩ := Form.allLegible_append.mp hl
    exact allLegible_append.mpr ⟨hfs.legible hl₁, hgs.legible hl₂⟩
  · obtain ⟨hs₁, hs₂, rfl, h₁, h₂⟩ := spellsAll_append.mp hh
    exact ⟨hs₁, hs₂, rfl, hfs.again hs₁ h₁, hgs.again hs₂ h₂⟩

theorem RereadAll.group (hfs : RereadAll Ps ss fs) {e : Extent} :
    Reread (fun g => ∃ e gs, g = .list e gs ∧ Ps gs) (.group ss) (.list e fs) := by
  refine ⟨hfs.spells, hfs.legible, fun g hg => ?_⟩
  obtain ⟨e', gs, rfl, hgs⟩ := spells_group.mp hg
  exact ⟨e', gs, rfl, hfs.again gs hgs⟩

/-- A list of two items is reread if they are. -/
theorem reread_pair {e : Extent} (hf : Reread P s f) (hg : Reread Q t g)
    (hagain : ∀ e f g, P f → Q g → R (.list e [f, g])) :
    Reread R (.group [s, t]) (.list e [f, g]) := by
  refine (hf.two hg).group.imp ?_
  rintro _ ⟨e', _, rfl, f', g', rfl, hf', hg'⟩
  exact hagain e' f' g' hf' hg'

/-- A list of a word and two items is reread if these are. -/
theorem reread_wordPair {w : String} {e e₁ : Extent} (hw : isSimpleSymbol w = true)
    (hf : Reread P s f) (hg : Reread Q t g)
    (hagain : ∀ e e₁ f g, P f → Q g → R (.list e [.atom e₁ (.symbol w), f, g])) :
    Reread R (.group [.word w, s, t]) (.list e [.atom e₁ (.symbol w), f, g]) := by
  refine ((reread_word hw).three hf hg).group.imp ?_
  rintro _ ⟨e', _, rfl, _, f', g', rfl, ⟨e₂, rfl⟩, hf', hg'⟩
  exact hagain e' e₂ f' g' hf' hg'

end

/-! ### Running builders -/

@[simp] theorem Build.bind_eq_ok {α β : Type} {x : Build α} {k : α → Build β} {b : β} :
    (x >>= k) = .ok b ↔ ∃ a, x = .ok a ∧ k a = .ok b := by
  cases x with
  | error e => exact ⟨nofun, nofun⟩
  | ok a =>
    refine ⟨fun h => ⟨a, rfl, h⟩, ?_⟩
    rintro ⟨_, ⟨⟩, h⟩
    exact h

@[simp] theorem Build.pure_eq_ok {α : Type} {a b : α} : (pure a : Build α) = .ok b ↔ a = b :=
  ⟨fun h => by cases h; rfl, fun h => by rw [h]; rfl⟩

@[simp] theorem Build.toOption_eq_some {α : Type} {x : Build α} {a : α} :
    x.toOption = some a ↔ x = .ok a := by
  cases x <;> simp [Except.toOption]

theorem Build.mapM_eq_ok {α β : Type} {build : α → Build β} {as : List α} {bs : List β} :
    as.mapM build = .ok bs ↔ List.Forall₂ (Built build) as bs := by
  induction as generalizing bs with
  | nil => rw [List.mapM_nil, Build.pure_eq_ok, List.forall₂_nil_left_iff, eq_comm]
  | cons a as ih =>
    simp only [List.mapM_cons, Build.bind_eq_ok, Build.pure_eq_ok, ih]
    constructor
    · rintro ⟨b, hb, bs, hbs, rfl⟩
      exact .cons hb hbs
    · rintro (_ | ⟨hb, hbs⟩)
      exact ⟨_, hb, _, hbs, rfl⟩

theorem mapM_eq_some {α β : Type} {build? : α → Option β} {as : List α} {bs : List β} :
    as.mapM build? = some bs ↔ List.Forall₂ (Found build?) as bs := by
  induction as generalizing bs with
  | nil => rw [List.mapM_nil, Option.pure_def, Option.some.injEq, List.forall₂_nil_left_iff, eq_comm]
  | cons a as ih =>
    simp only [List.mapM_cons, Option.bind_eq_bind, Option.bind_eq_some_iff, Option.pure_def,
      Option.some.injEq, ih]
    constructor
    · rintro ⟨b, hb, bs, hbs, rfl⟩
      exact .cons hb hbs
    · rintro (_ | ⟨hb, hbs⟩)
      exact ⟨_, hb, _, hbs, rfl⟩

section

variable {α : Type} {spell : α → Spelling} {fs : List Form}

theorem rereadsAll_forall₂ {built : Form → α → Prop} (h : ∀ f ∈ fs, Rereads built spell f) :
    RereadsAll (List.Forall₂ built) (·.map spell) fs := by
  intro as has
  induction has with
  | nil => exact RereadAll.nil.imp fun _ h => by rw [h]; exact .nil
  | @cons f a fs as ha _ ih =>
    have hf := h f List.mem_cons_self a ha
    have hfs := ih fun f hf => h f (List.mem_cons_of_mem _ hf)
    refine (hf.cons hfs).imp ?_
    rintro _ ⟨g, gs, rfl, hg, hgs⟩
    exact .cons hg hgs

theorem rereadsAll_mapM {build : Form → Build α} (h : ∀ f ∈ fs, Rereads (Built build) spell f) :
    RereadsAll (Built (·.mapM build)) (·.map spell) fs :=
  fun as has => (rereadsAll_forall₂ h as (Build.mapM_eq_ok.mp has)).imp
    fun _ => Build.mapM_eq_ok.mpr

theorem Form.sizeOf_lt_list {e : Extent} {f : Form} (h : f ∈ fs) :
    sizeOf f < sizeOf (Form.list e fs) := by
  have := List.sizeOf_lt_of_mem h
  rw [Form.list.sizeOf_spec]
  omega

/-- A list of forms that are built one by one. -/
theorem rereads_items {build : Form → Build α} {f : Form}
    (h : ∀ g, sizeOf g < sizeOf f → Rereads (Built build) spell g) :
    Rereads (Built fun f => do (← f.items).mapM build) (fun as => .group (as.map spell)) f := by
  intro as has
  obtain ⟨fs, hfs, has⟩ := Build.bind_eq_ok.mp has
  cases f with
  | atom e t => cases hfs
  | list e fs' =>
    cases hfs
    refine (rereadsAll_mapM (fun g hg => h g (Form.sizeOf_lt_list hg)) as has).group.imp ?_
    rintro _ ⟨e, gs, rfl, hgs⟩
    exact hgs

end

theorem Form.symbol?_eq_some {f : Form} {s : String} :
    f.symbol? = some s ↔ ∃ e, f = .atom e (.symbol s) := by
  constructor
  · intro h
    unfold Form.symbol? at h
    split at h
    · cases h
      exact ⟨_, rfl⟩
    · cases h
  · rintro ⟨e, rfl⟩
    rfl

theorem Form.headed?_eq_some {f : Form} {s : String} {tail : List Form} :
    f.headed? = some (s, tail) ↔ ∃ e e', f = .list e (.atom e' (.symbol s) :: tail) := by
  constructor
  · intro h
    unfold Form.headed? at h
    split at h
    · simp only [Option.map_eq_some_iff, Prod.mk.injEq] at h
      obtain ⟨_, hs, rfl, rfl⟩ := h
      obtain ⟨e', rfl⟩ := Form.symbol?_eq_some.mp hs
      exact ⟨_, e', rfl⟩
    · cases h
  · rintro ⟨e, e', rfl⟩
    rfl

theorem Form.keyword?_eq_some {f : Form} {k : String} :
    f.keyword? = some k ↔ ∃ e, f = .atom e (.keyword k) := by
  constructor
  · intro h
    unfold Form.keyword? at h
    split at h
    · cases h
      exact ⟨_, rfl⟩
    · cases h
  · rintro ⟨e, rfl⟩
    rfl

theorem Form.symbol_eq_ok {f : Form} {s : String} :
    f.symbol = .ok s ↔ ∃ e, f = .atom e (.symbol s) := by
  rw [← Form.symbol?_eq_some, Form.symbol]
  cases f.symbol? <;> simp [Form.fail]

theorem rereads_symbol (f : Form) : Rereads (Built Form.symbol) Spelling.symbol f := by
  intro s hs
  obtain ⟨e, rfl⟩ := Form.symbol_eq_ok.mp hs
  exact reread_token.imp fun _ => Form.symbol_eq_ok.mpr

theorem rereads_symbols (f : Form) :
    Rereads (Built Form.symbols) (fun xs => .group (xs.map Spelling.symbol)) f :=
  rereads_items fun g _ => rereads_symbol g

theorem rereads_keyword (f : Form) : Rereads (Built Form.keyword) (.token <| .keyword ·) f := by
  intro k hk
  unfold Built Form.keyword at hk
  split at hk
  · next k' hk' =>
    cases hk
    obtain ⟨e, rfl⟩ := Form.keyword?_eq_some.mp hk'
    exact reread_atom fun _ => rfl
  · cases hk

theorem rereads_string (f : Form) : Rereads (Built Form.string) (.token <| .string ·) f := by
  intro s hs
  unfold Built Form.string at hs
  split at hs
  · cases hs
    exact reread_atom fun _ => rfl
  · cases hs

theorem rereads_numeral (f : Form) : Rereads (Built Form.numeral) Spelling.numeral f := by
  intro n hn
  unfold Built Form.numeral at hn
  split at hn
  · cases hn
    exact reread_atom fun _ => rfl
  · cases hn

end WellSorted
