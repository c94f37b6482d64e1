import WellSorted.Proofs.Passages
import WellSorted.Proofs.RoundTrip
import WellSorted.Source.Layout

/-!
# Phrases and the forms they were built from

The phrases of a root are all sorts, terms and commands in it, each at its spot. A spot leads to a
form of the source (`Spot.Leads`), and every phrase was built from the form that its spot leads to
(`Root.allMade`): one lemma for each construct, along the items of its form.
-/

namespace WellSorted

/-- What can be parsed on its own and can stand within a root. -/
inductive Phrase where
  | sort (s : SmtSort)
  | term (t : Term)
  | command (c : Command)
deriving DecidableEq

/-! ### The phrases of a root -/

/-- The phrases of some parts, one after the other. -/
def Phrase.each {α : Type} (phrases : Spot → α → List (Spot × Phrase)) (parts : List (Spot × α)) :
    List (Spot × Phrase) :=
  parts.flatMap fun part => phrases part.1 part.2

open Phrase (each)

mutual

def SmtSort.phrases (s : Spot) : SmtSort → List (Spot × Phrase)
  | mk head args => (s, .sort (mk head args)) :: phrasesFrom s 1 args

/-- The phrases of sorts that are built from neighbouring items, which start at item `i`. -/
def SmtSort.phrasesFrom (s : Spot) (i : Nat) : List SmtSort → List (Spot × Phrase)
  | [] => []
  | t :: ts => t.phrases (s.item i) ++ phrasesFrom s (i + 1) ts

end

def QualIdentifier.phrases (s : Spot) (q : QualIdentifier) : List (Spot × Phrase) :=
  match q.ascription with
  | none => []
  | some sort => sort.phrases (QualIdentifier.sortSpot s)

def SortedVar.phrases (s : Spot) (v : SortedVar) : List (Spot × Phrase) :=
  v.sort.phrases (SortedVar.sortSpot s)

def Pattern.phrases (s : Spot) (p : Pattern) : List (Spot × Phrase) :=
  match p.sort? with
  | none => []
  | some sort => sort.phrases (p.sortSpot s)

namespace Term

mutual

/-- A term, and what stands within it. -/
def phrases (s : Spot) : Term → List (Spot × Phrase)
  | constant c => [(s, .term (constant c))]
  | ident q => (s, .term (ident q)) :: q.phrases s
  | app q args => (s, .term (app q args)) :: (q.phrases (s.item 0) ++ phrasesFrom s 1 args)
  | letIn bs body =>
    (s, .term (letIn bs body)) :: (bindingPhrases (s.item 1) 0 bs ++ body.phrases (s.item 2))
  | quantified q vars body =>
    (s, .term (quantified q vars body)) ::
      (each SortedVar.phrases ((s.item 1).along 0 vars) ++ body.phrases (s.item 2))
  | matching t arms =>
    (s, .term (matching t arms)) :: (t.phrases (s.item 1) ++ armPhrases (s.item 2) 0 arms)
  | annotated t as => (s, .term (annotated t as)) :: t.phrases (s.item 1)

def phrasesFrom (s : Spot) (i : Nat) : List Term → List (Spot × Phrase)
  | [] => []
  | t :: ts => t.phrases (s.item i) ++ phrasesFrom s (i + 1) ts

def bindingPhrases (s : Spot) (i : Nat) : List (String × Term) → List (Spot × Phrase)
  | [] => []
  | (_, t) :: bs => t.phrases ((s.item i).item 1) ++ bindingPhrases s (i + 1) bs

def armPhrases (s : Spot) (i : Nat) : List (Pattern × Term) → List (Spot × Phrase)
  | [] => []
  | (p, t) :: arms =>
    p.phrases ((s.item i).item 0) ++ t.phrases ((s.item i).item 1) ++ armPhrases s (i + 1) arms

end

end Term

def ConstructorDec.phrases (s : Spot) (c : ConstructorDec) : List (Spot × Phrase) :=
  each SortedVar.phrases (c.selectorSpots s)

def DatatypeDec.phrases (s : Spot) (d : DatatypeDec) : List (Spot × Phrase) :=
  each ConstructorDec.phrases (d.constructorSpots s)

/-- The phrases of a function declaration that starts at item `i` of `s`. -/
def FunctionDec.phrases (i : Nat) (s : Spot) (d : FunctionDec) : List (Spot × Phrase) :=
  each SortedVar.phrases (d.varSpots s i) ++ d.result.phrases (s.item (i + 2))

namespace Command

/-- What stands within a command. -/
def parts (s : Spot) : Command → List (Spot × Phrase)
  | assert t => t.phrases (s.item 1)
  | checkSatAssuming ts | getValue ts => Term.phrasesFrom (s.item 1) 0 ts
  | declareConst _ sort => sort.phrases (s.item 2)
  | declareDatatype _ dec => dec.phrases (s.item 2)
  | declareDatatypes _ decs => each DatatypeDec.phrases ((s.item 2).along 0 decs)
  | declareFun _ args result =>
    SmtSort.phrasesFrom (s.item 2) 0 args ++ result.phrases (s.item 3)
  | defineConst _ sort body => sort.phrases (s.item 2) ++ body.phrases (s.item 3)
  | defineFun dec body | defineFunRec dec body => dec.phrases 1 s ++ body.phrases (s.item 4)
  | defineFunsRec decs bodies =>
    each (FunctionDec.phrases 0) ((s.item 1).along 0 decs) ++
      Term.phrasesFrom (s.item 2) 0 bodies
  | defineSort _ _ sort => sort.phrases (s.item 3)
  | declareSort _ _ | echo _ | getInfo _ | getOption _ | pop _ | push _ | reset | setInfo _
  | setLogic _ | setOption _ | plain _ => []

def phrases (s : Spot) (c : Command) : List (Spot × Phrase) := (s, .command c) :: c.parts s

end Command

def FunSymbolDec.phrases (s : Spot) (d : FunSymbolDec) : List (Spot × Phrase) :=
  each SmtSort.phrases (d.signatureSpots s)

def TheoryAttribute.phrases (s : Spot) : TheoryAttribute → List (Spot × Phrase)
  | funs decs => each FunSymbolDec.phrases (s.next.along 0 decs)
  | sorts _ | other _ => []

def Theory.phrases (s : Spot) (t : Theory) : List (Spot × Phrase) :=
  each TheoryAttribute.phrases (t.attributeSpots s)

/-- All sorts, terms and commands of a root; a logic has none. -/
def Root.phrases (source : Source) : Root → List (Spot × Phrase)
  | script cs => each Command.phrases ((Spot.top source).along 0 cs)
  | theory t => t.phrases ((Spot.top source).item 0)
  | logic _ => []

/-! ### Spots and forms -/

namespace Form

theorem descend_append (f : Form) (path : List Nat) (i : Nat) :
    f.descend (path ++ [i]) = (f.descend path).bind fun g => (g.items?.getD [])[i]? := by
  induction path generalizing f with
  | nil => simp [descend]
  | cons j path ih =>
    rw [List.cons_append, descend, descend, Option.bind_assoc]
    exact Option.bind_congr fun g _ => ih g

theorem Within.of_mem {f g : Form} {fs : List Form} (hg : g ∈ fs) (hf : f.Within [g]) :
    f.Within fs := by
  induction fs with
  | nil => cases hg
  | cons h fs ih =>
    rcases List.mem_cons.mp hg with rfl | hg
    · cases hf with
      | head => exact .head
      | inner hf => exact .inner hf
      | tail hf => cases hf
    · exact .tail (ih hg)

theorem within_of_descend {f g : Form} {path : List Nat} (h : g.descend path = some f) :
    f.Within [g] := by
  induction path generalizing g with
  | nil =>
    cases h
    exact .head
  | cons i path ih =>
    obtain ⟨item, hitem, hpath⟩ := Option.bind_eq_some_iff.mp h
    cases g with
    | atom e t => cases hitem
    | list e items => exact .inner (.of_mem (List.mem_of_getElem? hitem) (ih hpath))

end Form

namespace Source

theorem form?_top (src : Source) (i : Nat) : src.form? [i] = src.forms[i]? := by
  simp [form?, Form.descend]

theorem form?_item {src : Source} {a : Address} {f : Form} (h : src.form? a = some f) (i : Nat) :
    src.form? (i :: a) = (f.items?.getD [])[i]? := by
  unfold form? at h ⊢
  rw [List.reverse_cons]
  split at h
  · cases h
  · next j path hpath =>
    obtain ⟨g, hg, hf⟩ := Option.bind_eq_some_iff.mp h
    rw [hpath, List.cons_append]
    simp only [hg, Option.bind_some, Form.descend_append, hf]

theorem within_of_form? {src : Source} {a : Address} {f : Form} (h : src.form? a = some f) :
    f.Within src.forms := by
  unfold form? at h
  split at h
  · cases h
  · next i path _ =>
    obtain ⟨g, hg, h⟩ := Option.bind_eq_some_iff.mp h
    exact .of_mem (List.mem_of_getElem? hg) (Form.within_of_descend h)

end Source

namespace Spot

/-- A spot leads to a form of a source. -/
structure Leads (src : Source) (s : Spot) (f : Form) : Prop where
  source : s.source = src
  form : src.form? s.address = some f

/-- The items of a spot, from a given number on, lead to some forms. -/
def LeadsFrom (src : Source) (s : Spot) (i : Nat) : List Form → Prop
  | [] => True
  | f :: fs => (s.item i).Leads src f ∧ s.LeadsFrom src (i + 1) fs

section

variable {src : Source} {s : Spot} {i : Nat} {f : Form} {fs gs : List Form}

theorem leadsFrom_of_getElem? (h : ∀ k f, fs[k]? = some f → (s.item (i + k)).Leads src f) :
    s.LeadsFrom src i fs := by
  induction fs generalizing i with
  | nil => trivial
  | cons f fs ih =>
    refine ⟨h 0 f rfl, ih fun k g hk => ?_⟩
    rw [Nat.add_assoc, Nat.add_comm 1]
    exact h (k + 1) g hk

theorem Leads.extent (h : s.Leads src f) : s.extent = f.extent := by
  rw [Spot.extent, Source.extent, h.source, h.form]
  rfl

/-- A list leads on to its items. -/
theorem Leads.items {e : Extent} (h : s.Leads src (.list e fs)) : s.LeadsFrom src 0 fs := by
  refine leadsFrom_of_getElem? fun k f hk => ⟨h.source, ?_⟩
  rw [Nat.zero_add]
  exact (Source.form?_item h.form k).trans hk

theorem Leads.of_items (h : s.Leads src f) (hfs : f.items = .ok fs) : s.LeadsFrom src 0 fs := by
  cases f with
  | atom e t => cases hfs
  | list e items =>
    cases hfs
    exact h.items

theorem leadsFrom_top : (top src).LeadsFrom src 0 src.forms := by
  refine leadsFrom_of_getElem? fun k f hk => ⟨rfl, ?_⟩
  rw [Nat.zero_add]
  exact (Source.form?_top src k).trans hk

theorem leadsFrom_append :
    s.LeadsFrom src i (fs ++ gs) ↔ s.LeadsFrom src i fs ∧ s.LeadsFrom src (i + fs.length) gs := by
  induction fs generalizing i with
  | nil => simp [LeadsFrom]
  | cons f fs ih =>
    rw [List.cons_append, LeadsFrom, LeadsFrom, ih, and_assoc, List.length_cons, Nat.add_assoc,
      Nat.add_comm 1]

end

end Spot

/-! ### Phrases and forms -/

namespace Phrase

def MadeOf (f : Form) : Phrase → Prop
  | sort s => SmtSort.ofForm f = .ok s
  | term t => Term.ofForm f = .ok t
  | command c => Command.ofForm f = .ok c

/-- Every phrase is made of the form that its spot leads to. -/
def AllMade (src : Source) (xs : List (Spot × Phrase)) : Prop :=
  ∀ x ∈ xs, ∃ f, x.1.Leads src f ∧ x.2.MadeOf f

section

variable {src : Source} {s : Spot} {i : Nat} {f : Form} {xs ys : List (Spot × Phrase)}

theorem AllMade.nil : AllMade src [] := nofun

theorem AllMade.cons {p : Phrase} (hs : s.Leads src f) (hp : p.MadeOf f) (h : AllMade src xs) :
    AllMade src ((s, p) :: xs) :=
  List.forall_mem_cons.mpr ⟨⟨f, hs, hp⟩, h⟩

theorem AllMade.append (hxs : AllMade src xs) (hys : AllMade src ys) : AllMade src (xs ++ ys) :=
  List.forall_mem_append.mpr ⟨hxs, hys⟩

/-- Parts that are made of neighbouring forms. -/
theorem AllMade.along {α : Type} {made : Form → α → Prop} {fs : List Form} {as : List α}
    {phrases : Spot → α → List (Spot × Phrase)} (hfs : s.LeadsFrom src i fs)
    (has : List.Forall₂ made fs as)
    (h : ∀ s f a, s.Leads src f → made f a → AllMade src (phrases s a)) :
    AllMade src (each phrases (s.along i as)) := by
  induction has generalizing i with
  | nil => exact .nil
  | cons ha _ ih =>
    rw [Spot.along_cons, each, List.flatMap_cons]
    exact (h _ _ _ hfs.1 ha).append (ih hfs.2)

/-- Parts that are made of the items of a list. -/
theorem AllMade.items {α : Type} {build : Form → Build α} {as : List α}
    {phrases : Spot → α → List (Spot × Phrase)} (hs : s.Leads src f)
    (has : (f.items >>= (·.mapM build)) = .ok as)
    (h : ∀ s f a, s.Leads src f → Built build f a → AllMade src (phrases s a)) :
    AllMade src (each phrases (s.along 0 as)) := by
  obtain ⟨fs, hfs, has⟩ := Build.bind_eq_ok.mp has
  exact .along (hs.of_items hfs) (Build.mapM_eq_ok.mp has) h

end

end Phrase

open Phrase (AllMade)

section

variable {src : Source} {s : Spot} {i : Nat} {f : Form} {fs : List Form}

/-! ### Sorts -/

theorem SmtSort.ofForms_eq_ok {ts : List SmtSort} :
    SmtSort.ofForms fs = .ok ts ↔ List.Forall₂ (Built SmtSort.ofForm) fs ts := by
  rw [← Build.mapM_eq_ok]
  induction fs generalizing ts with
  | nil => rfl
  | cons f fs ih =>
    simp only [SmtSort.ofForms, List.mapM_cons, Build.bind_eq_ok, Build.pure_eq_ok, ih]

/-- The arguments of a sort are built from the items after its head. -/
theorem SmtSort.args_of_ofForm {head : Identifier} {args : List SmtSort}
    (h : SmtSort.ofForm f = .ok (mk head args)) :
    args = [] ∨ ∃ e g gs, f = .list e (g :: gs) ∧ List.Forall₂ (Built SmtSort.ofForm) gs args := by
  unfold SmtSort.ofForm at h
  split at h
  · cases h
    exact .inl rfl
  · cases h
  · cases h
  · next e g gs =>
    split at h
    · simp only [Build.bind_eq_ok, Build.pure_eq_ok] at h
      obtain ⟨_, -, ⟨⟩⟩ := h
      exact .inl rfl
    split at h
    · cases h
    · simp only [Build.bind_eq_ok, Build.pure_eq_ok] at h
      obtain ⟨_, -, _, hargs, ⟨⟩⟩ := h
      exact .inr ⟨e, g, gs, rfl, SmtSort.ofForms_eq_ok.mp hargs⟩

mutual

theorem SmtSort.allMade : ∀ {t : SmtSort} {s : Spot} {f : Form}, s.Leads src f →
    SmtSort.ofForm f = .ok t → AllMade src (t.phrases s)
  | mk head args, s, f, hs, ht => by
    refine .cons hs ht ?_
    rcases SmtSort.args_of_ofForm ht with rfl | ⟨e, g, gs, rfl, hargs⟩
    · exact .nil
    · exact SmtSort.allMade_from hs.items.2 hargs

theorem SmtSort.allMade_from : ∀ {ts : List SmtSort} {s : Spot} {i : Nat} {fs : List Form},
    s.LeadsFrom src i fs → List.Forall₂ (Built SmtSort.ofForm) fs ts →
      AllMade src (SmtSort.phrasesFrom s i ts)
  | [], _, _, _, _, _ => .nil
  | _ :: _, _, _, _ :: _, hfs, .cons ht hts =>
    (SmtSort.allMade hfs.1 ht).append (SmtSort.allMade_from hfs.2 hts)

end

theorem SmtSort.allMade_items {ts : List SmtSort} (hs : s.Leads src f)
    (hts : (f.items >>= SmtSort.ofForms) = .ok ts) :
    AllMade src (SmtSort.phrasesFrom s 0 ts) := by
  obtain ⟨fs, hfs, hts⟩ := Build.bind_eq_ok.mp hts
  exact SmtSort.allMade_from (hs.of_items hfs) (SmtSort.ofForms_eq_ok.mp hts)

/-! ### Terms -/

theorem QualIdentifier.allMade {q : QualIdentifier} (hs : s.Leads src f)
    (hq : QualIdentifier.ofForm f = .ok q) : AllMade src (q.phrases s) := by
  unfold QualIdentifier.ofForm at hq
  split at hq
  · split at hq
    · split at hq
      · simp only [Build.bind_eq_ok, Build.pure_eq_ok] at hq
        obtain ⟨_, -, sort, hsort, rfl⟩ := hq
        exact SmtSort.allMade hs.items.2.2.1 hsort
      · cases hq
    · simp only [Build.bind_eq_ok, Build.pure_eq_ok] at hq
      obtain ⟨_, -, rfl⟩ := hq
      exact .nil
  · simp only [Build.bind_eq_ok, Build.pure_eq_ok] at hq
    obtain ⟨_, -, rfl⟩ := hq
    exact .nil

theorem SortedVar.allMade {v : SortedVar} (hs : s.Leads src f) (hv : SortedVar.ofForm f = .ok v) :
    AllMade src (v.phrases s) := by
  unfold SortedVar.ofForm at hv
  split at hv
  · simp only [Build.bind_eq_ok, Build.pure_eq_ok] at hv
    obtain ⟨_, -, sort, hsort, rfl⟩ := hv
    exact SmtSort.allMade hs.items.2.1 hsort
  · cases hv

/-- What the sort of a pattern is built from; if a constructor is applied, it stands in the head. -/
def Pattern.SortMadeOf (f : Form) : Pattern → Prop
  | symbol _ | applied _ none _ => True
  | qualified _ sort => ∃ e g h k, f = .list e [g, h, k] ∧ SmtSort.ofForm k = .ok sort
  | applied ctor (some sort) _ =>
    ∃ e g gs, f = .list e (g :: gs) ∧ Pattern.ofForm g = .ok (qualified ctor sort)

theorem Pattern.sortMadeOf {p : Pattern} (hp : Pattern.ofForm f = .ok p) : p.SortMadeOf f := by
  cases f with
  | atom e token =>
    cases token <;> cases hp
    trivial
  | list e items =>
    cases items with
    | nil => cases hp
    | cons head tail =>
      rw [Pattern.ofForm_list] at hp
      split at hp
      · split at hp
        · simp only [Build.bind_eq_ok, Build.pure_eq_ok] at hp
          obtain ⟨_, -, _, hsort, rfl⟩ := hp
          exact ⟨_, _, _, _, rfl, hsort⟩
        · cases hp
      split at hp
      · cases hp
      · obtain ⟨q, hq, hp⟩ := Build.bind_eq_ok.mp hp
        cases q with
        | symbol ctor =>
          simp only [Pattern.headOf, Build.bind_eq_ok, Build.pure_eq_ok] at hp
          obtain ⟨_, -, rfl⟩ := hp
          trivial
        | qualified ctor sort =>
          simp only [Pattern.headOf, Build.bind_eq_ok, Build.pure_eq_ok] at hp
          obtain ⟨_, -, rfl⟩ := hp
          exact ⟨_, _, _, rfl, hq⟩
        | applied => cases hp

theorem Pattern.allMade {p : Pattern} (hs : s.Leads src f) (hp : Pattern.ofForm f = .ok p) :
    AllMade src (p.phrases s) := by
  match p, Pattern.sortMadeOf hp with
  | symbol _, _ | applied _ none _, _ => exact .nil
  | qualified ctor sort, ⟨e, g, h, k, hf, hsort⟩ =>
    subst hf
    exact SmtSort.allMade hs.items.2.2.1 hsort
  | applied ctor (some sort) args, ⟨e, g, gs, hf, hg⟩ =>
    subst hf
    obtain ⟨e', h, h', k, rfl, hsort⟩ := Pattern.sortMadeOf hg
    exact SmtSort.allMade hs.items.1.items.2.2.1 hsort

namespace Term

/-- What the parts of a term are built from. -/
def PartsMadeOf (f : Form) : Term → Prop
  | constant _ => True
  | ident q => QualIdentifier.ofForm f = .ok q
  | app q args => ∃ e g gs, f = .list e (g :: gs) ∧ QualIdentifier.ofForm g = .ok q ∧
      List.Forall₂ (Built ofForm) gs args
  | letIn bs body => ∃ e g bindings h, f = .list e [g, bindings, h] ∧
      bindingsOfForm bindings = .ok bs ∧ ofForm h = .ok body
  | quantified _ vars body => ∃ e g vs h, f = .list e [g, vs, h] ∧
      SortedVar.listOfForm vs = .ok vars ∧ ofForm h = .ok body
  | matching t arms => ∃ e g h cases, f = .list e [g, h, cases] ∧ ofForm h = .ok t ∧
      armsOfForm cases = .ok arms
  | annotated t _ => ∃ e g h gs, f = .list e (g :: h :: gs) ∧ ofForm h = .ok t

theorem partsMadeOf {t : Term} (ht : ofForm f = .ok t) : t.PartsMadeOf f := by
  cases f with
  | atom e token =>
    cases token <;> cases ht <;> trivial
  | list e items =>
    cases items with
    | nil => cases ht
    | cons head tail =>
      cases hhead : TermHead.ofForm head with
      | identifier =>
        simp only [ofForm_list hhead, ofHead, Build.bind_eq_ok, Build.pure_eq_ok] at ht
        obtain ⟨q, hq, rfl⟩ := ht
        exact hq
      | letIn =>
        simp only [ofForm_list hhead, ofHead.eq_def] at ht
        split at ht
        · simp only [Build.bind_eq_ok, Build.pure_eq_ok] at ht
          obtain ⟨bs, hbs, b, hb, rfl⟩ := ht
          exact ⟨_, _, _, _, rfl, hbs, hb⟩
        · cases ht
      | quantifier q =>
        simp only [ofForm_list hhead, ofHead.eq_def] at ht
        split at ht
        · simp only [Build.bind_eq_ok, Build.pure_eq_ok] at ht
          obtain ⟨vs, hvs, b, hb, rfl⟩ := ht
          exact ⟨_, _, _, _, rfl, hvs, hb⟩
        · cases ht
      | matching =>
        simp only [ofForm_list hhead, ofHead.eq_def] at ht
        split at ht
        · simp only [Build.bind_eq_ok, Build.pure_eq_ok] at ht
          obtain ⟨as, has, t, ht, rfl⟩ := ht
          exact ⟨_, _, _, _, rfl, ht, has⟩
        · cases ht
      | annotated =>
        simp only [ofForm_list hhead, ofHead.eq_def] at ht
        split at ht
        · cases ht
        · simp only [Build.bind_eq_ok, Build.pure_eq_ok] at ht
          obtain ⟨t, ht, as, -, rfl⟩ := ht
          exact ⟨_, _, _, _, rfl, ht⟩
      | function =>
        simp only [ofForm_list hhead, ofHead.eq_def] at ht
        split at ht
        · cases ht
        · simp only [Build.bind_eq_ok, Build.pure_eq_ok, ofForms_eq_mapM, Build.mapM_eq_ok] at ht
          obtain ⟨q, hq, args, hargs, rfl⟩ := ht
          exact ⟨_, _, _, rfl, hq, hargs⟩

theorem bindingOfForm_eq_ok {x : String} {t : Term} (h : bindingOfForm f = .ok (x, t)) :
    ∃ e g h, f = .list e [g, h] ∧ ofForm h = .ok t := by
  unfold bindingOfForm at h
  split at h
  · simp only [Build.bind_eq_ok, Build.pure_eq_ok, Prod.mk.injEq] at h
    obtain ⟨_, -, _, ht, rfl, rfl⟩ := h
    exact ⟨_, _, _, rfl, ht⟩
  · cases h

theorem armOfForm_eq_ok {p : Pattern} {t : Term} (h : armOfForm f = .ok (p, t)) :
    ∃ e g h, f = .list e [g, h] ∧ Pattern.ofForm g = .ok p ∧ ofForm h = .ok t := by
  unfold armOfForm at h
  split at h
  · simp only [Build.bind_eq_ok, Build.pure_eq_ok, Prod.mk.injEq] at h
    obtain ⟨_, hp, _, ht, rfl, rfl⟩ := h
    exact ⟨_, _, _, rfl, hp, ht⟩
  · cases h

mutual

theorem allMade : ∀ {t : Term} {s : Spot} {f : Form}, s.Leads src f → ofForm f = .ok t →
    AllMade src (t.phrases s)
  | constant c, s, f, hs, ht => .cons hs ht .nil
  | ident q, s, f, hs, ht => .cons hs ht (QualIdentifier.allMade hs (partsMadeOf ht))
  | app q args, s, f, hs, ht => by
    refine .cons hs ht ?_
    obtain ⟨e, g, gs, rfl, hq, hargs⟩ := partsMadeOf ht
    exact (QualIdentifier.allMade hs.items.1 hq).append (allMade_from hs.items.2 hargs)
  | letIn bs body, s, f, hs, ht => by
    refine .cons hs ht ?_
    obtain ⟨e, g, bindings, h, rfl, hbs, hbody⟩ := partsMadeOf ht
    rw [bindingsOfForm_eq] at hbs
    obtain ⟨gs, hgs, hbs⟩ := Build.bind_eq_ok.mp hbs
    exact (allMade_bindings (hs.items.2.1.of_items hgs) (Build.mapM_eq_ok.mp hbs)).append
      (allMade hs.items.2.2.1 hbody)
  | quantified q vars body, s, f, hs, ht => by
    refine .cons hs ht ?_
    obtain ⟨e, g, vs, h, rfl, hvars, hbody⟩ := partsMadeOf ht
    exact (AllMade.items hs.items.2.1 hvars fun _ _ _ => SortedVar.allMade).append
      (allMade hs.items.2.2.1 hbody)
  | matching t arms, s, f, hs, ht => by
    refine .cons hs ht ?_
    obtain ⟨e, g, h, cases, rfl, hterm, harms⟩ := partsMadeOf ht
    rw [armsOfForm_eq] at harms
    obtain ⟨gs, hgs, harms⟩ := Build.bind_eq_ok.mp harms
    exact (allMade hs.items.2.1 hterm).append
      (allMade_arms (hs.items.2.2.1.of_items hgs) (Build.mapM_eq_ok.mp harms))
  | annotated t as, s, f, hs, ht => by
    refine .cons hs ht ?_
    obtain ⟨e, g, h, gs, rfl, hterm⟩ := partsMadeOf ht
    exact allMade hs.items.2.1 hterm

theorem allMade_from : ∀ {ts : List Term} {s : Spot} {i : Nat} {fs : List Form},
    s.LeadsFrom src i fs → List.Forall₂ (Built ofForm) fs ts → AllMade src (phrasesFrom s i ts)
  | [], _, _, _, _, _ => .nil
  | _ :: _, _, _, _ :: _, hfs, .cons ht hts =>
    (allMade hfs.1 ht).append (allMade_from hfs.2 hts)

theorem allMade_bindings : ∀ {bs : List (String × Term)} {s : Spot} {i : Nat} {fs : List Form},
    s.LeadsFrom src i fs → List.Forall₂ (Built bindingOfForm) fs bs →
      AllMade src (bindingPhrases s i bs)
  | [], _, _, _, _, _ => .nil
  | (x, t) :: bs, s, i, f :: fs, hfs, .cons hb hbs => by
    obtain ⟨e, g, h, rfl, ht⟩ := bindingOfForm_eq_ok hb
    exact (allMade hfs.1.items.2.1 ht).append (allMade_bindings hfs.2 hbs)

theorem allMade_arms : ∀ {arms : List (Pattern × Term)} {s : Spot} {i : Nat} {fs : List Form},
    s.LeadsFrom src i fs → List.Forall₂ (Built armOfForm) fs arms →
      AllMade src (armPhrases s i arms)
  | [], _, _, _, _, _ => .nil
  | (p, t) :: arms, s, i, f :: fs, hfs, .cons ha harms => by
    obtain ⟨e, g, h, rfl, hp, ht⟩ := armOfForm_eq_ok ha
    exact ((Pattern.allMade hfs.1.items.1 hp).append (allMade hfs.1.items.2.1 ht)).append
      (allMade_arms hfs.2 harms)

end

theorem allMade_listOfForm {ts : List Term} (hs : s.Leads src f)
    (hts : listOfForm f = .ok ts) : AllMade src (phrasesFrom s 0 ts) := by
  obtain ⟨fs, hfs, hts⟩ := Build.bind_eq_ok.mp hts
  rw [ofForms_eq_mapM] at hts
  exact allMade_from (hs.of_items hfs) (Build.mapM_eq_ok.mp hts)

end Term

/-! ### Commands -/

theorem ConstructorDec.allMade {c : ConstructorDec} (hs : s.Leads src f)
    (hc : ConstructorDec.ofForm f = .ok c) : AllMade src (c.phrases s) := by
  unfold ConstructorDec.ofForm at hc
  split at hc
  · simp only [Build.bind_eq_ok, Build.pure_eq_ok, Build.mapM_eq_ok] at hc
    obtain ⟨_, -, selectors, hselectors, rfl⟩ := hc
    exact .along hs.items.2 hselectors fun _ _ _ => SortedVar.allMade
  · cases hc

theorem DatatypeDec.allMade {d : DatatypeDec} (hs : s.Leads src f)
    (hd : DatatypeDec.ofForm f = .ok d) : AllMade src (d.phrases s) := by
  unfold DatatypeDec.ofForm at hd
  split at hd
  · next tail hheaded =>
    obtain ⟨e, e', rfl⟩ := Form.headed?_eq_some.mp hheaded
    split at hd
    · obtain ⟨params, -, hd⟩ := Build.bind_eq_ok.mp hd
      obtain ⟨hbinder, hconstructors⟩ := DatatypeDec.ofConstructors_eq_ok.mp hd
      rw [DatatypeDec.phrases, DatatypeDec.constructorSpots, hbinder]
      exact .items hs.items.2.2.1 hconstructors fun _ _ _ => ConstructorDec.allMade
    · cases hd
  · obtain ⟨hbinder, hconstructors⟩ := DatatypeDec.ofConstructors_eq_ok.mp hd
    rw [DatatypeDec.phrases, DatatypeDec.constructorSpots, hbinder]
    exact .items hs hconstructors fun _ _ _ => ConstructorDec.allMade

theorem FunctionDec.allMade {d : FunctionDec} {f g h : Form}
    (hs : s.LeadsFrom src i (f :: g :: h :: fs)) (hd : FunctionDec.ofItems f g h = .ok d) :
    AllMade src (d.phrases i s) := by
  simp only [FunctionDec.ofItems, Build.bind_eq_ok, Build.pure_eq_ok] at hd
  obtain ⟨_, -, vars, hvars, result, hresult, rfl⟩ := hd
  exact (AllMade.items hs.2.1 hvars fun _ _ _ => SortedVar.allMade).append
    (SmtSort.allMade hs.2.2.1 hresult)

theorem FunctionDec.allMade_ofForm {d : FunctionDec} (hs : s.Leads src f)
    (hd : FunctionDec.ofForm f = .ok d) : AllMade src (d.phrases 0 s) := by
  unfold FunctionDec.ofForm at hd
  split at hd
  · exact FunctionDec.allMade hs.items hd
  · cases hd

/-- The parts of a command stand among the forms that it takes. -/
theorem Command.allMade_parts {c : Command} (hs : s.LeadsFrom src 1 fs) (hc : c.Takes fs) :
    AllMade src (c.parts s) := by
  cases c with
  | assert =>
    obtain ⟨f, rfl, hf⟩ := hc
    exact Term.allMade hs.1 hf
  | checkSatAssuming | getValue =>
    obtain ⟨f, rfl, hf⟩ := hc
    exact Term.allMade_listOfForm hs.1 hf
  | declareConst =>
    obtain ⟨f, g, rfl, -, hg⟩ := hc
    exact SmtSort.allMade hs.2.1 hg
  | declareDatatype =>
    obtain ⟨f, g, rfl, -, hg⟩ := hc
    exact DatatypeDec.allMade hs.2.1 hg
  | declareDatatypes =>
    obtain ⟨f, g, rfl, -, hg⟩ := hc
    exact .items hs.2.1 hg fun _ _ _ => DatatypeDec.allMade
  | declareFun =>
    obtain ⟨f, g, h, rfl, -, hg, hh⟩ := hc
    exact (SmtSort.allMade_items hs.2.1 hg).append (SmtSort.allMade hs.2.2.1 hh)
  | defineConst =>
    obtain ⟨f, g, h, rfl, -, hg, hh⟩ := hc
    exact (SmtSort.allMade hs.2.1 hg).append (Term.allMade hs.2.2.1 hh)
  | defineFun | defineFunRec =>
    obtain ⟨f, g, h, k, rfl, hdec, hk⟩ := hc
    exact (FunctionDec.allMade hs hdec).append (Term.allMade hs.2.2.2.1 hk)
  | defineFunsRec =>
    obtain ⟨f, g, rfl, hf, hg⟩ := hc
    exact (AllMade.items hs.1 hf fun _ _ _ => FunctionDec.allMade_ofForm).append
      (Term.allMade_listOfForm hs.2.1 hg)
  | defineSort =>
    obtain ⟨f, g, h, rfl, -, -, hh⟩ := hc
    exact SmtSort.allMade hs.2.2.1 hh
  | _ => exact .nil

theorem Command.allMade {c : Command} (hs : s.Leads src f) (hc : Command.ofForm f = .ok c) :
    AllMade src (c.phrases s) := by
  refine .cons hs hc ?_
  obtain ⟨e, e', tail, rfl, htakes⟩ := Command.ofForm_eq_ok.mp hc
  exact Command.allMade_parts hs.items.2 htakes

/-! ### Theories and roots -/

namespace FunSymbolDec

theorem signature_of_unparametric? {args : List SmtSort} {result : SmtSort}
    {attributes : List Attribute} {d : FunSymbolDec}
    (hd : unparametric? f args result attributes = some d) :
    d.signature = args ++ [result] ∧ d.bodySpot s = s := by
  unfold unparametric? at hd
  split at hd
  · split at hd
    · next hargs =>
      cases hd
      rw [List.isEmpty_iff.mp hargs]
      exact ⟨rfl, rfl⟩
    · cases hd
  · split at hd
    · split at hd
      · next hargs =>
        cases hd
        rw [List.isEmpty_iff.mp hargs]
        exact ⟨rfl, rfl⟩
      · cases hd
    · obtain ⟨_, -, ⟨⟩⟩ := Option.bind_eq_some_iff.mp hd
      exact ⟨rfl, rfl⟩
  · obtain ⟨_, -, ⟨⟩⟩ := Option.bind_eq_some_iff.mp hd
    exact ⟨rfl, rfl⟩

/-- The signature of a declaration stands in its body, after the name. -/
theorem signature_of_ofForm? {d : FunSymbolDec} (hs : s.Leads src f) (hd : ofForm? f = some d) :
    ∃ fs, (d.bodySpot s).LeadsFrom src 1 fs ∧
      List.Forall₂ (Built SmtSort.ofForm) fs d.signature := by
  unfold ofForm? at hd
  split at hd
  · next tail hheaded =>
    obtain ⟨e, e', rfl⟩ := Form.headed?_eq_some.mp hheaded
    split at hd
    · next params e₂ name rest =>
      simp only [Option.bind_eq_bind, Option.bind_eq_some_iff, Option.pure_def, Option.some.injEq,
        Prod.exists] at hd
      obtain ⟨_, -, args, result, as, hsignature, _, -, rfl⟩ := hd
      obtain ⟨fs₁, fs₂, rfl, hsorts, -⟩ := signature?_eq_some.mp hsignature
      have hbody := hs.items.2.2.1.items
      exact ⟨fs₁, (Spot.leadsFrom_append.mp hbody.2).1, SmtSort.ofForms_eq_ok.mp hsorts⟩
    · cases hd
  · split at hd
    · next e head rest =>
      simp only [Option.bind_eq_bind, Option.bind_eq_some_iff, Prod.exists] at hd
      obtain ⟨args, result, as, hsignature, hd⟩ := hd
      obtain ⟨fs₁, fs₂, rfl, hsorts, -⟩ := signature?_eq_some.mp hsignature
      obtain ⟨hd, hbody⟩ := signature_of_unparametric? hd
      rw [hbody, hd]
      exact ⟨fs₁, (Spot.leadsFrom_append.mp hs.items.2).1, SmtSort.ofForms_eq_ok.mp hsorts⟩
    · cases hd

theorem allMade {d : FunSymbolDec} (hs : s.Leads src f) (hd : ofForm? f = some d) :
    AllMade src (d.phrases s) := by
  obtain ⟨fs, hfs, hsignature⟩ := signature_of_ofForm? hs hd
  exact .along hfs hsignature fun _ _ _ => SmtSort.allMade

end FunSymbolDec

namespace TheoryAttribute

/-- An attribute takes a second item if it has a value, and declares the functions that are the
items of the value. -/
theorem ofForms_eq_ok {k : String} {v : Option Form} {a : TheoryAttribute}
    (h : ofForms ⟨k, v⟩ = .ok a) : a.width = (if v.isSome then 2 else 1) ∧
      ∀ decs, a = funs decs → ∃ e items, v = some (.list e items) ∧
        List.Forall₂ (Found FunSymbolDec.ofForm?) items decs := by
  rw [ofForms_eq] at h
  split at h
  · next x hx =>
    cases h
    obtain ⟨f, rfl, hf⟩ := Option.bind_eq_some_iff.mp hx
    unfold structured? at hf
    split at hf
    · obtain ⟨_, -, rfl⟩ := Option.map_eq_some_iff.mp hf
      refine ⟨rfl, ?_⟩
      rintro _ ⟨⟩
    split at hf
    · obtain ⟨decs, hdecs, rfl⟩ := Option.map_eq_some_iff.mp hf
      refine ⟨rfl, ?_⟩
      rintro _ ⟨⟩
      unfold Form.nonemptyItems? at hdecs
      split at hdecs
      · exact ⟨_, _, rfl, mapM_eq_some.mp hdecs⟩
      · cases hdecs
    · cases hf
  · simp only [Build.bind_eq_ok, Build.pure_eq_ok] at h
    obtain ⟨x, hx, rfl⟩ := h
    refine ⟨?_, by rintro _ ⟨⟩⟩
    cases v with
    | none =>
      cases hx
      rfl
    | some f =>
      simp only [AttributeForms.toAttribute, Build.bind_eq_ok, Build.pure_eq_ok] at hx
      obtain ⟨_, -, rfl⟩ := hx
      rfl

theorem allMade {k : String} {v : Option Form} {a : TheoryAttribute}
    (hs : ∀ f, v = some f → s.next.Leads src f) (ha : ofForms ⟨k, v⟩ = .ok a) :
    AllMade src (a.phrases s) := by
  cases a with
  | funs decs =>
    obtain ⟨e, items, hv, hdecs⟩ := (ofForms_eq_ok ha).2 decs rfl
    exact .along (hs _ hv).items hdecs fun _ _ _ => FunSymbolDec.allMade
  | _ => exact .nil

/-- Attributes at the items that they cover. -/
theorem allMade_covers {as : List AttributeForms} {xs : List TheoryAttribute}
    (hs : s.LeadsFrom src i fs) (hcovers : Covers fs as)
    (hxs : List.Forall₂ (Built ofForms) as xs) :
    AllMade src (each phrases (s.spread width i xs)) := by
  induction hcovers generalizing i xs with
  | nil =>
    cases hxs
    exact .nil
  | flag _ ih =>
    obtain _ | ⟨hx, hxs⟩ := hxs
    rw [Spot.spread, (ofForms_eq_ok hx).1]
    refine (allMade ?_ hx).append (ih hs.2 hxs)
    nofun
  | value _ _ ih =>
    obtain _ | ⟨hx, hxs⟩ := hxs
    rw [Spot.spread, (ofForms_eq_ok hx).1]
    refine (allMade ?_ hx).append (ih hs.2.2 hxs)
    rintro _ ⟨⟩
    exact hs.2.1

end TheoryAttribute

theorem Theory.allMade {t : Theory} (hs : s.Leads src f) (ht : t.MadeOf f) :
    AllMade src (t.phrases s) := by
  obtain ⟨e, e', g, gs, rfl, -, as, hcovers, hattributes⟩ := ht
  exact TheoryAttribute.allMade_covers hs.items.2.2 hcovers (Build.mapM_eq_ok.mp hattributes)

theorem Root.allMade {r : Root} (h : r.MadeOf src.forms) : AllMade src (r.phrases src) := by
  cases r with
  | script cs => exact .along Spot.leadsFrom_top h fun _ _ _ => Command.allMade
  | theory t =>
    obtain ⟨f, hforms, ht⟩ := h
    have htop : (Spot.top src).LeadsFrom src 0 [f] := hforms ▸ Spot.leadsFrom_top
    exact Theory.allMade htop.1 ht
  | logic l => exact .nil

end

end WellSorted
