import WellSorted.Proofs.Dropped
import WellSorted.Proofs.Phrases

/-!
# The rules of the syntax check

What the syntax check decides, said without the check: symbols and keywords are legal wherever they
are written, binders, sort parameters and counts keep their rules in every term and command, and
the attributes of theories and logics have values of their kind (`Parsed.Legal`). Each function of
the check decides the words and the rules of what it looks at (`SyntaxCheck.Decides`), and so a root
that was built from a text passes the check if and only if it keeps the rules
(`SyntaxCheck.root_eq_nil_iff_legal`).
-/

namespace WellSorted

/-! ### Tokens -/

namespace Spelling

mutual

/-- All tokens of a spelling; fixed words are none. -/
def tokens : Spelling → List Token
  | word _ => []
  | token t => [t]
  | group items => allTokens items

def allTokens : List Spelling → List Token
  | [] => []
  | w :: rest => w.tokens ++ allTokens rest

end

end Spelling

/-- A symbol has legal characters only, and a keyword is one. -/
def Token.Legal : Token → Prop
  | symbol s => ∀ c ∈ s.toList, isLegalChar c = true
  | keyword s => isKeyword s = true
  | _ => True

namespace Spelling

def Legal (w : Spelling) : Prop := ∀ t ∈ w.tokens, t.Legal

theorem legal_word (s : String) : (word s).Legal := fun _ h => absurd h List.not_mem_nil

theorem legal_token {t : Token} : (token t).Legal ↔ t.Legal := List.forall_mem_singleton

theorem legal_keyword {s : String} : (token (.keyword s)).Legal ↔ isKeyword s = true := legal_token

theorem legal_symbol {s : String} : (symbol s).Legal ↔ isLegalSymbol s = true :=
  legal_token.trans List.all_eq_true.symm

theorem legal_numeral (n : Nat) : (numeral n).Legal := legal_token.mpr trivial

theorem legal_group {ws : List Spelling} : (group ws).Legal ↔ ∀ w ∈ ws, w.Legal := by
  show (∀ t ∈ allTokens ws, t.Legal) ↔ _
  induction ws with
  | nil => simp [allTokens]
  | cons w ws ih => rw [allTokens, List.forall_mem_append, ih, List.forall_mem_cons, Legal]

end Spelling

theorem Constant.legal_spelling (c : Constant) : c.spelling.Legal := by
  rw [spelling, Spelling.legal_token]
  cases c <;> exact trivial

/-! ### Sort parameters -/

/-- Whether a sort stands within another one. -/
inductive SmtSort.Within (s : SmtSort) : SmtSort → Prop
  | refl : Within s s
  | arg {head : Identifier} {args : List SmtSort} {t : SmtSort} :
      t ∈ args → Within s t → Within s (mk head args)

theorem SmtSort.within_mk {s : SmtSort} {head : Identifier} {args : List SmtSort} :
    s.Within (mk head args) ↔ s = mk head args ∨ ∃ t ∈ args, s.Within t := by
  constructor
  · intro h
    cases h with
    | refl => exact .inl rfl
    | arg ht h => exact .inr ⟨_, ht, h⟩
  · rintro (rfl | ⟨t, ht, h⟩)
    · exact .refl
    · exact .arg ht h

/-- Sort parameters are distinct, and each is used in the given sorts, but never applied. -/
structure LegalParams (params : List String) (sorts : List SmtSort) : Prop where
  nodup : params.Nodup
  used : ∀ p ∈ params, ∃ t ∈ sorts, (SmtSort.simple p).Within t
  unapplied : ∀ p ∈ params, ∀ args, ∀ t ∈ sorts, (SmtSort.mk (.simple p) args).Within t → args = []

/-! ### Terms and commands -/

/-- The rules for the shape of a term, its parts aside. -/
def Term.Legal : Term → Prop
  | letIn bindings _ => bindings ≠ [] ∧ (bindings.map (·.1)).Nodup
  | quantified _ vars _ => vars ≠ [] ∧ (vars.map (·.name)).Nodup
  | matching _ arms => arms ≠ [] ∧ ∀ arm ∈ arms, arm.1.arguments.Nodup
  | annotated _ attributes => attributes ≠ []
  | _ => True

/-- A datatype has a constructor; if it has a list of parameters, then not an empty one. -/
def DatatypeDec.Legal (d : DatatypeDec) : Prop :=
  d.constructors ≠ [] ∧ ∀ params, d.binder = some params →
    params ≠ [] ∧ LegalParams params (d.constructors.flatMap fun c => c.selectors.map (·.sort))

/-- Predefined options have values of their kind. -/
structure Attribute.LegalOption (a : Attribute) : Prop where
  string : a.keyword ∈ SyntaxCheck.stringOptions → ∃ s, a.value = some (.constant (.string s))
  numeral : a.keyword ∈ SyntaxCheck.numeralOptions → ∃ n, a.value = some (.constant (.numeral n))
  truthValue : a.keyword ∈ SyntaxCheck.truthValueOptions →
    a.value = some (.symbol "true") ∨ a.value = some (.symbol "false")

/-- The rules for a command, its terms aside. -/
def Command.Legal : Command → Prop
  | declareDatatype _ dec => dec.Legal
  | declareDatatypes sorts decs =>
    List.Forall₂ (fun d dec => d.arity = (DatatypeDec.params dec).length) sorts decs ∧
      ∀ dec ∈ decs, dec.Legal
  | defineFunsRec decs bodies => decs ≠ [] ∧ decs.length = bodies.length
  | defineSort _ params sort => LegalParams params [sort]
  | echo s => s ≠ ""
  | getValue ts => ts ≠ []
  | setOption a => a.LegalOption
  | _ => True

def Phrase.Legal : Phrase → Prop
  | sort _ => True
  | term t => t.Legal
  | command c => c.Legal

/-! ### Theories and logics -/

def FunSymbolDec.Legal : FunSymbolDec → Prop
  | parametric params _ args result _ => params ≠ [] ∧ LegalParams params (args ++ [result])
  | _ => True

/-- Attributes of declarations hold a non-empty list of them, descriptions hold a string. -/
def TheoryAttribute.Legal : TheoryAttribute → Prop
  | sorts decs => decs ≠ []
  | funs decs => decs ≠ [] ∧ ∀ d ∈ decs, d.Legal
  | other a => a.keyword ≠ ":sorts" ∧ a.keyword ≠ ":funs" ∧
      (a.keyword ∈ SyntaxCheck.theoryStrings → ∃ s, a.value = some (.constant (.string s)))

def LogicAttribute.Legal : LogicAttribute → Prop
  | theories names => names ≠ []
  | other a => a.keyword ≠ ":theories" ∧
      (a.keyword ∈ SyntaxCheck.logicStrings → ∃ s, a.value = some (.constant (.string s)))

/-- A theory or logic has an attribute, and each of them keeps its rules. -/
def Root.LegalLibrary : Root → Prop
  | script _ => True
  | theory t => t.attributes ≠ [] ∧ ∀ a ∈ t.attributes, a.Legal
  | logic l => l.attributes ≠ [] ∧ ∀ a ∈ l.attributes, a.Legal

/-- The rules of the syntax check for a whole root. -/
structure Parsed.Legal (p : Parsed Root) : Prop where
  tokens : ∀ w ∈ p.tree.spellings, w.Legal
  phrases : ∀ x ∈ p.tree.phrases p.source, x.2.Legal
  library : p.tree.LegalLibrary

/-! ### Words and sorts -/

namespace SyntaxCheck

open Spelling (legal_word legal_token legal_keyword legal_symbol legal_numeral legal_group)

theorem symbol_eq_nil (s : Spot) (text : String) :
    symbol s text = [] ↔ (Spelling.symbol text).Legal := by
  rw [legal_symbol, symbol]
  split <;> simp [*]

theorem keyword_eq_nil (s : Spot) (text : String) :
    keyword s text = [] ↔ (Spelling.token (.keyword text)).Legal := by
  rw [legal_keyword, keyword]
  split <;> simp [*]

/-- Parts in a row, if the places do not matter. -/
theorem each_eq_nil_of_mem {α : Type} {check : Spot → α → List Finding} {P : α → Prop}
    {as : List α} (h : ∀ s, ∀ a ∈ as, (check s a = [] ↔ P a)) {s : Spot} {width : α → Nat}
    {i : Nat} : each check (s.spread width i as) = [] ↔ ∀ a ∈ as, P a := by
  have hmem {x : Spot × α} (hx : x ∈ s.spread width i as) : x.2 ∈ as :=
    s.map_snd_spread width i as ▸ List.mem_map_of_mem hx
  have hall : each check (s.spread width i as) = [] ↔ ∀ x ∈ s.spread width i as, P x.2 :=
    List.flatMap_eq_nil_iff.trans (forall₂_congr fun x hx => h x.1 x.2 (hmem hx))
  rw [hall, ← List.forall_mem_map (f := Prod.snd) (P := P), Spot.map_snd_spread]

theorem each_eq_nil {α : Type} {check : Spot → α → List Finding} {P : α → Prop}
    (h : ∀ s a, check s a = [] ↔ P a) {s : Spot} {width : α → Nat} {i : Nat} {as : List α} :
    each check (s.spread width i as) = [] ↔ ∀ a ∈ as, P a :=
  each_eq_nil_of_mem fun s a _ => h s a

theorem symbols_eq_nil {s : Spot} {i : Nat} {names : List String} :
    symbols (s.along i names) = [] ↔ ∀ w ∈ names.map Spelling.symbol, w.Legal := by
  rw [List.forall_mem_map]
  exact each_eq_nil symbol_eq_nil

theorem index_eq_nil (s : Spot) (i : Index) : index s i = [] ↔ i.spelling.Legal := by
  cases i with
  | numeral n => exact iff_of_true rfl (legal_numeral n)
  | symbol text => exact symbol_eq_nil _ text

theorem identifier_eq_nil (s : Spot) (i : Identifier) :
    identifier s i = [] ↔ i.spelling.Legal := by
  have hindices : each index (i.indexSpots s) = [] ↔ _ := each_eq_nil index_eq_nil
  rw [identifier, List.append_eq_nil_iff, symbol_eq_nil, hindices]
  obtain ⟨x, indices⟩ := i
  cases indices with
  | nil => simp [Identifier.spelling, Identifier.isIndexed]
  | cons index indices =>
    simp [Identifier.spelling, Identifier.isIndexed, legal_group, legal_word]

mutual

theorem sort_eq_nil : ∀ (s : Spot) (t : SmtSort), sort s t = [] ↔ t.spelling.Legal
  | s, .mk head [] => by
    rw [sort, sortsFrom, List.append_nil, identifier_eq_nil, SmtSort.spelling]
  | s, .mk head (t :: args) => by
    rw [sort, List.append_eq_nil_iff, identifier_eq_nil, sortsFrom_eq_nil, SmtSort.spelling,
      legal_group, List.forall_mem_cons, SmtSort.spellings]

theorem sortsFrom_eq_nil : ∀ (s : Spot) (i : Nat) (ts : List SmtSort),
    sortsFrom s i ts = [] ↔ ∀ w ∈ SmtSort.spellings ts, w.Legal
  | s, i, [] => by simp [sortsFrom, SmtSort.spellings]
  | s, i, t :: ts => by
    rw [sortsFrom, List.append_eq_nil_iff, sort_eq_nil, sortsFrom_eq_nil, SmtSort.spellings,
      List.forall_mem_cons]

end

mutual

theorem datum_eq_nil : ∀ (s : Spot) (d : Datum), datum s d = [] ↔ d.spelling.Legal
  | _, .constant c => iff_of_true rfl c.legal_spelling
  | s, .symbol text => symbol_eq_nil s text
  | s, .keyword text => keyword_eq_nil s text
  | s, .list items => (dataFrom_eq_nil s 0 items).trans legal_group.symm

theorem dataFrom_eq_nil : ∀ (s : Spot) (i : Nat) (ds : List Datum),
    dataFrom s i ds = [] ↔ ∀ w ∈ Datum.spellings ds, w.Legal
  | s, i, [] => by simp [dataFrom, Datum.spellings]
  | s, i, d :: ds => by
    rw [dataFrom, List.append_eq_nil_iff, datum_eq_nil, dataFrom_eq_nil, Datum.spellings,
      List.forall_mem_cons]

end

theorem attributeValue_eq_nil (s : Spot) (v : AttributeValue) :
    attributeValue s v = [] ↔ v.spelling.Legal := by
  cases v with
  | constant c => exact iff_of_true rfl c.legal_spelling
  | symbol text => exact symbol_eq_nil _ text
  | list items => exact (dataFrom_eq_nil s 0 items).trans legal_group.symm

theorem oneAttribute_eq_nil (s : Spot) (a : Attribute) :
    oneAttribute s a = [] ↔ ∀ w ∈ a.spellings, w.Legal := by
  rw [oneAttribute, List.append_eq_nil_iff, keyword_eq_nil, Attribute.spellings,
    List.forall_mem_cons]
  cases a.value with
  | none => simp
  | some v => simp [attributeValue_eq_nil]

theorem attributesFrom_eq_nil {s : Spot} {i : Nat} {as : List Attribute} :
    attributesFrom s i as = [] ↔ ∀ w ∈ Attribute.allSpellings as, w.Legal := by
  rw [Attribute.allSpellings, List.forall_mem_flatMap]
  exact each_eq_nil oneAttribute_eq_nil

theorem sortedVar_eq_nil (s : Spot) (v : SortedVar) : sortedVar s v = [] ↔ v.spelling.Legal := by
  rw [sortedVar, List.append_eq_nil_iff, symbol_eq_nil, sort_eq_nil, SortedVar.spelling,
    legal_group, List.forall_mem_cons, List.forall_mem_singleton]

theorem sortedVars_eq_nil {s : Spot} {i : Nat} {vs : List SortedVar} :
    each sortedVar (s.along i vs) = [] ↔ ∀ w ∈ vs.map SortedVar.spelling, w.Legal := by
  rw [List.forall_mem_map]
  exact each_eq_nil sortedVar_eq_nil

theorem qualIdentifier_eq_nil (s : Spot) (q : QualIdentifier) :
    qualIdentifier s q = [] ↔ q.spelling.Legal := by
  obtain ⟨i, ascription⟩ := q
  cases ascription with
  | none => simp [qualIdentifier, identifier_eq_nil, QualIdentifier.spelling]
  | some t =>
    simp [qualIdentifier, identifier_eq_nil, sort_eq_nil, QualIdentifier.spelling, legal_group,
      legal_word]

/-! ### Sort parameters -/

mutual

/-- The uses of parameters are the sorts with one of them at the head. -/
theorem mem_paramUses {params : List String} {p : String} {applied : Bool} : ∀ {t : SmtSort},
    (p, applied) ∈ paramUses params t ↔ p ∈ params ∧
      ∃ args : List SmtSort, (SmtSort.mk (.simple p) args).Within t ∧ applied = !args.isEmpty
  | .mk head args => by
    have hhead : (p, applied) ∈ (if !head.isIndexed && params.contains head.symbol then
        [(head.symbol, !args.isEmpty)] else []) ↔
          p ∈ params ∧ head = .simple p ∧ applied = !args.isEmpty := by
      obtain ⟨x, indices⟩ := head
      cases indices with
      | nil =>
        simp only [Identifier.isIndexed, List.isEmpty_nil, Bool.not_true, Bool.not_false,
          Bool.true_and, List.contains_iff_mem, List.mem_ite_nil_right, List.mem_singleton,
          Prod.mk.injEq, Identifier.simple, Identifier.mk.injEq, and_true]
        grind
      | cons index indices => simp [Identifier.isIndexed, Identifier.simple]
    rw [paramUses, List.mem_append, hhead, mem_allParamUses, ← and_or_left]
    refine and_congr_right fun _ => ?_
    simp only [SmtSort.within_mk, SmtSort.mk.injEq]
    constructor
    · rintro (⟨rfl, rfl⟩ | ⟨as, hwithin, happlied⟩)
      · exact ⟨args, .inl ⟨rfl, rfl⟩, rfl⟩
      · exact ⟨as, .inr hwithin, happlied⟩
    · rintro ⟨as, ⟨rfl, rfl⟩ | hwithin, happlied⟩
      · exact .inl ⟨rfl, happlied⟩
      · exact .inr ⟨as, hwithin, happlied⟩

theorem mem_allParamUses {params : List String} {p : String} {applied : Bool} :
    ∀ {ts : List SmtSort}, (p, applied) ∈ allParamUses params ts ↔ p ∈ params ∧
      ∃ args : List SmtSort, (∃ t ∈ ts, (SmtSort.mk (.simple p) args).Within t) ∧
        applied = !args.isEmpty
  | [] => by simp [allParamUses]
  | t :: ts => by
    rw [allParamUses, List.mem_append, mem_paramUses, mem_allParamUses, ← and_or_left]
    simp only [List.exists_mem_cons_iff, or_and_right, exists_or]

end

theorem sortParams_eq_nil {n : Node} {params : List String} {sorts : List SmtSort} :
    sortParams n params sorts = [] ↔ LegalParams params sorts := by
  have hrepeated : repeated params = [] ↔ params.Nodup := by
    rw [repeated, repeatedFrom_eq_nil]
    simp
  simp only [sortParams, List.append_eq_nil_iff, List.map_eq_nil_iff, hrepeated]
  have happlied : (allParamUses params sorts).filter (·.2) = [] ↔ ∀ p ∈ params, ∀ args,
      ∀ t ∈ sorts, (SmtSort.mk (.simple p) args).Within t → args = [] := by
    rw [List.filter_eq_nil_iff]
    constructor
    · intro h p hp args t ht hwithin
      by_contra hargs
      have huse : (p, true) ∈ allParamUses params sorts :=
        mem_allParamUses.mpr ⟨hp, args, ⟨t, ht, hwithin⟩, by simpa using hargs⟩
      exact h _ huse rfl
    · rintro h ⟨p, _⟩ huse rfl
      obtain ⟨hp, args, ⟨t, ht, hwithin⟩, hargs⟩ := mem_allParamUses.mp huse
      rw [h p hp args t ht hwithin] at hargs
      cases hargs
  have hunused : params.filter
      (fun p => !((allParamUses params sorts).map (·.1)).contains p) = [] ↔
        ∀ p ∈ params, ∃ args, ∃ t ∈ sorts, (SmtSort.mk (.simple p) args).Within t := by
    simp only [List.filter_eq_nil_iff, Bool.not_eq_true', Bool.not_eq_false, List.contains_iff_mem,
      List.mem_map, Prod.exists, exists_and_right, exists_eq_right, mem_allParamUses]
    refine forall₂_congr fun p hp => ⟨?_, ?_⟩
    · rintro ⟨_, -, args, hwithin, -⟩
      exact ⟨args, hwithin⟩
    · rintro ⟨args, hwithin⟩
      exact ⟨_, hp, args, hwithin, rfl⟩
  rw [happlied, hunused]
  constructor
  · rintro ⟨⟨hnodup, hunapplied⟩, hused⟩
    refine ⟨hnodup, fun p hp => ?_, hunapplied⟩
    obtain ⟨args, t, ht, hwithin⟩ := hused p hp
    cases hunapplied p hp args t ht hwithin
    exact ⟨t, ht, hwithin⟩
  · rintro ⟨hnodup, hused, hunapplied⟩
    exact ⟨⟨hnodup, hunapplied⟩, fun p hp => ⟨[], hused p hp⟩⟩

end SyntaxCheck

/-! ### Phrases that keep the rules -/

/-- A constructor that is applied has an argument. Other patterns are never built. -/
def Pattern.Binds : Pattern → Prop
  | applied _ _ arguments => arguments ≠ []
  | _ => True

namespace Phrase

def Binds : Phrase → Prop
  | term (.matching _ arms) => ∀ arm ∈ arms, arm.1.Binds
  | _ => True

def AllKeep (xs : List (Spot × Phrase)) : Prop := ∀ x ∈ xs, x.2.Legal ∧ x.2.Binds

theorem allKeep_nil : AllKeep [] := fun _ h => absurd h List.not_mem_nil

theorem allKeep_cons {x : Spot × Phrase} {xs : List (Spot × Phrase)} :
    AllKeep (x :: xs) ↔ (x.2.Legal ∧ x.2.Binds) ∧ AllKeep xs :=
  List.forall_mem_cons

theorem allKeep_append {xs ys : List (Spot × Phrase)} :
    AllKeep (xs ++ ys) ↔ AllKeep xs ∧ AllKeep ys :=
  List.forall_mem_append

theorem allKeep_each {α : Type} {phrases : Spot → α → List (Spot × Phrase)}
    {parts : List (Spot × α)} :
    AllKeep (each phrases parts) ↔ ∀ part ∈ parts, AllKeep (phrases part.1 part.2) :=
  List.forall_mem_flatMap

end Phrase

open Phrase (AllKeep allKeep_nil allKeep_cons allKeep_append allKeep_each)

mutual

/-- There is no rule for sorts, apart from their symbols. -/
theorem SmtSort.allKeep : ∀ (s : Spot) (t : SmtSort), AllKeep (t.phrases s)
  | s, .mk _ args => allKeep_cons.mpr ⟨⟨trivial, trivial⟩, allKeep_from s 1 args⟩

theorem SmtSort.allKeep_from : ∀ (s : Spot) (i : Nat) (ts : List SmtSort),
    AllKeep (SmtSort.phrasesFrom s i ts)
  | _, _, [] => allKeep_nil
  | s, i, t :: ts => allKeep_append.mpr ⟨allKeep (s.item i) t, allKeep_from s (i + 1) ts⟩

end

theorem QualIdentifier.allKeep (s : Spot) (q : QualIdentifier) : AllKeep (q.phrases s) := by
  obtain ⟨i, ascription⟩ := q
  cases ascription with
  | none => exact allKeep_nil
  | some sort => exact sort.allKeep _

theorem SortedVar.allKeep (items : List (Spot × SortedVar)) :
    AllKeep (Phrase.each SortedVar.phrases items) :=
  allKeep_each.mpr fun x _ => x.2.sort.allKeep _

theorem DatatypeDec.allKeep (s : Spot) (d : DatatypeDec) : AllKeep (d.phrases s) :=
  allKeep_each.mpr fun x _ => SortedVar.allKeep (x.2.selectorSpots x.1)

theorem FunctionDec.allKeep (i : Nat) (s : Spot) (d : FunctionDec) : AllKeep (d.phrases i s) :=
  allKeep_append.mpr ⟨SortedVar.allKeep _, d.result.allKeep _⟩

theorem Theory.allKeep (s : Spot) (t : Theory) : AllKeep (t.phrases s) := by
  refine allKeep_each.mpr fun x _ => ?_
  cases hx : x.2 with
  | funs decs => exact allKeep_each.mpr fun d _ => allKeep_each.mpr fun t _ => t.2.allKeep t.1
  | sorts decs => exact allKeep_nil
  | other a => exact allKeep_nil

theorem Pattern.allKeep (s : Spot) (p : Pattern) : AllKeep (p.phrases s) := by
  unfold Pattern.phrases
  split
  · exact allKeep_nil
  · exact SmtSort.allKeep _ _

namespace SyntaxCheck

open Spelling (legal_word legal_token legal_keyword legal_symbol legal_numeral legal_group)

/-! ### Findings, words and rules -/

/-- Some findings are none if and only if some words are legal and a rule is kept. A check goes
along the text, so that the words of most constructs are, by definition, those of their parts in a
row. -/
def Decides (findings : List Finding) (words : List Spelling) (rule : Prop) : Prop :=
  findings = [] ↔ (∀ w ∈ words, w.Legal) ∧ rule

namespace Decides

variable {xs ys : List Finding} {ws vs : List Spelling} {w : Spelling} {P Q : Prop}
  {ps qs : List (Spot × Phrase)} {x : Spot × Phrase}

theorem nil : Decides [] [] (AllKeep []) :=
  iff_of_true rfl ⟨fun _ h => absurd h List.not_mem_nil, allKeep_nil⟩

theorem of_words (h : xs = [] ↔ ∀ w ∈ ws, w.Legal) (hP : P) : Decides xs ws P :=
  h.trans (and_iff_left hP).symm

theorem of_word (h : xs = [] ↔ w.Legal) (hP : P) : Decides xs [w] P :=
  of_words (h.trans List.forall_mem_singleton.symm) hP

theorem of_rule (h : xs = [] ↔ P) : Decides xs [] P :=
  h.trans (and_iff_right fun _ h => absurd h List.not_mem_nil).symm

/-- The rule of a phrase itself. -/
theorem of_phrase (h : xs = [] ↔ x.2.Legal) (hx : x.2.Binds) : Decides xs [] (AllKeep [x]) := by
  refine of_rule (h.trans ?_)
  rw [AllKeep, List.forall_mem_singleton, and_iff_left hx]

theorem congr (h : Decides xs ws P) (hrule : P ↔ Q) : Decides xs ws Q :=
  Iff.trans h (and_congr_right' hrule)

/-- Findings in a row decide the words in a row, and both rules. -/
theorem and (h : Decides xs ws P) (h' : Decides ys vs Q) :
    Decides (xs ++ ys) (ws ++ vs) (P ∧ Q) := by
  rw [Decides, List.append_eq_nil_iff, List.forall_mem_append, and_and_and_comm]
  exact and_congr h h'

theorem append_words (h : Decides xs ws P) (h' : ys = [] ↔ ∀ w ∈ vs, w.Legal) :
    Decides (xs ++ ys) (ws ++ vs) P :=
  (h.and (of_words h' trivial)).congr (and_iff_left trivial)

theorem append_rule (h : Decides xs ws P) (h' : ys = [] ↔ Q) : Decides (xs ++ ys) ws (P ∧ Q) := by
  rw [Decides, List.append_eq_nil_iff, ← and_assoc]
  exact and_congr h h'

theorem append (h : Decides xs ws (AllKeep ps)) (h' : Decides ys vs (AllKeep qs)) :
    Decides (xs ++ ys) (ws ++ vs) (AllKeep (ps ++ qs)) :=
  (h.and h').congr allKeep_append.symm

/-- A phrase that has no rule, or that keeps it. -/
theorem kept (h : Decides xs ws (AllKeep ps)) (hx : x.2.Legal ∧ x.2.Binds) :
    Decides xs ws (AllKeep (x :: ps)) :=
  h.congr ((and_iff_right hx).symm.trans allKeep_cons.symm)

/-- The rule of a phrase after what stands within it. -/
theorem append_phrase (h : Decides xs ws (AllKeep ps)) (h' : ys = [] ↔ x.2.Legal)
    (hx : x.2.Binds) : Decides (xs ++ ys) ws (AllKeep (x :: ps)) := by
  refine (h.append_rule h').congr ?_
  rw [allKeep_cons, and_iff_left hx, and_comm]

theorem cons (h : Decides xs ws P) (hw : w.Legal) : Decides xs (w :: ws) P := by
  rw [Decides, List.forall_mem_cons, and_iff_right hw]
  exact h

theorem concat (h : Decides xs ws P) (hw : w.Legal) : Decides xs (ws ++ [w]) P := by
  rw [Decides, List.forall_mem_append, List.forall_mem_singleton, and_iff_left hw]
  exact h

theorem group (h : Decides xs ws P) : Decides xs [.group ws] P := by
  rw [Decides, List.forall_mem_singleton, legal_group]
  exact h

end Decides

open Decides (of_words of_word of_rule of_phrase)

theorem decides_each {α : Type} {check : Spot → α → List Finding} {words : α → List Spelling}
    {rule : α → Prop} {as : List α} (h : ∀ s, ∀ a ∈ as, Decides (check s a) (words a) (rule a))
    {s : Spot} {width : α → Nat} {i : Nat} :
    Decides (each check (s.spread width i as)) (as.flatMap words) (∀ a ∈ as, rule a) := by
  rw [Decides, List.forall_mem_flatMap, ← forall₂_and]
  exact each_eq_nil_of_mem h

theorem decides_symbol (s : Spot) (text : String) :
    Decides (symbol s text) [.symbol text] (AllKeep []) :=
  of_word (symbol_eq_nil s text) allKeep_nil

theorem decides_keyword (s : Spot) (text : String) :
    Decides (keyword s text) [.token (.keyword text)] (AllKeep []) :=
  of_word (keyword_eq_nil s text) allKeep_nil

theorem decides_symbols (s : Spot) (i : Nat) (names : List String) :
    Decides (symbols (s.along i names)) (names.map Spelling.symbol) (AllKeep []) :=
  of_words symbols_eq_nil allKeep_nil

theorem decides_sort (s : Spot) (t : SmtSort) :
    Decides (sort s t) [t.spelling] (AllKeep (t.phrases s)) :=
  of_word (sort_eq_nil s t) (t.allKeep s)

theorem decides_sorts (s : Spot) (i : Nat) (ts : List SmtSort) :
    Decides (sortsFrom s i ts) (SmtSort.spellings ts) (AllKeep (SmtSort.phrasesFrom s i ts)) :=
  of_words (sortsFrom_eq_nil s i ts) (SmtSort.allKeep_from s i ts)

theorem decides_attribute (s : Spot) (a : Attribute) :
    Decides (oneAttribute s a) a.spellings (AllKeep []) :=
  of_words (oneAttribute_eq_nil s a) allKeep_nil

theorem decides_qualIdentifier (s : Spot) (q : QualIdentifier) :
    Decides (qualIdentifier s q) [q.spelling] (AllKeep (q.phrases s)) :=
  of_word (qualIdentifier_eq_nil s q) (q.allKeep s)

theorem decides_sortedVars (s : Spot) (i : Nat) (vs : List SortedVar) :
    Decides (each sortedVar (s.along i vs)) (vs.map SortedVar.spelling)
      (AllKeep (Phrase.each SortedVar.phrases (s.along i vs))) :=
  of_words sortedVars_eq_nil (SortedVar.allKeep _)

/-! ### Terms -/

theorem require_isEmpty {α : Type} {n : Node} {p : Problem} {as : List α} :
    require (!as.isEmpty) n p = [] ↔ as ≠ [] := by
  rw [require_eq_nil]
  cases as <;> simp

/-- Binders are some, and distinct. -/
theorem binders_eq_nil {α : Type} {n : Node} {p : Problem} {as : List α} {name : α → String} :
    require (!as.isEmpty) n p ++ distinctBinders n (as.map name) = [] ↔
      as ≠ [] ∧ (as.map name).Nodup := by
  rw [List.append_eq_nil_iff, require_isEmpty, distinctBinders_eq_nil]

theorem decides_qualified (s s' : Spot) (ctor : String) (t : SmtSort) :
    Decides (symbol s ctor ++ [t].flatMap (sort s'))
      [.group [.word "as", .symbol ctor, t.spelling]] True := by
  rw [List.flatMap_singleton]
  refine (((decides_symbol s ctor).and (decides_sort s' t)).cons (legal_word _)).group.congr ?_
  exact iff_of_true ⟨allKeep_nil, t.allKeep s'⟩ trivial

theorem decides_pattern (n : Node) (s : Spot) (p : Pattern) :
    Decides (pattern n s p) [p.spelling] (p.arguments.Nodup ∧ p.Binds) := by
  have happlied (ctor : String) (sort : Option SmtSort) (arguments : List String) :
      Decides (require (!arguments.isEmpty) n (.patternWithoutBinder (quoteSymbol ctor))
          ++ distinctBinders n arguments
          ++ symbols (Pattern.argumentSpots (.applied ctor sort arguments) s))
        (arguments.map Spelling.symbol) (arguments.Nodup ∧ arguments ≠ []) :=
    (((of_rule require_isEmpty).and (of_rule distinctBinders_eq_nil)).append_words
      symbols_eq_nil).congr and_comm
  cases p with
  | symbol x =>
    exact (((decides_symbol _ x).append .nil).append .nil).congr
      (iff_of_true allKeep_nil ⟨List.nodup_nil, trivial⟩)
  | qualified ctor sort =>
    exact ((decides_qualified _ _ ctor sort).and .nil).congr
      (iff_of_true ⟨trivial, allKeep_nil⟩ ⟨List.nodup_nil, trivial⟩)
  | applied ctor sort arguments =>
    cases sort with
    | none =>
      exact (((decides_symbol _ ctor).append .nil).and (happlied ctor none arguments)).group.congr
        (and_iff_right allKeep_nil)
    | some sort =>
      exact ((decides_qualified _ _ ctor sort).and (happlied ctor sort arguments)).group.congr
        (and_iff_right trivial)

mutual

/-- The findings in a term decide its words, and the rules of all phrases in it. -/
theorem decides_term : ∀ (s : Spot) (t : Term),
    Decides (term s t) [t.spelling] (AllKeep (t.phrases s))
  | s, .constant c => (Decides.nil.cons c.legal_spelling).kept ⟨trivial, trivial⟩
  | s, .ident q => (decides_qualIdentifier s q).kept ⟨trivial, trivial⟩
  | s, .app q args =>
    ((decides_qualIdentifier _ q).append (decides_terms s 1 args)).group.kept ⟨trivial, trivial⟩
  | s, .letIn bindings body =>
    have hrule := of_phrase (x := (s, .term (.letIn bindings body))) binders_eq_nil trivial
    (((hrule.append (decides_bindings _ 0 bindings).group).append (decides_term _ body)).cons
      (legal_word _)).group
  | s, .quantified q vars body =>
    have hrule := of_phrase (x := (s, .term (.quantified q vars body))) binders_eq_nil trivial
    (((hrule.append (decides_sortedVars _ 0 vars).group).append (decides_term _ body)).cons
      (legal_word _)).group
  | s, .matching scrutinee arms => by
    -- The rule of a match is about its patterns, which are checked along with the arms.
    refine ((((of_rule require_isEmpty).and (decides_term _ scrutinee)).and
      (decides_arms _ _ 0 arms).group).cons (legal_word _)).group.congr ?_
    rw [Term.phrases, allKeep_cons, allKeep_append]
    constructor
    · rintro ⟨⟨hne, hscrutinee⟩, hpatterns, harms⟩
      exact ⟨⟨⟨hne, fun arm h => (hpatterns arm h).1⟩, fun arm h => (hpatterns arm h).2⟩,
        hscrutinee, harms⟩
    · rintro ⟨⟨⟨hne, hnodup⟩, hbinds⟩, hscrutinee, harms⟩
      exact ⟨⟨hne, hscrutinee⟩, fun arm h => ⟨hnodup arm h, hbinds arm h⟩, harms⟩
  | s, .annotated t attributes =>
    have hrule := of_phrase (x := (s, .term (.annotated t attributes))) require_isEmpty trivial
    (((hrule.append (decides_term _ t)).append_words attributesFrom_eq_nil).cons
      (legal_word _)).group

theorem decides_terms : ∀ (s : Spot) (i : Nat) (ts : List Term),
    Decides (termsFrom s i ts) (Term.spellings ts) (AllKeep (Term.phrasesFrom s i ts))
  | _, _, [] => .nil
  | s, i, t :: ts => (decides_term _ t).append (decides_terms s (i + 1) ts)

theorem decides_bindings : ∀ (s : Spot) (i : Nat) (bs : List (String × Term)),
    Decides (bindingsFrom s i bs) (Term.bindingSpellings bs) (AllKeep (Term.bindingPhrases s i bs))
  | _, _, [] => .nil
  | s, i, (x, t) :: bs =>
    ((decides_symbol _ x).append (decides_term _ t)).group.append (decides_bindings s (i + 1) bs)

theorem decides_arms (n : Node) : ∀ (s : Spot) (i : Nat) (arms : List (Pattern × Term)),
    Decides (armsFrom n s i arms) (Term.armSpellings arms)
      ((∀ arm ∈ arms, arm.1.arguments.Nodup ∧ arm.1.Binds) ∧ AllKeep (Term.armPhrases s i arms))
  | _, _, [] =>
    Decides.nil.congr (and_iff_right fun _ h => absurd h List.not_mem_nil).symm
  | s, i, (p, t) :: arms => by
    refine (((decides_pattern n _ p).and (decides_term _ t)).group.and
      (decides_arms n s (i + 1) arms)).congr ?_
    rw [List.forall_mem_cons, Term.armPhrases, allKeep_append, allKeep_append,
      and_iff_right (p.allKeep _), and_and_and_comm]

end

/-! ### Commands -/

theorem any_isString {v : Option AttributeValue} :
    v.any AttributeValue.isString = true ↔ ∃ s, v = some (.constant (.string s)) := by
  rcases v with _ | ⟨_ | _ | s | _ | _⟩ | _ | _ <;> simp [AttributeValue.isString]

theorem any_isNumeral {v : Option AttributeValue} :
    v.any AttributeValue.isNumeral = true ↔ ∃ n, v = some (.constant (.numeral n)) := by
  rcases v with _ | ⟨n | _ | _ | _ | _⟩ | _ | _ <;> simp [AttributeValue.isNumeral]

theorem any_isTruthValue {v : Option AttributeValue} :
    v.any AttributeValue.isTruthValue = true ↔
      v = some (.symbol "true") ∨ v = some (.symbol "false") := by
  rcases v with _ | _ | s | _ <;> simp [AttributeValue.isTruthValue]

/-- An option is predefined as of one kind only. -/
theorem optionValue_eq_nil (n : Node) (a : Attribute) : optionValue n a = [] ↔ a.LegalOption := by
  have hstrings : ∀ k ∈ stringOptions, k ∉ numeralOptions ∧ k ∉ truthValueOptions := by decide
  have hnumerals : ∀ k ∈ numeralOptions, k ∉ truthValueOptions := by decide
  unfold optionValue optionKind?
  simp only [List.contains_iff_mem]
  split_ifs with hstring hnumeral htruth
  · rw [require_eq_nil, hasKind, any_isString]
    have hother := hstrings _ hstring
    exact ⟨fun h => ⟨fun _ => h, fun h => absurd h hother.1, fun h => absurd h hother.2⟩,
      fun h => h.string hstring⟩
  · rw [require_eq_nil, hasKind, any_isNumeral]
    exact ⟨fun h => ⟨fun h => absurd h hstring, fun _ => h,
      fun h => absurd h (hnumerals _ hnumeral)⟩, fun h => h.numeral hnumeral⟩
  · rw [require_eq_nil, hasKind, any_isTruthValue]
    exact ⟨fun h => ⟨fun h => absurd h hstring, fun h => absurd h hnumeral, fun _ => h⟩,
      fun h => h.truthValue htruth⟩
  · exact iff_of_true rfl ⟨fun h => absurd h hstring, fun h => absurd h hnumeral,
      fun h => absurd h htruth⟩

theorem constructorDec_eq_nil (s : Spot) (c : ConstructorDec) :
    constructorDec s c = [] ↔ c.spelling.Legal := by
  rw [constructorDec, List.append_eq_nil_iff, symbol_eq_nil, ConstructorDec.selectorSpots,
    sortedVars_eq_nil, ConstructorDec.spelling, legal_group, List.forall_mem_cons]

theorem legal_datatypeSpelling {d : DatatypeDec} : d.spelling.Legal ↔
    (∀ w ∈ d.params.map Spelling.symbol, w.Legal) ∧
      ∀ w ∈ d.constructors.map ConstructorDec.spelling, w.Legal := by
  obtain ⟨binder, constructors⟩ := d
  cases binder <;> simp [DatatypeDec.spelling, DatatypeDec.params, legal_group, legal_word]

theorem legal_datatype {d : DatatypeDec} : d.Legal ↔
    (d.binder ≠ some [] ∧ d.constructors ≠ []) ∧ ∀ params, d.binder = some params →
      LegalParams params (d.constructors.flatMap fun c => c.selectors.map (·.sort)) := by
  constructor
  · rintro ⟨hconstructors, hparams⟩
    exact ⟨⟨fun hnil => (hparams [] hnil).1 rfl, hconstructors⟩,
      fun params h => (hparams params h).2⟩
  · rintro ⟨⟨hbinder, hconstructors⟩, hparams⟩
    exact ⟨hconstructors, fun params h => ⟨fun hnil => hbinder (hnil ▸ h), hparams params h⟩⟩

theorem decides_datatype (n : Node) (s : Spot) (d : DatatypeDec) :
    Decides (datatype n s d) [d.spelling] d.Legal := by
  have hbinder : require (d.binder != some []) n .sortParamsMissing = [] ↔ d.binder ≠ some [] := by
    rw [require_eq_nil, bne_iff_ne]
  have hconstructors : each constructorDec (d.constructorSpots s) = [] ↔
      ∀ w ∈ d.constructors.map ConstructorDec.spelling, w.Legal := by
    rw [List.forall_mem_map]
    exact each_eq_nil constructorDec_eq_nil
  have hshape : Decides (require (d.binder != some []) n .sortParamsMissing
        ++ require (!d.constructors.isEmpty) n .constructorsMissing
        ++ symbols (d.paramSpots s) ++ each constructorDec (d.constructorSpots s)) _ _ :=
    (((of_rule hbinder).and (of_rule require_isEmpty)).append_words symbols_eq_nil).append_words
      hconstructors
  rw [Decides, List.forall_mem_singleton, legal_datatypeSpelling, legal_datatype,
    ← List.forall_mem_append]
  obtain ⟨binder, constructors⟩ := d
  cases binder with
  | none =>
    exact hshape.append_rule (iff_of_true rfl fun _ h => absurd h.symm (Option.some_ne_none _))
  | some params =>
    refine hshape.append_rule (sortParams_eq_nil.trans ⟨fun hparams params' h => ?_, fun h => ?_⟩)
    · exact Option.some.inj h ▸ hparams
    · exact h params rfl

theorem decides_functionDec (s : Spot) (i : Nat) (d : FunctionDec) :
    Decides (functionDec s i d) d.spellings (AllKeep (d.phrases i s)) :=
  ((decides_symbol _ d.name).append (decides_sortedVars _ 0 d.vars).group).append
    (decides_sort _ d.result)

theorem datatypeArities_eq_nil (n : Node) (sorts : List SortDec) (decs : List DatatypeDec) :
    require (sorts.length == decs.length) n (.datatypeCount sorts.length decs.length)
        ++ datatypeArities n sorts decs = [] ↔
      List.Forall₂ (fun d dec => d.arity = (DatatypeDec.params dec).length) sorts decs := by
  rw [List.append_eq_nil_iff, require_eq_nil, beq_iff_eq, List.forall₂_iff_zip, datatypeArities,
    List.flatMap_eq_nil_iff]
  simp only [require_eq_nil, beq_iff_eq, Prod.forall]

theorem decides_functionDecs (s : Spot) (decs : List FunctionDec) :
    Decides (each (fun s d => functionDec s 0 d) (s.along 0 decs)) (decs.map FunctionDec.spelling)
      (AllKeep (Phrase.each (FunctionDec.phrases 0) (s.along 0 decs))) := by
  have hdec (s : Spot) (d : FunctionDec) : functionDec s 0 d = [] ↔ d.spelling.Legal :=
    (decides_functionDec s 0 d).trans ((and_iff_left (d.allKeep 0 s)).trans legal_group.symm)
  refine of_words ?_ (allKeep_each.mpr fun x _ => x.2.allKeep 0 x.1)
  rw [List.forall_mem_map]
  exact each_eq_nil hdec

/-- The findings in a command decide its words, and the rules of the command and of all phrases
in it. -/
theorem decides_command (s : Spot) (c : Command) :
    Decides (command s c) [c.spelling] (AllKeep (c.phrases s)) := by
  suffices h : Decides (command s c) c.arguments (AllKeep (c.phrases s)) from
    (h.cons (legal_word _)).group
  cases c with
  | assert t => exact (decides_term _ t).kept ⟨trivial, trivial⟩
  | checkSatAssuming ts => exact (decides_terms _ 0 ts).group.kept ⟨trivial, trivial⟩
  | declareConst name sort =>
    exact ((decides_symbol _ name).append (decides_sort _ sort)).kept ⟨trivial, trivial⟩
  | declareDatatype name dec =>
    refine ((decides_symbol _ name).and (decides_datatype _ _ dec)).congr ?_
    rw [Command.phrases, allKeep_cons]
    exact ⟨fun h => ⟨⟨h.2, trivial⟩, dec.allKeep _⟩, fun h => ⟨allKeep_nil, h.1.1⟩⟩
  | declareDatatypes sorts decs =>
    have hnames : each (fun s d => symbol (s.item 0) d.name) ((s.item 1).along 0 sorts) = [] ↔
        ∀ w ∈ sorts.map SortDec.spelling, w.Legal := by
      rw [List.forall_mem_map]
      refine each_eq_nil fun s d => ?_
      simp [symbol_eq_nil, SortDec.spelling, legal_group, legal_numeral]
    have hdecs (n : Node) : Decides (each (datatype n) ((s.item 2).along 0 decs))
        (decs.map DatatypeDec.spelling) (∀ d ∈ decs, d.Legal) := by
      rw [List.map_eq_flatMap]
      exact decides_each fun s d _ => decides_datatype n s d
    refine (((of_rule (datatypeArities_eq_nil _ sorts decs)).and
      (of_words hnames trivial).group).and (hdecs _).group).congr ?_
    rw [Command.phrases, allKeep_cons]
    constructor
    · rintro ⟨⟨harities, -⟩, hlegal⟩
      exact ⟨⟨⟨harities, hlegal⟩, trivial⟩, allKeep_each.mpr fun x _ => x.2.allKeep x.1⟩
    · rintro ⟨⟨⟨harities, hlegal⟩, -⟩, -⟩
      exact ⟨⟨harities, trivial⟩, hlegal⟩
  | declareFun name args result =>
    exact (((decides_symbol _ name).append (decides_sorts _ 0 args).group).append
      (decides_sort _ result)).kept ⟨trivial, trivial⟩
  | declareSort name arity =>
    exact ((decides_symbol _ name).concat (legal_numeral arity)).kept ⟨trivial, trivial⟩
  | defineConst name sort body =>
    exact (((decides_symbol _ name).append (decides_sort _ sort)).append
      (decides_term _ body)).kept ⟨trivial, trivial⟩
  | defineFun dec body =>
    exact ((decides_functionDec s 1 dec).append (decides_term _ body)).kept ⟨trivial, trivial⟩
  | defineFunRec dec body =>
    exact ((decides_functionDec s 1 dec).append (decides_term _ body)).kept ⟨trivial, trivial⟩
  | defineFunsRec decs bodies =>
    have hcount : (if decs.isEmpty then
          [(s.node (.command (.defineFunsRec decs bodies))).finding .functionsMissing]
        else require (decs.length == bodies.length) (s.node (.command (.defineFunsRec decs bodies)))
          (.bodyCount decs.length bodies.length)) = [] ↔
        decs ≠ [] ∧ decs.length = bodies.length := by
      cases decs <;> simp [require_eq_nil]
    have hrule := of_phrase (x := (s, .command (.defineFunsRec decs bodies))) hcount trivial
    exact (hrule.append (decides_functionDecs _ decs).group).append (decides_terms _ 0 bodies).group
  | defineSort name params sort =>
    exact (((decides_symbol _ name).append (decides_symbols _ 0 params).group).append
      (decides_sort _ sort)).append_phrase sortParams_eq_nil trivial
  | echo text =>
    have hrule : require (!text.isEmpty) (s.node (.command (.echo text))) .echoMissing = [] ↔
        text ≠ "" := by
      simp [require_eq_nil]
    exact (of_phrase (x := (s, .command (.echo text))) hrule trivial).cons (legal_token.mpr trivial)
  | getInfo kw => exact (decides_keyword _ kw).kept ⟨trivial, trivial⟩
  | getOption kw => exact (decides_keyword _ kw).kept ⟨trivial, trivial⟩
  | getValue ts =>
    exact (of_phrase (x := (s, .command (.getValue ts))) require_isEmpty trivial).append
      (decides_terms _ 0 ts).group
  | pop levels => exact (Decides.nil.cons (legal_numeral levels)).kept ⟨trivial, trivial⟩
  | push levels => exact (Decides.nil.cons (legal_numeral levels)).kept ⟨trivial, trivial⟩
  | reset => exact Decides.nil.kept ⟨trivial, trivial⟩
  | setInfo a => exact (decides_attribute _ a).kept ⟨trivial, trivial⟩
  | setLogic name => exact (decides_symbol _ name).kept ⟨trivial, trivial⟩
  | setOption a => exact (decides_attribute _ a).append_phrase (optionValue_eq_nil _ a) trivial
  | plain c => exact Decides.nil.kept ⟨trivial, trivial⟩

/-! ### Theories and logics -/

theorem sortSymbolDec_eq_nil (s : Spot) (d : SortSymbolDec) :
    sortSymbolDec s d = [] ↔ d.spelling.Legal := by
  simp only [sortSymbolDec, List.append_eq_nil_iff, identifier_eq_nil, attributesFrom_eq_nil,
    SortSymbolDec.spelling, legal_group, List.forall_mem_cons, legal_numeral, true_and]

theorem legal_signatureSpelling {head : Spelling} {args : List SmtSort} {result : SmtSort}
    {attributes : List Attribute} :
    (FunSymbolDec.signatureSpelling head args result attributes).Legal ↔ head.Legal ∧
      (∀ t ∈ args ++ [result], t.spelling.Legal) ∧
        ∀ w ∈ Attribute.allSpellings attributes, w.Legal := by
  rw [FunSymbolDec.signatureSpelling, legal_group, List.cons_append, List.forall_mem_cons,
    List.forall_mem_append, List.forall_mem_cons, SmtSort.spellings_eq_map, List.forall_mem_map,
    List.forall_mem_append, List.forall_mem_singleton, and_assoc]

/-- The attributes of a declaration come first in the check and last in the text. -/
theorem decides_signature {xs ys : List Finding} {head : Spelling} {args : List SmtSort}
    {result : SmtSort} {attributes : List Attribute}
    (hattributes : xs = [] ↔ ∀ w ∈ Attribute.allSpellings attributes, w.Legal)
    (hsignature : ys = [] ↔ head.Legal ∧ ∀ t ∈ args ++ [result], t.spelling.Legal) :
    Decides (xs ++ ys) [FunSymbolDec.signatureSpelling head args result attributes] True := by
  refine of_word ?_ trivial
  rw [legal_signatureSpelling, ← and_assoc, and_comm]
  exact List.append_eq_nil_iff.trans (and_congr hattributes hsignature)

theorem decides_funSymbolDec (s : Spot) (d : FunSymbolDec) :
    Decides (funSymbolDec s d) [d.spelling] d.Legal := by
  have hattributes : each oneAttribute (d.attributeSpots s) = [] ↔ _ := attributesFrom_eq_nil
  have hsignature : each sort (d.signatureSpots s) = [] ↔ _ := each_eq_nil sort_eq_nil
  cases d with
  | literal c sort attributes =>
    exact decides_signature hattributes (hsignature.trans (and_iff_right c.legal_spelling).symm)
  | literals c sort attributes =>
    exact decides_signature hattributes (hsignature.trans (and_iff_right (legal_word _)).symm)
  | simple name args result attributes =>
    exact decides_signature hattributes
      (List.append_eq_nil_iff.trans (and_congr (identifier_eq_nil _ name) hsignature))
  | parametric params name args result attributes =>
    have hspelling : (FunSymbolDec.parametric params name args result attributes).spelling.Legal ↔
        (∀ w ∈ params.map Spelling.symbol, w.Legal) ∧ name.spelling.Legal ∧
          (∀ t ∈ args ++ [result], t.spelling.Legal) ∧
            ∀ w ∈ Attribute.allSpellings attributes, w.Legal := by
      rw [FunSymbolDec.spelling, legal_group, List.forall_mem_cons, List.forall_mem_cons,
        List.forall_mem_singleton, and_iff_right (legal_word _), legal_group,
        legal_signatureSpelling]
    rw [Decides, List.forall_mem_singleton, hspelling]
    simp only [funSymbolDec, List.append_eq_nil_iff, hattributes, require_isEmpty, symbols_eq_nil,
      identifier_eq_nil, hsignature, sortParams_eq_nil]
    constructor
    · rintro ⟨hattributes, ⟨⟨⟨hne, hparams⟩, hname⟩, hsorts⟩, hlegal⟩
      exact ⟨⟨hparams, hname, hsorts, hattributes⟩, hne, hlegal⟩
    · rintro ⟨⟨hparams, hname, hsorts, hattributes⟩, hne, hlegal⟩
      exact ⟨hattributes, ⟨⟨⟨hne, hparams⟩, hname⟩, hsorts⟩, hlegal⟩

/-- Descriptive attributes hold strings. -/
theorem strings_eq_nil {n : Node} {a : Attribute} {strings : List String} :
    (if strings.contains a.keyword then holdsString n a else []) = [] ↔
      (a.keyword ∈ strings → ∃ s, a.value = some (.constant (.string s))) := by
  by_cases h : a.keyword ∈ strings
  · rw [if_pos (List.contains_iff_mem.mpr h), holdsString, require_eq_nil, any_isString,
      forall_prop_of_true h]
  · rw [if_neg (mt List.contains_iff_mem.mp h)]
    exact iff_of_true rfl fun hmem => absurd hmem h

end SyntaxCheck

/-- Whether an attribute of declarations holds one. -/
def TheoryAttribute.Holds : TheoryAttribute → Prop
  | sorts decs => decs ≠ []
  | funs decs => decs ≠ []
  | other _ => True

def LogicAttribute.Holds : LogicAttribute → Prop
  | theories names => names ≠ []
  | other _ => True

namespace SyntaxCheck

open Spelling (legal_word legal_token legal_keyword legal_symbol legal_numeral legal_group)
open Decides (of_words of_word of_rule)

theorem decides_theoryAttribute (s : Spot) {a : TheoryAttribute} (ha : a.Holds) :
    Decides (theoryAttribute s a) a.spellings a.Legal := by
  cases a with
  | sorts decs =>
    have hdecs : each sortSymbolDec (s.next.along 0 decs) = [] ↔
        ∀ w ∈ decs.map SortSymbolDec.spelling, w.Legal := by
      rw [List.forall_mem_map]
      exact each_eq_nil sortSymbolDec_eq_nil
    exact (of_words hdecs ha).group.cons (legal_keyword.mpr (by decide))
  | funs decs =>
    have hdecs : Decides (each funSymbolDec (s.next.along 0 decs)) _ (∀ d ∈ decs, d.Legal) :=
      decides_each fun s d _ => decides_funSymbolDec s d
    rw [← List.map_eq_flatMap] at hdecs
    exact (hdecs.group.cons (legal_keyword.mpr (by decide))).congr (and_iff_right ha).symm
  | other a =>
    refine (Iff.trans List.append_eq_nil_iff (and_congr (oneAttribute_eq_nil s a) ?_))
    rw [TheoryAttribute.Legal]
    by_cases hsorts : a.keyword = ":sorts"
    · simp [hsorts]
    by_cases hfuns : a.keyword = ":funs"
    · simp [hfuns]
    rw [if_neg hsorts, if_neg hfuns, strings_eq_nil, and_iff_right hsorts, and_iff_right hfuns]

theorem decides_logicAttribute (s : Spot) {a : LogicAttribute} (ha : a.Holds) :
    Decides (logicAttribute s a) a.spellings a.Legal := by
  cases a with
  | theories names =>
    exact (of_words symbols_eq_nil ha).group.cons (legal_keyword.mpr (by decide))
  | other a =>
    refine (Iff.trans List.append_eq_nil_iff (and_congr (oneAttribute_eq_nil s a) ?_))
    rw [LogicAttribute.Legal]
    by_cases htheories : a.keyword = ":theories"
    · simp [htheories]
    rw [if_neg htheories, strings_eq_nil, and_iff_right htheories]

/-- A theory and a logic are checked in one way: the name, that there are attributes, and these. -/
theorem decides_library {α : Type} {check : Spot → α → List Finding} {words : α → List Spelling}
    {rule : α → Prop} {as : List α} (h : ∀ s, ∀ a ∈ as, Decides (check s a) (words a) (rule a))
    {s s' : Spot} {width : α → Nat} {i : Nat} {n : Node} {p : Problem} {word name : String} :
    Decides (symbol s name ++ require (!as.isEmpty) n p ++ each check (s'.spread width i as))
      [.group (.word word :: .symbol name :: as.flatMap words)] (as ≠ [] ∧ ∀ a ∈ as, rule a) := by
  have hname : Decides (symbol s name) [.symbol name] True := of_word (symbol_eq_nil s name) trivial
  exact (((hname.append_rule require_isEmpty).and (decides_each h)).cons (legal_word _)).group.congr
    (and_congr_left' (and_iff_right trivial))

theorem decides_theory (s : Spot) {t : Theory} (ht : ∀ a ∈ t.attributes, a.Holds) :
    Decides (theory s t) [t.spelling] (Root.theory t).LegalLibrary := by
  refine decides_library fun s a ha => ?_
  exact decides_theoryAttribute s (ht a ha)

theorem decides_logic (s : Spot) {l : Logic} (hl : ∀ a ∈ l.attributes, a.Holds) :
    Decides (logic s l) [l.spelling] (Root.logic l).LegalLibrary := by
  refine decides_library fun s a ha => ?_
  exact decides_logicAttribute s (hl a ha)

end SyntaxCheck

/-! ### What the parser builds -/

theorem Build.exists_of_mem {α β : Type} {build : α → Build β} {as : List α} {bs : List β}
    (h : as.mapM build = .ok bs) {b : β} (hb : b ∈ bs) : ∃ a, build a = .ok b := by
  rw [Build.mapM_eq_ok] at h
  induction h with
  | nil => cases hb
  | cons hab _ ih =>
    rcases List.mem_cons.mp hb with rfl | hb
    · exact ⟨_, hab⟩
    · exact ih hb

theorem Pattern.binds_of_ofForm {f : Form} {p : Pattern} (hp : Pattern.ofForm f = .ok p) :
    p.Binds := by
  cases f with
  | atom e token =>
    cases token <;> cases hp
    trivial
  | list e items =>
    cases items with
    | nil => cases hp
    | cons head tail =>
      rw [Pattern.ofForm_list] at hp
      split at hp
      · split at hp
        · simp only [Build.bind_eq_ok, Build.pure_eq_ok] at hp
          obtain ⟨_, -, _, -, rfl⟩ := hp
          trivial
        · cases hp
      split at hp
      · cases hp
      · next htail =>
        have hbinds {args : List String} (hargs : tail.mapM Form.symbol = .ok args) :
            args ≠ [] := by
          rintro rfl
          exact htail (List.isEmpty_iff.mpr (List.forall₂_nil_right_iff.mp
            (Build.mapM_eq_ok.mp hargs)))
        obtain ⟨q, -, hp⟩ := Build.bind_eq_ok.mp hp
        cases q with
        | applied => cases hp
        | _ =>
          simp only [Pattern.headOf, Build.bind_eq_ok, Build.pure_eq_ok] at hp
          obtain ⟨args, hargs, rfl⟩ := hp
          exact hbinds hargs

theorem Phrase.binds_of_madeOf {f : Form} {x : Phrase} (h : x.MadeOf f) : x.Binds := by
  cases x with
  | sort t => trivial
  | command c => trivial
  | term t =>
    cases t with
    | matching scrutinee arms =>
      obtain ⟨e, g, g', cases, rfl, -, harms⟩ := Term.partsMadeOf h
      rw [Term.armsOfForm_eq] at harms
      obtain ⟨fs, -, harms⟩ := Build.bind_eq_ok.mp harms
      rintro ⟨p, t⟩ harm
      obtain ⟨f, hf⟩ := Build.exists_of_mem harms harm
      obtain ⟨_, _, _, -, hp, -⟩ := Term.armOfForm_eq_ok hf
      exact Pattern.binds_of_ofForm hp
    | _ => trivial

theorem Form.ne_nil_of_nonemptyItems? {α : Type} {value? : Form → Option α} {f : Form}
    {as : List α} (h : f.nonemptyItems? value? = some as) : as ≠ [] := by
  unfold Form.nonemptyItems? at h
  split at h
  · rintro rfl
    cases mapM_eq_some.mp h
  · cases h

theorem TheoryAttribute.holds_of_ofForms {a : AttributeForms} {x : TheoryAttribute}
    (h : TheoryAttribute.ofForms a = .ok x) : x.Holds := by
  rw [TheoryAttribute.ofForms_eq] at h
  split at h
  · next y hy =>
    cases h
    obtain ⟨f, -, hf⟩ := Option.bind_eq_some_iff.mp hy
    unfold structured? at hf
    split_ifs at hf
    · obtain ⟨decs, hdecs, rfl⟩ := Option.map_eq_some_iff.mp hf
      exact Form.ne_nil_of_nonemptyItems? hdecs
    · obtain ⟨decs, hdecs, rfl⟩ := Option.map_eq_some_iff.mp hf
      exact Form.ne_nil_of_nonemptyItems? hdecs
  · obtain ⟨b, -, hb⟩ := Build.bind_eq_ok.mp h
    cases hb
    trivial

theorem LogicAttribute.holds_of_ofForms {a : AttributeForms} {x : LogicAttribute}
    (h : LogicAttribute.ofForms a = .ok x) : x.Holds := by
  rw [LogicAttribute.ofForms_eq] at h
  split at h
  · next y hy =>
    cases h
    obtain ⟨f, -, hf⟩ := Option.bind_eq_some_iff.mp hy
    unfold structured? at hf
    split_ifs at hf
    obtain ⟨names, hnames, rfl⟩ := Option.map_eq_some_iff.mp hf
    exact Form.ne_nil_of_nonemptyItems? hnames
  · obtain ⟨b, -, hb⟩ := Build.bind_eq_ok.mp h
    cases hb
    trivial

/-- What a root has that was built from forms, apart from the rules. -/
structure Parsed.Built (p : Parsed Root) : Prop where
  phrases : ∀ x ∈ p.tree.phrases p.source, x.2.Binds
  theory : ∀ t, p.tree = .theory t → ∀ a ∈ t.attributes, a.Holds
  logic : ∀ l, p.tree = .logic l → ∀ a ∈ l.attributes, a.Holds

theorem Parsed.built_of_parseRoot {origin : Origin} {text : String} {p : Parsed Root}
    (h : parseRoot origin text = .ok p) : p.Built := by
  obtain ⟨fs, hread, hsource, htree⟩ := Parsed.ofText_eq_ok.mp h
  have hmade := Root.ofForms_eq_ok.mp htree
  refine ⟨fun x hx => ?_, fun t ht a ha => ?_, fun l hl a ha => ?_⟩
  · obtain ⟨f, -, hf⟩ := Root.allMade hmade x hx
    exact Phrase.binds_of_madeOf hf
  · rw [ht] at hmade
    obtain ⟨_, -, _, _, _, _, -, -, as, -, has⟩ := hmade
    obtain ⟨_, hbuild⟩ := Build.exists_of_mem has ha
    exact TheoryAttribute.holds_of_ofForms hbuild
  · rw [hl] at hmade
    obtain ⟨_, -, _, _, _, _, -, -, as, -, has⟩ := hmade
    obtain ⟨_, hbuild⟩ := Build.exists_of_mem has ha
    exact LogicAttribute.holds_of_ofForms hbuild

namespace SyntaxCheck

theorem decides_script (source : Source) (cs : List Command) :
    Decides (script source cs) (cs.map Command.spelling)
      (AllKeep ((Root.script cs).phrases source)) := by
  have hspellings : (∀ w ∈ cs.map Command.spelling, w.Legal) ↔
      ∀ x ∈ (Spot.top source).along 0 cs, x.2.spelling.Legal := by
    rw [← Spot.map_along (Spot.top source) 0 cs, List.forall_mem_map]
  rw [Decides, script, each, List.flatMap_eq_nil_iff, hspellings, Root.phrases, allKeep_each,
    ← forall₂_and]
  refine forall₂_congr fun x _ => (decides_command x.1 x.2).trans ?_
  rw [List.forall_mem_singleton]

/-- The syntax check decides the rules: a root that was built from a text passes it if and only if
its symbols and keywords are legal, its terms and commands keep their rules, and so do the
attributes of a theory or logic. -/
theorem root_eq_nil_iff_legal {origin : Origin} {text : String} {p : Parsed Root}
    (h : parseRoot origin text = .ok p) : root p = [] ↔ p.Legal := by
  have hbuilt := Parsed.built_of_parseRoot h
  obtain ⟨source, tree⟩ := p
  cases tree with
  | script cs =>
    refine (decides_script source cs).trans ⟨?_, ?_⟩
    · rintro ⟨htokens, hkeep⟩
      exact ⟨htokens, fun x hx => (hkeep x hx).1, trivial⟩
    · rintro ⟨htokens, hphrases, -⟩
      exact ⟨htokens, fun x hx => ⟨hphrases x hx, hbuilt.phrases x hx⟩⟩
  | theory t =>
    refine (decides_theory _ (hbuilt.theory t rfl)).trans ⟨?_, ?_⟩
    · rintro ⟨htokens, hlibrary⟩
      exact ⟨htokens, fun x hx => (t.allKeep _ x hx).1, hlibrary⟩
    · rintro ⟨htokens, -, hlibrary⟩
      exact ⟨htokens, hlibrary⟩
  | logic l =>
    refine (decides_logic _ (hbuilt.logic l rfl)).trans ⟨?_, ?_⟩
    · rintro ⟨htokens, hlibrary⟩
      exact ⟨htokens, fun _ h => absurd h List.not_mem_nil, hlibrary⟩
    · rintro ⟨htokens, -, hlibrary⟩
      exact ⟨htokens, hlibrary⟩

theorem exists_parsed (text : String) (check : Parsed Root → Bool)
    (h : (parseRoot .nowhere text).toOption.any check = true) :
    ∃ p, parseRoot .nowhere text = .ok p ∧ check p = true := by
  cases hparse : parseRoot .nowhere text with
  | error e =>
    rw [hparse] at h
    cases h
  | ok p =>
    rw [hparse] at h
    exact ⟨p, rfl, h⟩

/-- A datatype with a parameter, and a match under a quantifier. -/
def listText : String :=
  "(declare-datatypes ((L 1)) ((par (X) ((nil) (cons (hd X) (tl (L X)))))))
  (assert (forall ((l (L Bool))) (match l ((nil true) ((cons h t) h)))))"

/-- An alias that applies its parameter. -/
def appliedText : String := "(define-sort F (X) (L (X Bool)))"

theorem root_eq_nil_iff_legal_params :
    (∃ p, parseRoot .nowhere listText = .ok p ∧ p.Legal) ∧
      ∃ p, parseRoot .nowhere appliedText = .ok p ∧ ¬ p.Legal := by
  refine ⟨?_, ?_⟩
  · obtain ⟨p, hp, hpass⟩ := exists_parsed listText (fun p => (root p).isEmpty) (by
      decide +kernel)
    exact ⟨p, hp, (root_eq_nil_iff_legal hp).mp (List.isEmpty_iff.mp hpass)⟩
  · obtain ⟨p, hp, hfail⟩ := exists_parsed appliedText (fun p => !(root p).isEmpty) (by
      decide +kernel)
    refine ⟨p, hp, fun hlegal => ?_⟩
    rw [(root_eq_nil_iff_legal hp).mpr hlegal] at hfail
    cases hfail

end SyntaxCheck

end WellSorted
