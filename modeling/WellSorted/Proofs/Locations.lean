import WellSorted.Proofs.LineIndex
import WellSorted.Proofs.Phrases

/-!
# Locations

The location of a phrase names the passage it was built from: cut out of the text by its rows and
columns, the passage is parsed on its own as the same phrase. The reader reads a passage alone as it
reads it in the text (`read_passage`), rows and columns give the passage back
(`LineIndex.cut_span`), and the builders only look at what a form says
(`Phrase.madeOf_of_spelling_eq`).
-/

namespace WellSorted

open Form

/-! ### Forms that say the same -/

mutual

theorem spells_spelling : ∀ f : Form, Spells f.spelling f
  | .atom _ _ => rfl
  | .list _ items => spellsAll_spellings items

theorem spellsAll_spellings : ∀ fs : List Form, SpellsAll (spellings fs) fs
  | [] => trivial
  | f :: fs => ⟨spells_spelling f, spellsAll_spellings fs⟩

end

section

variable {f g : Form} {fs gs : List Form}

theorem spells_of_spelling_eq (h : g.spelling = f.spelling) {s : Spelling} (hf : Spells s f) :
    Spells s g := by
  have hg : Spells f.spelling g := h ▸ spells_spelling g
  exact spells_of_spells hg (spells_spelling f) hf

theorem spellsAll_of_spellings_eq (h : spellings gs = spellings fs) {ss : List Spelling}
    (hfs : SpellsAll ss fs) : SpellsAll ss gs := by
  have hgs : SpellsAll (spellings fs) gs := h ▸ spellsAll_spellings gs
  exact spellsAll_of_spellsAll hgs (spellsAll_spellings fs) hfs

theorem Command.takes_of_spellings_eq (h : spellings gs = spellings fs) {c : Command}
    (hc : c.Takes fs) : c.Takes gs := by
  rcases Command.rereadAll_arguments hc with hfs | ⟨rfl, -⟩
  · exact hfs.again gs (spellsAll_of_spellings_eq h hfs.spells)
  · cases gs with
    | nil => exact hc
    | cons g gs => cases h

theorem Command.ofForm_of_spelling_eq (h : g.spelling = f.spelling) {c : Command}
    (hc : Command.ofForm f = .ok c) : Command.ofForm g = .ok c := by
  obtain ⟨e, e', tail, rfl, htakes⟩ := Command.ofForm_eq_ok.mp hc
  match g, h with
  | .list d (.atom d' t :: gs), h =>
    simp only [Form.spelling, spellings, Spelling.group.injEq, List.cons.injEq,
      Spelling.token.injEq] at h
    obtain ⟨rfl, htail⟩ := h
    exact Command.ofForm_eq_ok.mpr ⟨d, d', gs, rfl, Command.takes_of_spellings_eq htail htakes⟩

/-- A phrase is made of every form that says what its own form says. -/
theorem Phrase.madeOf_of_spelling_eq (h : g.spelling = f.spelling) {p : Phrase}
    (hp : p.MadeOf f) : p.MadeOf g := by
  cases p with
  | sort s =>
    have hs := SmtSort.rereads f s hp
    exact hs.again g (spells_of_spelling_eq h hs.spells)
  | term t =>
    have ht := Term.rereads f t hp
    exact ht.again g (spells_of_spelling_eq h ht.spells)
  | command c => exact Command.ofForm_of_spelling_eq h hp

/-! ### Passages -/

/-- Every form that is read stands for a passage of the text, which is read as the form alone. -/
theorem read_passage {text : List Char} (h : Form.read text = .ok fs) (hf : f.Within fs) :
    ∃ before mid after, text = before ++ (mid ++ after) ∧ mid ≠ [] ∧
      f.extent = ⟨Text.byteLength before, Text.byteLength (before ++ mid)⟩ ∧
      ∃ g, Form.read mid = .ok [g] ∧ g.spelling = f.spelling := by
  obtain ⟨before, mid, after, htext, hform, -⟩ := (read_eq_ok.mp h).focus hf
  refine ⟨before, mid, after, htext, ?_, ?_, ?_⟩
  · obtain ⟨c, tail, rfl, -⟩ := hform.head
    nofun
  · rw [hform.extent, Nat.zero_add, Text.byteLength_append]
  · obtain ⟨g, hg, hsame⟩ := hform.move 0
    have halone := hg.followed fun _ _ _ _ _ => stops_nil
    exact ⟨g, read_eq_ok.mpr halone.written, hsame⟩

end

theorem Parsed.exists_single {α : Type} {build : Form → Build α} {text : String} {f : Form} {a : α}
    (h : Form.read text.toList = .ok [f]) (ha : build f = .ok a) (origin : Origin) :
    ∃ p, ofText (single build) origin text = .ok p ∧ p.tree = a :=
  ⟨⟨⟨origin, text.toList, [f]⟩, a⟩,
    ofText_eq_ok.mpr ⟨[f], h, rfl, single_eq_ok.mpr ⟨f, rfl, ha⟩⟩, rfl⟩

namespace Phrase

/-- The span of a phrase at a spot. -/
def span (s : Spot) : Phrase → Span
  | sort _ => (s.source.locate s.extent).span
  | term t => (s.node (.term t)).location.span
  | command c => (s.node (.command c)).location.span

/-- Whether a text, wherever it comes from, is parsed as a phrase and nothing else. -/
def ParsedFrom (text : String) : Phrase → Prop
  | sort s => ∀ origin, ∃ p, parseSort origin text = .ok p ∧ p.tree = s
  | term t => ∀ origin, ∃ p, parseTerm origin text = .ok p ∧ p.tree = t
  | command c => ∀ origin, ∃ p, parseCommand origin text = .ok p ∧ p.tree = c

theorem span_eq (s : Spot) (p : Phrase) :
    p.span s = (LineIndex.ofText s.source.text).span s.extent.start s.extent.stop := by
  cases p <;> rfl

theorem parsedFrom_of_madeOf {p : Phrase} {text : String} {f : Form}
    (h : Form.read text.toList = .ok [f]) (hp : p.MadeOf f) : p.ParsedFrom text := by
  cases p <;> exact Parsed.exists_single h hp

/-- The text at the location of a sort, term or command of a root, at any depth, is parsed as that
sort, term or command. -/
theorem parsedFrom_cut (origin : Origin) (text : String) (p : Parsed Root) (s : Spot) (x : Phrase)
    (h : parseRoot origin text = .ok p) (hx : (s, x) ∈ p.tree.phrases p.source) :
    x.ParsedFrom (String.ofList ((x.span s).cut text.toList)) := by
  obtain ⟨fs, hread, hsource, htree⟩ := Parsed.ofText_eq_ok.mp h
  have hmade : AllMade p.source (p.tree.phrases p.source) :=
    Root.allMade (Root.ofForms_eq_ok.mp htree)
  obtain ⟨f, hs, hf⟩ := hmade _ hx
  obtain ⟨source, tree⟩ := p
  subst hsource
  obtain ⟨before, mid, after, htext, hne, hextent, g, hg, hsame⟩ :=
    read_passage hread (Source.within_of_form? hs.form)
  have hcut : (x.span s).cut text.toList = mid := by
    rw [span_eq, hs.source, hs.extent, hextent, htext]
    exact LineIndex.cut_span before after hne
  rw [hcut]
  refine parsedFrom_of_madeOf (f := g) ?_ (madeOf_of_spelling_eq hsame hf)
  rw [String.toList_ofList, hg]

/-- A term over two rows, after a comment and around a quoted newline. -/
theorem parsedFrom_cut_rows :
    ∃ p s t, parseRoot .nowhere "(assert ; é\n (= |é\n| (as x (Set Int))))" = .ok p ∧
      (s, .term t) ∈ p.tree.phrases p.source ∧ (Phrase.term t).span s = ⟨⟨2, 2⟩, ⟨3, 19⟩⟩ ∧
      (Phrase.term t).ParsedFrom "(= |é\n| (as x (Set Int)))" := by
  let source : Source := ⟨.nowhere, "(assert ; é\n (= |é\n| (as x (Set Int))))".toList,
    [.list ⟨0, 41⟩ [.atom ⟨1, 7⟩ (.symbol "assert"),
      .list ⟨14, 40⟩ [.atom ⟨15, 16⟩ (.symbol "="), .atom ⟨17, 22⟩ (.symbol "é\n"),
        .list ⟨23, 39⟩ [.atom ⟨24, 26⟩ (.symbol "as"), .atom ⟨27, 28⟩ (.symbol "x"),
          .list ⟨29, 38⟩ [.atom ⟨30, 33⟩ (.symbol "Set"), .atom ⟨34, 37⟩ (.symbol "Int")]]]]]⟩
  let t : Term := .app (.simple "=") [.ident (.simple "é\n"),
    .ident ⟨.simple "x", some (.mk (.simple "Set") [.simple "Int"])⟩]
  have hparse : parseRoot .nowhere "(assert ; é\n (= |é\n| (as x (Set Int))))" =
      .ok ⟨source, .script [.assert t]⟩ := by
    rw [parseRoot, Parsed.ofText_eq_ok]
    exact ⟨_, rfl, rfl, rfl⟩
  have hmem : (⟨source, [1, 0]⟩, .term t) ∈ (Root.script [.assert t]).phrases source :=
    .tail _ (.head _)
  have hspan : (Phrase.term t).span ⟨source, [1, 0]⟩ = ⟨⟨2, 2⟩, ⟨3, 19⟩⟩ := by decide +kernel
  have hcut : Span.cut ⟨⟨2, 2⟩, ⟨3, 19⟩⟩ source.text = "(= |é\n| (as x (Set Int)))".toList := by
    decide +kernel
  have hparsed := parsedFrom_cut .nowhere _ _ _ _ hparse hmem
  rw [hspan] at hparsed
  refine ⟨_, _, _, hparse, hmem, hspan, ?_⟩
  rw [← String.ofList_toList (s := "(= |é\n| (as x (Set Int)))"), ← hcut]
  exact hparsed

end Phrase

end WellSorted
