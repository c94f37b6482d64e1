import WellSorted.Proofs.Rebuilding.Roots
import WellSorted.Source.Parse

/-!
# Parsing what was rendered

A text that parses is rendered to a text that parses to the same tree. Trees hold no places and
decimals are reduced, so equality of trees is equality up to places and the writing of decimals.
-/

namespace WellSorted

/-- What a text is parsed as. -/
inductive TextKind where
  | root
  | script
  | theory
  | logic
  | command
  | term
  | sort

namespace TextKind

abbrev Tree : TextKind → Type
  | root => Root
  | script => List Command
  | theory => Theory
  | logic => Logic
  | command => Command
  | term => Term
  | sort => SmtSort

def parse (origin : Origin) (text : String) : (k : TextKind) → Except ParseError (Parsed k.Tree)
  | root => parseRoot origin text
  | script => parseScript origin text
  | theory => parseTheory origin text
  | logic => parseLogic origin text
  | command => parseCommand origin text
  | term => parseTerm origin text
  | sort => parseSort origin text

def render : (k : TextKind) → k.Tree → String
  | root => Root.render
  | script => renderScript
  | theory => Theory.render
  | logic => Logic.render
  | command => Command.render
  | term => Term.render
  | sort => SmtSort.render

end TextKind

/-! ### Texts of one kind -/

/-- The characters of forms on lines of their own. -/
def lines (ss : List Spelling) : List Char := ['\n'].intercalate (ss.map Spelling.chars)

theorem toList_text (s : Spelling) : s.text.toList = lines [s] := by
  simp [Spelling.text, lines, List.intercalate]

theorem toList_renderScript (cs : List Command) :
    (renderScript cs).toList = lines (cs.map Command.spelling) := by
  rw [renderScript, String.toList_intercalate, lines, List.map_map, List.map_map]
  congr 1
  exact List.map_congr_left fun c _ => String.toList_ofList

namespace Parsed

theorem ofText_eq_ok {α : Type} {build : Source → Except Rejection α} {origin : Origin}
    {text : String} {p : Parsed α} : ofText build origin text = .ok p ↔
      ∃ fs, Form.read text.toList = .ok fs ∧ p.source = ⟨origin, text.toList, fs⟩ ∧
        build p.source = .ok p.tree := by
  obtain ⟨source, tree⟩ := p
  unfold ofText ofChars
  cases Form.read text.toList with
  | error e => simp
  | ok fs =>
    cases hbuild : build ⟨origin, text.toList, fs⟩ with
    | error r =>
      simp only [hbuild, reduceCtorEq, false_iff, not_exists, not_and]
      rintro _ ⟨⟩ rfl
      rw [hbuild]
      nofun
    | ok a =>
      simp only [hbuild, Except.ok.injEq, mk.injEq]
      constructor
      · rintro ⟨rfl, rfl⟩
        exact ⟨fs, rfl, rfl, hbuild⟩
      · rintro ⟨_, rfl, rfl, ha⟩
        exact ⟨rfl, Except.ok.inj (hbuild.symm.trans ha)⟩

theorem single_eq_ok {α : Type} {build : Form → Build α} {s : Source} {a : α} :
    single build s = .ok a ↔ ∃ f, s.forms = [f] ∧ build f = .ok a := by
  unfold single
  split
  · next f hf => simp [Root.mapError_eq_ok, hf]
  · next hf =>
    simp only [reduceCtorEq, false_iff, not_exists, not_and]
    exact fun f h => absurd h (hf f)

/-- If a tree of some forms is legible and made of all forms that it spells, then it is parsed
again from its rendering. -/
theorem ofText_render {α : Type} {build : Source → Except Rejection α} {render : α → String}
    (madeOf : List Form → α → Prop) (spellings : α → List Spelling)
    (hbuild : ∀ s a, build s = .ok a ↔ madeOf s.forms a)
    (hrender : ∀ a, (render a).toList = lines (spellings a))
    (hagain : ∀ fs a, madeOf fs a → Form.AllLegible fs →
      Spelling.AllLegible (spellings a) ∧ ∀ gs, SpellsAll (spellings a) gs → madeOf gs a)
    {origin : Origin} {text : String} {p : Parsed α} (h : ofText build origin text = .ok p)
    (origin' : Origin) :
    ∃ q, ofText build origin' (render p.tree) = .ok q ∧ q.tree = p.tree := by
  obtain ⟨fs, hread, hsource, htree⟩ := ofText_eq_ok.mp h
  have hmade : madeOf fs p.tree := by
    rw [hbuild, hsource] at htree
    exact htree
  obtain ⟨hlegible, hspelled⟩ := hagain fs p.tree hmade (read_legible hread)
  obtain ⟨gs, hgs, hread'⟩ := read_lines hlegible
  rw [← lines, ← hrender] at hread'
  exact ⟨⟨⟨origin', _, gs⟩, p.tree⟩,
    ofText_eq_ok.mpr ⟨gs, hread', rfl, (hbuild _ _).mpr (hspelled gs hgs)⟩, rfl⟩

end Parsed

theorem scriptOfForms_eq_ok {fs : List Form} {cs : List Command} :
    scriptOfForms fs = .ok cs ↔ (Root.script cs).MadeOf fs :=
  Build.mapM_eq_ok

/-- A root of one kind is picked from a source that it is made of. -/
theorem pick_ofSource_eq_ok {α : Type} {pick : Root → Except Rejection α} {root : α → Root}
    (hpick : ∀ r a, pick r = .ok a ↔ r = root a) {s : Source} {a : α} :
    (Root.ofSource s >>= pick) = .ok a ↔ (root a).MadeOf s.forms := by
  rw [← Root.ofForms_eq_ok, ← Root.ofSource]
  cases Root.ofSource s with
  | error e => exact ⟨nofun, nofun⟩
  | ok r =>
    rw [Except.ok.injEq]
    exact hpick r a

theorem theoryOfSource_eq_ok {s : Source} {t : Theory} :
    (Root.ofSource s >>= fun r => match r with
      | .theory t => pure t
      | _ => throw (.unexpected (Form.hull s.forms))) = .ok t ↔ (Root.theory t).MadeOf s.forms := by
  refine pick_ofSource_eq_ok fun r t => ?_
  cases r with
  | theory t' => exact ⟨fun h => by cases h; rfl, fun h => by cases h; rfl⟩
  | _ => exact ⟨nofun, nofun⟩

theorem logicOfSource_eq_ok {s : Source} {l : Logic} :
    (Root.ofSource s >>= fun r => match r with
      | .logic l => pure l
      | _ => throw (.unexpected (Form.hull s.forms))) = .ok l ↔ (Root.logic l).MadeOf s.forms := by
  refine pick_ofSource_eq_ok fun r l => ?_
  cases r with
  | logic l' => exact ⟨fun h => by cases h; rfl, fun h => by cases h; rfl⟩
  | _ => exact ⟨nofun, nofun⟩

theorem Root.toList_render (r : Root) : r.render.toList = lines r.spellings := by
  cases r with
  | script cs => exact toList_renderScript cs
  | theory t => exact toList_text t.spelling
  | logic l => exact toList_text l.spelling

theorem madeOf_script_singleton {fs : List Form} {c : Command} :
    (Root.script [c]).MadeOf fs ↔ ∃ f, fs = [f] ∧ Command.ofForm f = .ok c := by
  constructor
  · rintro (_ | ⟨hc, _ | _⟩)
    exact ⟨_, rfl, hc⟩
  · rintro ⟨f, rfl, hc⟩
    exact .cons hc .nil

/-- What is rendered parses to the same tree, which is rendered to the same text. -/
theorem parse_render (k : TextKind) (origin origin' : Origin) (text : String) (p : Parsed k.Tree)
    (h : k.parse origin text = .ok p) :
    ∃ q, k.parse origin' (k.render p.tree) = .ok q ∧ q.tree = p.tree ∧
      k.render q.tree = k.render p.tree := by
  suffices hq : ∃ q, k.parse origin' (k.render p.tree) = .ok q ∧ q.tree = p.tree by
    obtain ⟨q, hq, htree⟩ := hq
    exact ⟨q, hq, htree, by rw [htree]⟩
  cases k with
  | root =>
    exact Parsed.ofText_render (fun fs r => r.MadeOf fs) Root.spellings
      (fun _ _ => Root.ofForms_eq_ok) Root.toList_render
      (fun _ _ => Root.legible_of_madeOf) h origin'
  | script =>
    exact Parsed.ofText_render (fun fs cs => (Root.script cs).MadeOf fs)
      (fun cs => cs.map Command.spelling)
      (fun _ _ => Root.mapError_eq_ok.trans scriptOfForms_eq_ok) toList_renderScript
      (fun _ _ => Root.legible_of_madeOf) h origin'
  | theory =>
    exact Parsed.ofText_render (fun fs t => (Root.theory t).MadeOf fs) (fun t => [t.spelling])
      (fun _ _ => theoryOfSource_eq_ok) (fun t => toList_text _)
      (fun _ _ => Root.legible_of_madeOf) h origin'
  | logic =>
    exact Parsed.ofText_render (fun fs l => (Root.logic l).MadeOf fs) (fun l => [l.spelling])
      (fun _ _ => logicOfSource_eq_ok) (fun l => toList_text _)
      (fun _ _ => Root.legible_of_madeOf) h origin'
  | command =>
    exact Parsed.ofText_render (fun fs c => (Root.script [c]).MadeOf fs) (fun c => [c.spelling])
      (fun _ _ => Parsed.single_eq_ok.trans madeOf_script_singleton.symm) (fun c => toList_text _)
      (fun _ _ => Root.legible_of_madeOf) h origin'
  | term =>
    refine Parsed.ofText_render (fun fs t => ∃ f, fs = [f] ∧ Term.ofForm f = .ok t)
      (fun t => [t.spelling]) (fun _ _ => Parsed.single_eq_ok) (fun t => toList_text _)
      ?_ h origin'
    rintro _ t ⟨f, rfl, hf⟩ hl
    have hone := (Term.rereads f t hf).one
    exact ⟨hone.legible hl, hone.again⟩
  | sort =>
    refine Parsed.ofText_render (fun fs s => ∃ f, fs = [f] ∧ SmtSort.ofForm f = .ok s)
      (fun s => [s.spelling]) (fun _ _ => Parsed.single_eq_ok) (fun s => toList_text _)
      ?_ h origin'
    rintro _ s ⟨f, rfl, hf⟩ hl
    have hone := (SmtSort.rereads f s hf).one
    exact ⟨hone.legible hl, hone.again⟩

theorem parse_render_push :
    ∃ p, TextKind.command.parse .nowhere "(push)" = .ok p ∧
      TextKind.command.render p.tree = "(push 1)" ∧
      ∃ q, TextKind.command.parse .nowhere (TextKind.command.render p.tree) = .ok q ∧
        q.tree = p.tree ∧ TextKind.command.render q.tree = TextKind.command.render p.tree := by
  have hparse : TextKind.command.parse .nowhere "(push)" =
      .ok ⟨⟨.nowhere, "(push)".toList, [.list ⟨0, 6⟩ [.atom ⟨1, 5⟩ (.symbol "push")]]⟩, .push 1⟩ := by
    rw [TextKind.parse, parseCommand, Parsed.ofText_eq_ok]
    exact ⟨_, rfl, rfl, rfl⟩
  exact ⟨_, hparse, by decide +kernel, parse_render .command .nowhere .nowhere _ _ hparse⟩

end WellSorted
