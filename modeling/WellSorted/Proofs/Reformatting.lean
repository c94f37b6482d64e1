import WellSorted.Proofs.Likeness.Checks
import WellSorted.Proofs.RoundTrip
import WellSorted.Run.Execution

/-!
# Reformatting

A text and the rendering of its tree are checked alike: the check ends at the same stage, and the
report says the same of the same nodes, apart from where they stand (`checkText_render`). To compare
reports, sources are left with their origins alone, so that nodes keep their addresses and parts but
have no locations.
-/

namespace WellSorted

/-! ### Reports without locations -/

/-- The source without its text. -/
def Source.bare (s : Source) : Source := ⟨s.origin, [], []⟩

def Spot.bare (s : Spot) : Spot := ⟨s.source.bare, s.address⟩

def Node.bare (n : Node) : Node := ⟨n.spot.bare, n.part⟩

def Declaration.bare : Declaration → Declaration
  | .sort d => .sort (d.atNode d.node.bare)
  | .function f => .function (f.atNode f.node.bare)
  | .var v => .var (v.atNode v.node.bare)

def Finding.bare (f : Finding) : Finding :=
  ⟨f.node.bare, f.problem, f.previous.map Declaration.bare⟩

def NodeEntry.bare (e : NodeEntry) : NodeEntry := ⟨e.node.bare, e.findings.map Finding.bare⟩

def FileEntry.bare (e : FileEntry) : FileEntry := ⟨e.file, e.entries.map NodeEntry.bare⟩

namespace Report

theorem insertNode_bare (f : Finding) (entries : List NodeEntry) :
    FileEntry.insertNode f.bare (entries.map NodeEntry.bare) =
      (FileEntry.insertNode f entries).map NodeEntry.bare := by
  induction entries with
  | nil => rfl
  | cons e entries ih =>
    have hid : e.bare.node.id = f.bare.node.id ↔ e.node.id = f.node.id := .rfl
    simp only [List.map_cons, FileEntry.insertNode, hid]
    split
    · simp [NodeEntry.bare]
    · rw [ih, List.map_cons]

theorem insertFile_bare (f : Finding) (files : List FileEntry) :
    FileEntry.insertFile f.bare (files.map FileEntry.bare) =
      (FileEntry.insertFile f files).map FileEntry.bare := by
  have hname : f.bare.node.fileName = f.node.fileName := rfl
  induction files with
  | nil => rfl
  | cons e files ih =>
    have hfile : e.bare.file = e.file := rfl
    simp only [List.map_cons, FileEntry.insertFile, hname, hfile]
    split
    · exact congrArg (fun entries => ⟨e.file, entries⟩ :: files.map FileEntry.bare)
        (insertNode_bare f e.entries)
    · split
      · rfl
      · rw [ih, List.map_cons]

/-- Findings are grouped by what they keep without locations. -/
theorem files_bare (fs : List Finding) :
    files (fs.map Finding.bare) = (files fs).map FileEntry.bare := by
  have hfold (entered : List FileEntry) :
      (fs.map Finding.bare).foldl (fun files f => FileEntry.insertFile f files)
        (entered.map FileEntry.bare) =
      (fs.foldl (fun files f => FileEntry.insertFile f files) entered).map FileEntry.bare := by
    induction fs generalizing entered with
    | nil => rfl
    | cons f fs ih => rw [List.map_cons, List.foldl_cons, insertFile_bare, ih, List.foldl_cons]
  exact hfold []

end Report

/-! ### Texts of one tree -/

theorem Spot.bare_next (s : Spot) : s.next.bare = s.bare.next := by
  obtain ⟨source, address⟩ := s
  cases address with
  | nil => rfl
  | cons i outer => rfl

/-- Sources may have different texts. -/
def Likeness.reformatted : Likeness where
  spot s s' := s.bare = s'.bare
  node n n' := n.bare = n'.bare
  serial := Eq
  ordered := True
  item i h := congrArg (·.item i) h
  next h := by rw [Spot.bare_next, h, Spot.bare_next]
  at_spot p h := congrArg (·.node p) h
  succ h := congrArg (· + 1) h
  fetched file text forms h := congrArg (fun m => (Spot.top ⟨⟨file, m⟩, text, forms⟩).bare) h

open Likeness (reformatted)

theorem Declaration.Like.bare {d e : Declaration} (h : d.Like reformatted e) : d.bare = e.bare := by
  cases h with
  | @sort d _ h =>
    obtain ⟨n, hn, rfl⟩ := h
    exact congrArg (fun m => Declaration.sort (d.atNode m)) hn
  | @function f _ h =>
    obtain ⟨n, hn, rfl⟩ := h
    exact congrArg (fun m => Declaration.function (f.atNode m)) hn
  | @var v _ h =>
    obtain ⟨n, hn, rfl⟩ := h
    exact congrArg (fun m => Declaration.var (v.atNode m)) hn

theorem Finding.Like.bare {f g : Finding} (h : f.Like reformatted g) : f.bare = g.bare := by
  obtain ⟨n, p, previous⟩ := f
  obtain ⟨n', q, previous'⟩ := g
  obtain ⟨hn, hproblem, hprevious⟩ := h
  have hnode : n.bare = n'.bare := hn
  cases hproblem trivial
  cases hprevious trivial with
  | none => rw [Finding.bare, Finding.bare, hnode]
  | some h => rw [Finding.bare, Finding.bare, hnode, Option.map_some, Option.map_some, h.bare]

theorem Likeness.files_eq {fs gs : List Finding} (h : reformatted.Findings fs gs) :
    (Report.files fs).map FileEntry.bare = (Report.files gs).map FileEntry.bare := by
  rw [← Report.files_bare, ← Report.files_bare, map_eq_of_forall₂ (fun _ _ h => h.bare) h]

/-- The stage at which a check fails, and its report without locations. -/
inductive Outline where
  | unreadable
  | unparsable
  | illFormed (files : List FileEntry)
  | illSorted (files : List FileEntry)

def Failure.outline : Failure → Outline
  | unreadable _ _ => .unreadable
  | unparsable _ => .unparsable
  | illFormed fs => .illFormed ((Report.files fs).map FileEntry.bare)
  | illSorted fs => .illSorted ((Report.files fs).map FileEntry.bare)

theorem Context.like_fresh : fresh.Like reformatted fresh :=
  ⟨⟨Scope.like_empty, .nil, .inl trivial⟩, rfl, rfl, rfl, rfl, rfl⟩

/-- One tree of two texts. -/
theorem outline_checkRoot (setup : Setup) {source source' : Source}
    (h : source.origin = source'.origin) (r : Root) :
    (checkRoot setup ⟨source, r⟩).mapError Failure.outline =
      (checkRoot setup ⟨source', r⟩).mapError Failure.outline := by
  have hspot : reformatted.spot (.top source) (.top source') :=
    congrArg (fun origin => Spot.top ⟨origin, [], []⟩) h
  have hform := SyntaxCheck.like_root hspot r
  have hsorts : reformatted.Findings (Check.root setup .fresh ⟨source, r⟩).findings
      (Check.root setup .fresh ⟨source', r⟩).findings :=
    (Context.like_fresh.root hspot r).findings
  unfold checkRoot
  -- Findings that correspond one to one are missing in both texts or in none.
  generalize SyntaxCheck.root ⟨source, r⟩ = fs, SyntaxCheck.root ⟨source', r⟩ = gs at hform
  cases hform with
  | cons hf hfs =>
    exact congrArg (fun files => Except.error (Outline.illFormed files))
      (Likeness.files_eq (.cons hf hfs))
  | nil =>
    simp only
    generalize (Check.root setup .fresh ⟨source, r⟩).findings = fs,
      (Check.root setup .fresh ⟨source', r⟩).findings = gs at hsorts
    cases hsorts with
    | nil => rfl
    | cons hf hfs =>
      exact congrArg (fun files => Except.error (Outline.illSorted files))
        (Likeness.files_eq (.cons hf hfs))

theorem origin_of_parseRoot {origin : Origin} {text : String} {p : Parsed Root}
    (h : parseRoot origin text = .ok p) : p.source.origin = origin := by
  obtain ⟨fs, -, hsource, -⟩ := Parsed.ofText_eq_ok.mp h
  rw [hsource]

/-- A text is parsed as the same tree wherever it comes from. -/
theorem exists_parseRoot {origin : Origin} {text : String} {p : Parsed Root}
    (h : parseRoot origin text = .ok p) (origin' : Origin) :
    ∃ source, parseRoot origin' text = .ok ⟨source, p.tree⟩ := by
  obtain ⟨fs, hread, hsource, htree⟩ := Parsed.ofText_eq_ok.mp h
  rw [hsource] at htree
  exact ⟨⟨origin', text.toList, fs⟩, Parsed.ofText_eq_ok.mpr ⟨fs, hread, rfl, htree⟩⟩

theorem exists_parseRoot_render {origin : Origin} {text : String} {p : Parsed Root}
    (h : parseRoot origin text = .ok p) (origin' : Origin) :
    ∃ source, parseRoot origin' p.tree.render = .ok ⟨source, p.tree⟩ := by
  obtain ⟨⟨source, _⟩, hq, rfl⟩ := Parsed.ofText_render (fun fs r => r.MadeOf fs) Root.spellings
    (fun _ _ => Root.ofForms_eq_ok) Root.toList_render (fun _ _ => Root.legible_of_madeOf) h origin'
  exact ⟨source, hq⟩

/-- The check of a text and the check of the rendering of its tree end at the same stage, with
reports that differ in locations only. -/
theorem checkText_render (setup : Setup) (file : Option String) {origin : Origin} {text : String}
    {p : Parsed Root} (h : parseRoot origin text = .ok p) :
    (checkText setup file p.tree.render).mapError Failure.outline =
      (checkText setup file text).mapError Failure.outline := by
  obtain ⟨source, hsource⟩ := exists_parseRoot h ⟨file, 0⟩
  obtain ⟨source', hsource'⟩ := exists_parseRoot_render h ⟨file, 0⟩
  have horigin : source'.origin = source.origin :=
    (origin_of_parseRoot hsource').trans (origin_of_parseRoot hsource).symm
  rw [checkText, checkText, hsource, hsource']
  exact outline_checkRoot setup horigin p.tree

theorem checkText_render_spaced :
    let setup := ⟨⟨"", "", "", "", false⟩, fun _ => .missing⟩
    let text := "(declare-const\n  c B) ; no sort\n( assert c )"
    ∃ p, parseRoot .nowhere text = .ok p ∧ p.tree.render = "(declare-const c B)\n(assert c)" ∧
      (checkText setup none text).mapError Failure.message = .error
        ("1:1 - 2:6   (declare-const c B)\n\tUnknown sort 'B'.\n\n3:1 - 3:12   (assert c)\n" ++
          "\tAsserted term has sort B instead of Bool.\n\n\n") ∧
      (checkText setup none p.tree.render).mapError Failure.outline =
        (checkText setup none text).mapError Failure.outline := by
  intro setup text
  have hparse : (parseRoot .nowhere text).toOption.map (·.tree.render) =
      some "(declare-const c B)\n(assert c)" := by
    decide +kernel
  cases hp : parseRoot .nowhere text with
  | error e =>
    rw [hp] at hparse
    exact absurd hparse nofun
  | ok p =>
    rw [hp] at hparse
    exact ⟨p, rfl, Option.some.inj hparse, by decide +kernel, checkText_render setup none hp⟩

end WellSorted
