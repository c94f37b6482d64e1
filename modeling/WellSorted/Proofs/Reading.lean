import WellSorted.Form.Reader
import WellSorted.Form.Spelling
import WellSorted.Proofs.Lexemes

/-!
# Reading back what was written

`Spells s f`: the form `f` consists of the tokens and groups that `s` is written with, wherever it
stands in a text. Reading the characters of a legible spelling gives a form that it spells
(`readFrom_chars`), and every form that is read has legible tokens only (`read_legible`).
-/

namespace WellSorted

mutual

/-- Whether a form is what a spelling writes; places do not count. -/
def Spells : Spelling → Form → Prop
  | .word s, .atom _ t => t = .symbol s
  | .token t, .atom _ t' => t' = t
  | .group ss, .list _ fs => SpellsAll ss fs
  | _, _ => False

def SpellsAll : List Spelling → List Form → Prop
  | [], [] => True
  | s :: ss, f :: fs => Spells s f ∧ SpellsAll ss fs
  | _, _ => False

end

mutual

/-- Whether all tokens and words of a spelling can be read back. -/
def Spelling.Legible : Spelling → Prop
  | .word s => isSimpleSymbol s = true
  | .token t => t.Legible
  | .group ss => Spelling.AllLegible ss

def Spelling.AllLegible : List Spelling → Prop
  | [] => True
  | s :: ss => s.Legible ∧ Spelling.AllLegible ss

end

mutual

def Form.Legible : Form → Prop
  | .atom _ t => t.Legible
  | .list _ fs => Form.AllLegible fs

def Form.AllLegible : List Form → Prop
  | [] => True
  | f :: fs => f.Legible ∧ Form.AllLegible fs

end

/-! ### Spelled forms -/

theorem spells_word {s : String} {f : Form} :
    Spells (.word s) f ↔ ∃ e, f = .atom e (.symbol s) := by
  cases f with
  | atom e t => simp [Spells]
  | list e fs => simp [Spells]

theorem spells_token {t : Token} {f : Form} : Spells (.token t) f ↔ ∃ e, f = .atom e t := by
  cases f with
  | atom e t => simp [Spells]
  | list e fs => simp [Spells]

theorem spells_symbol {s : String} {f : Form} :
    Spells (.symbol s) f ↔ ∃ e, f = .atom e (.symbol s) :=
  spells_token

theorem spells_group {ss : List Spelling} {f : Form} :
    Spells (.group ss) f ↔ ∃ e fs, f = .list e fs ∧ SpellsAll ss fs := by
  cases f with
  | atom e t => simp [Spells]
  | list e fs =>
    rw [Spells]
    refine ⟨fun h => ⟨e, fs, rfl, h⟩, ?_⟩
    rintro ⟨_, _, ⟨⟩, hs⟩
    exact hs

@[simp] theorem spellsAll_nil {fs : List Form} : SpellsAll [] fs ↔ fs = [] := by
  cases fs <;> simp [SpellsAll]

theorem spellsAll_cons {s : Spelling} {ss : List Spelling} {fs : List Form} :
    SpellsAll (s :: ss) fs ↔ ∃ f rest, fs = f :: rest ∧ Spells s f ∧ SpellsAll ss rest := by
  cases fs with
  | nil => simp [SpellsAll]
  | cons f fs =>
    rw [SpellsAll]
    refine ⟨fun h => ⟨f, fs, rfl, h⟩, ?_⟩
    rintro ⟨_, _, ⟨⟩, hs⟩
    exact hs

theorem spellsAll_append {ss ts : List Spelling} {fs : List Form} :
    SpellsAll (ss ++ ts) fs ↔ ∃ fs₁ fs₂, fs = fs₁ ++ fs₂ ∧ SpellsAll ss fs₁ ∧ SpellsAll ts fs₂ := by
  induction ss generalizing fs with
  | nil => exact ⟨fun h => ⟨[], fs, rfl, by simp, h⟩, by rintro ⟨_, _, rfl, h, hs⟩; simp_all⟩
  | cons s ss ih =>
    simp only [List.cons_append, spellsAll_cons, ih]
    constructor
    · rintro ⟨f, _, rfl, hf, fs₁, fs₂, rfl, h₁, h₂⟩
      exact ⟨f :: fs₁, fs₂, rfl, ⟨f, fs₁, rfl, hf, h₁⟩, h₂⟩
    · rintro ⟨_, fs₂, rfl, ⟨f, fs₁, rfl, hf, h₁⟩, h₂⟩
      exact ⟨f, fs₁ ++ fs₂, rfl, hf, fs₁, fs₂, rfl, h₁, h₂⟩

/-- Forms of one spelling are atoms of one token, or lists. -/
theorem atoms_or_lists_of_spells {s : Spelling} {f g : Form} (hf : Spells s f) (hg : Spells s g) :
    (∃ e e' t, f = .atom e t ∧ g = .atom e' t) ∨
      ∃ e e' fs gs, f = .list e fs ∧ g = .list e' gs := by
  cases s with
  | word w =>
    obtain ⟨e, rfl⟩ := spells_word.mp hf
    obtain ⟨e', rfl⟩ := spells_word.mp hg
    exact .inl ⟨e, e', _, rfl, rfl⟩
  | token t =>
    obtain ⟨e, rfl⟩ := spells_token.mp hf
    obtain ⟨e', rfl⟩ := spells_token.mp hg
    exact .inl ⟨e, e', t, rfl, rfl⟩
  | group ss =>
    obtain ⟨e, fs, rfl, -⟩ := spells_group.mp hf
    obtain ⟨e', gs, rfl, -⟩ := spells_group.mp hg
    exact .inr ⟨e, e', fs, gs, rfl, rfl⟩

/-- The head of a list decides what is built from it, and the spelling tells what symbol it is. -/
theorem symbol?_eq_of_spells {s : Spelling} {f g : Form} (hf : Spells s f) (hg : Spells s g) :
    g.symbol? = f.symbol? := by
  rcases atoms_or_lists_of_spells hf hg with ⟨e, e', t, rfl, rfl⟩ | ⟨e, e', fs, gs, rfl, rfl⟩
  · cases t <;> rfl
  · rfl

theorem keyword?_eq_of_spells {s : Spelling} {f g : Form} (hf : Spells s f) (hg : Spells s g) :
    g.keyword? = f.keyword? := by
  rcases atoms_or_lists_of_spells hf hg with ⟨e, e', t, rfl, rfl⟩ | ⟨e, e', fs, gs, rfl, rfl⟩
  · cases t <;> rfl
  · rfl

theorem Spelling.legible_word {s : String} (h : isSimpleSymbol s = true) :
    (Spelling.word s).Legible := h

theorem allLegible_append {ss ts : List Spelling} :
    Spelling.AllLegible (ss ++ ts) ↔ Spelling.AllLegible ss ∧ Spelling.AllLegible ts := by
  induction ss with
  | nil => simp [Spelling.AllLegible]
  | cons s ss ih => simp [Spelling.AllLegible, ih, and_assoc]

theorem Form.allLegible_append {fs gs : List Form} :
    Form.AllLegible (fs ++ gs) ↔ Form.AllLegible fs ∧ Form.AllLegible gs := by
  induction fs with
  | nil => simp [Form.AllLegible]
  | cons f fs ih => simp [Form.AllLegible, ih, and_assoc]

theorem Form.allLegible_reverse {fs : List Form} :
    Form.AllLegible fs.reverse ↔ Form.AllLegible fs := by
  induction fs with
  | nil => rfl
  | cons f fs ih => simp [Form.AllLegible, Form.allLegible_append, ih, and_comm]

/-! ### Attempts -/

/-- No token starts with a blank, a semicolon or a parenthesis. -/
theorem scan_eq_some_cons {c : Char} {cs : List Char} {p : Token × Nat}
    (h : Token.scan (c :: cs) = some p) :
    Form.isBlank c = false ∧ c ≠ ';' ∧ c ≠ '(' ∧ c ≠ ')' := by
  refine ⟨?_, ?_, ?_, ?_⟩
  · cases hb : Form.isBlank c with
    | false => rfl
    | true =>
      simp only [Form.isBlank, Bool.or_eq_true, beq_iff_eq] at hb
      rcases hb with ((rfl | rfl) | rfl) | rfl <;> simp [Token.scan, isSymbolChar, symbolMarks] at h
  all_goals
    rintro rfl
    simp [Token.scan, isSymbolChar, symbolMarks] at h

namespace Form

section

variable {opened : List (Nat × List Form)} {items : List Form} {offset : Nat} {text : List Char}
  {tried : List Awaited}

theorem tryToken_eq_error : tryToken opened items offset text = .error tried ↔
    Token.scan text = none ∧ tried = [.token] := by
  cases text with
  | nil => simp [tryToken, Token.scan, eq_comm]
  | cons c cs =>
    rw [tryToken]
    cases Token.scan (c :: cs) <;> simp [eq_comm]

theorem tryOpening_eq_error : tryOpening opened items offset text = .error tried ↔
    text.head? ≠ some '(' ∧ tried = [.opening] := by
  cases text with
  | nil => simp [tryOpening, eq_comm]
  | cons c cs => by_cases hc : c = '(' <;> simp [tryOpening, hc, eq_comm]

theorem tryEnd_eq_error : tryEnd opened items offset text = .error tried ↔
    opened = [] ∧ text ≠ [] ∧ tried = [.ending] ∨
      opened ≠ [] ∧ text.head? ≠ some ')' ∧ tried = [.closing] := by
  cases opened with
  | nil => cases text <;> simp [tryEnd, eq_comm]
  | cons frame outer =>
    cases text with
    | nil => simp [tryEnd, eq_comm]
    | cons c cs => by_cases hc : c = ')' <;> simp [tryEnd, hc, eq_comm]

/-- Nothing can be read where there is no token, no list, and no end. -/
theorem tryItem_eq_error : tryItem opened items offset text = .error tried ↔
    Token.scan text = none ∧ text.head? ≠ some '(' ∧
      ∃ last, tryEnd opened items offset text = .error last ∧
        tried = [.token, .opening] ++ last := by
  simp only [tryItem, Attempt.or_eq_error, tryToken_eq_error, tryOpening_eq_error]
  constructor
  · rintro ⟨_, last, ⟨_, _, ⟨hscan, rfl⟩, ⟨hopen, rfl⟩, rfl⟩, hlast, rfl⟩
    exact ⟨hscan, hopen, last, hlast, rfl⟩
  · rintro ⟨hscan, hopen, last, hlast, rfl⟩
    exact ⟨_, last, ⟨_, _, ⟨hscan, rfl⟩, ⟨hopen, rfl⟩, rfl⟩, hlast, rfl⟩

variable {c : Char} {cs : List Char}

theorem tryItem_of_scan {t : Token} {n : Nat} (h : Token.scan (c :: cs) = some (t, n)) :
    tryItem opened items offset (c :: cs) = .ok (.take opened
      (.atom ⟨offset, offset + Text.byteLength ((c :: cs).take n)⟩ t :: items) (n - 1)) := by
  rw [tryItem, Attempt.or_eq_ok, Attempt.or_eq_ok, tryToken, h]
  exact .inl (.inl rfl)

theorem tryItem_opening (cs : List Char) :
    tryItem opened items offset ('(' :: cs) = .ok (.take ((offset, items) :: opened) [] 0) := by
  have hscan : Token.scan ('(' :: cs) = none := by simp [Token.scan, isSymbolChar, symbolMarks]
  rw [tryItem, Attempt.or_eq_ok, Attempt.or_eq_ok]
  exact .inl (.inr ⟨⟨_, tryToken_eq_error.mpr ⟨hscan, rfl⟩⟩, rfl⟩)

theorem tryItem_closing (start : Nat) (before : List Form) (cs : List Char) :
    tryItem ((start, before) :: opened) items offset (')' :: cs) =
      .ok (.take opened (.list ⟨start, offset + 1⟩ items.reverse :: before) 0) := by
  have hscan : Token.scan (')' :: cs) = none := by simp [Token.scan, isSymbolChar, symbolMarks]
  have htoken : tryToken ((start, before) :: opened) items offset (')' :: cs) = .error [.token] :=
    tryToken_eq_error.mpr ⟨hscan, rfl⟩
  rw [tryItem, Attempt.or_eq_ok]
  exact .inr ⟨⟨_, Attempt.or_eq_error.mpr ⟨_, _, htoken, rfl, rfl⟩⟩, rfl⟩

/-- What a step can be: a token, or the start or the end of a list. -/
theorem tryItem_eq_take {opened' : List (Nat × List Form)} {items' : List Form} {more : Nat}
    (h : tryItem opened items offset (c :: cs) = .ok (.take opened' items' more)) :
    (∃ t n, Token.scan (c :: cs) = some (t, n) ∧ opened' = opened ∧
      items' = .atom ⟨offset, offset + Text.byteLength ((c :: cs).take n)⟩ t :: items) ∨
    (opened' = (offset, items) :: opened ∧ items' = []) ∨
    ∃ start before, opened = (start, before) :: opened' ∧
      items' = .list ⟨start, offset + 1⟩ items.reverse :: before := by
  rw [tryItem, Attempt.or_eq_ok, Attempt.or_eq_ok] at h
  rcases h with (htoken | ⟨-, hopen⟩) | ⟨-, hend⟩
  · rw [tryToken] at htoken
    split at htoken
    · cases htoken
    · next t n hscan =>
      cases htoken
      exact .inl ⟨t, n, hscan, rfl, rfl⟩
  · rw [tryOpening] at hopen
    split at hopen
    · cases hopen
      exact .inr (.inl ⟨rfl, rfl⟩)
    · cases hopen
  · cases opened with
    | nil => cases hend
    | cons frame outer =>
      rw [tryEnd] at hend
      split at hend
      · cases hend
        exact .inr (.inr ⟨_, _, rfl, rfl⟩)
      · cases hend

end

end Form

/-! ### Single steps of the reader -/

section

variable {opened : List (Nat × List Form)} {items : List Form} {offset : Nat}

theorem readFrom_nil_eq_ok {skip : Nat} {fs : List Form} :
    Form.readFrom opened items offset skip [] = .ok fs ↔ opened = [] ∧ items.reverse = fs := by
  cases opened with
  | nil =>
    show Except.ok items.reverse = Except.ok fs ↔ _
    rw [Except.ok.injEq, eq_self_iff_true, true_and]
  | cons frame outer => exact ⟨nofun, nofun⟩

/-- Characters that are passed over. -/
theorem readFrom_skip (cs rest : List Char) :
    Form.readFrom opened items offset cs.length (cs ++ rest)
      = Form.readFrom opened items (offset + Text.byteLength cs) 0 rest := by
  induction cs generalizing offset with
  | nil => rfl
  | cons c cs ih =>
    simp only [List.length_cons, List.cons_append, Form.readFrom]
    rw [ih, Text.byteLength_cons, Nat.add_assoc]

theorem readFrom_scan {c : Char} {cs rest : List Char} {t : Token}
    (h : Token.scan (c :: (cs ++ rest)) = some (t, cs.length + 1)) :
    Form.readFrom opened items offset 0 (c :: (cs ++ rest))
      = Form.readFrom opened (.atom ⟨offset, offset + Text.byteLength (c :: cs)⟩ t :: items)
          (offset + Text.byteLength (c :: cs)) 0 rest := by
  obtain ⟨hb, hs, -, -⟩ := scan_eq_some_cons h
  have htake : (c :: (cs ++ rest)).take (cs.length + 1) = c :: cs := by simp
  simp only [Form.readFrom, hb, hs, Form.tryItem_of_scan h, htake, Bool.false_eq_true, ↓reduceIte,
    Nat.add_sub_cancel]
  rw [readFrom_skip, Text.byteLength_cons, Nat.add_assoc]

theorem readFrom_of_tried {c : Char} {cs : List Char} {tried : List Awaited}
    (hblank : Form.isBlank c = false) (hsemicolon : c ≠ ';')
    (h : Form.tryItem opened items offset (c :: cs) = .error tried) :
    Form.readFrom opened items offset 0 (c :: cs) = .error ⟨offset, tried⟩ := by
  simp only [Form.readFrom, hblank, hsemicolon, h, Bool.false_eq_true, ↓reduceIte]

theorem readFrom_space (cs : List Char) :
    Form.readFrom opened items offset 0 (' ' :: cs)
      = Form.readFrom opened items (offset + 1) 0 cs := by
  rfl

theorem readFrom_newline (cs : List Char) :
    Form.readFrom opened items offset 0 ('\n' :: cs)
      = Form.readFrom opened items (offset + 1) 0 cs := by
  rfl

theorem readFrom_open (cs : List Char) :
    Form.readFrom opened items offset 0 ('(' :: cs)
      = Form.readFrom ((offset, items) :: opened) [] (offset + 1) 0 cs := by
  simp only [Form.readFrom, Form.tryItem_opening]
  rfl

theorem readFrom_close (start : Nat) (before : List Form) (cs : List Char) :
    Form.readFrom ((start, before) :: opened) items offset 0 (')' :: cs)
      = Form.readFrom opened (.list ⟨start, offset + 1⟩ items.reverse :: before)
          (offset + 1) 0 cs := by
  simp only [Form.readFrom, Form.tryItem_closing]
  rfl

theorem readFrom_lexeme (opened : List (Nat × List Form)) (items : List Form) (offset : Nat)
    {cs rest : List Char} {t : Token}
    (h : ∀ rest, Token.Ends rest → Token.scan (cs ++ rest) = some (t, cs.length))
    (hr : Token.Ends rest) :
    ∃ e, Form.readFrom opened items offset 0 (cs ++ rest)
      = Form.readFrom opened (.atom e t :: items) (offset + Text.byteLength cs) 0 rest := by
  cases cs with
  | nil => simpa [Token.scan] using h [] Token.ends_nil
  | cons c cs => exact ⟨_, readFrom_scan (h rest hr)⟩

end

/-! ### Reading spellings -/

/-- The other items of a group are set off from the first. -/
theorem Spelling.ends_charsAfter (ss : List Spelling) (rest : List Char) :
    Token.Ends (charsAfter ss ++ rest) := by
  cases ss with
  | nil => exact Token.ends_close _
  | cons s ss => exact Token.ends_space _

mutual

/-- Reading a legible spelling adds one form, which it spells, to the items read so far. -/
theorem readFrom_chars : ∀ (s : Spelling), s.Legible → ∀ (opened : List (Nat × List Form))
    (items : List Form) (offset : Nat) (rest : List Char), Token.Ends rest →
    ∃ f, Spells s f ∧ Form.readFrom opened items offset 0 (s.chars ++ rest)
      = Form.readFrom opened (f :: items) (offset + Text.byteLength s.chars) 0 rest
  | .word w, h, opened, items, offset, rest, hr => by
    obtain ⟨e, he⟩ := readFrom_lexeme opened items offset
      (fun rest hr => Token.scan_simple h hr) hr
    exact ⟨.atom e (.symbol w), rfl, he⟩
  | .token t, h, opened, items, offset, rest, hr => by
    obtain ⟨e, he⟩ := readFrom_lexeme opened items offset
      (fun rest hr => Token.scan_lexeme h hr) hr
    exact ⟨.atom e t, rfl, he⟩
  | .group [], _, opened, items, offset, rest, _ => by
    refine ⟨.list ⟨offset, offset + 1 + 1⟩ [], trivial, ?_⟩
    simp only [Spelling.chars, List.cons_append, List.nil_append]
    rw [readFrom_open, readFrom_close]
    rfl
  | .group (s :: ss), h, opened, items, offset, rest, _ => by
    obtain ⟨f, hf, hread⟩ := readFrom_chars s h.1 ((offset, items) :: opened) [] (offset + 1)
      (Spelling.charsAfter ss ++ rest) (Spelling.ends_charsAfter ss rest)
    obtain ⟨e, fs, hfs, hreads⟩ := readFrom_charsAfter ss h.2 opened offset items [f]
      (offset + 1 + Text.byteLength s.chars) rest
    refine ⟨.list e (f :: fs), ⟨hf, hfs⟩, ?_⟩
    simp only [Spelling.chars, List.cons_append, List.append_assoc]
    rw [readFrom_open, hread, hreads]
    simp only [List.reverse_singleton, List.singleton_append, Text.byteLength_cons,
      Text.byteLength_append, Nat.add_assoc]
    rfl

/-- Reading the other items of a group closes it. -/
theorem readFrom_charsAfter : ∀ (ss : List Spelling), Spelling.AllLegible ss →
    ∀ (opened : List (Nat × List Form)) (start : Nat) (before items : List Form) (offset : Nat)
      (rest : List Char), ∃ e fs, SpellsAll ss fs ∧
      Form.readFrom ((start, before) :: opened) items offset 0 (Spelling.charsAfter ss ++ rest)
        = Form.readFrom opened (.list e (items.reverse ++ fs) :: before)
            (offset + Text.byteLength (Spelling.charsAfter ss)) 0 rest
  | [], _, opened, start, before, items, offset, rest => by
    refine ⟨⟨start, offset + 1⟩, [], trivial, ?_⟩
    simp only [Spelling.charsAfter, List.cons_append, List.nil_append, List.append_nil]
    exact readFrom_close start before rest
  | s :: ss, h, opened, start, before, items, offset, rest => by
    obtain ⟨f, hf, hread⟩ := readFrom_chars s h.1 ((start, before) :: opened) items (offset + 1)
      (Spelling.charsAfter ss ++ rest) (Spelling.ends_charsAfter ss rest)
    obtain ⟨e, fs, hfs, hreads⟩ := readFrom_charsAfter ss h.2 opened start before (f :: items)
      (offset + 1 + Text.byteLength s.chars) rest
    refine ⟨e, f :: fs, ⟨hf, hfs⟩, ?_⟩
    simp only [Spelling.charsAfter, List.cons_append, List.append_assoc]
    rw [readFrom_space, hread, hreads]
    simp only [List.reverse_cons, List.append_assoc, List.singleton_append, Text.byteLength_cons,
      Text.byteLength_append, Nat.add_assoc]
    rfl

end

theorem readFrom_lines (ss : List Spelling) (h : Spelling.AllLegible ss) (items : List Form)
    (offset : Nat) : ∃ fs, SpellsAll ss fs ∧
      Form.readFrom [] items offset 0 (['\n'].intercalate (ss.map Spelling.chars))
        = .ok (items.reverse ++ fs) := by
  induction ss generalizing items offset with
  | nil => exact ⟨[], trivial, readFrom_nil_eq_ok.mpr ⟨rfl, (List.append_nil _).symm⟩⟩
  | cons s ss ih =>
    cases ss with
    | nil =>
      obtain ⟨f, hf, hread⟩ := readFrom_chars s h.1 [] items offset [] Token.ends_nil
      refine ⟨[f], ⟨hf, trivial⟩, ?_⟩
      rw [List.append_nil] at hread
      rw [List.map_cons, List.map_nil, List.intercalate_singleton, hread, readFrom_nil_eq_ok]
      exact ⟨rfl, List.reverse_cons⟩
    | cons s' ss =>
      obtain ⟨f, hf, hread⟩ := readFrom_chars s h.1 [] items offset
        ('\n' :: ['\n'].intercalate ((s' :: ss).map Spelling.chars)) (Token.ends_newline _)
      obtain ⟨fs, hfs, hreads⟩ := ih h.2 (f :: items) (offset + Text.byteLength s.chars + 1)
      refine ⟨f :: fs, ⟨hf, hfs⟩, ?_⟩
      simp only [List.map_cons, List.intercalate_cons_cons, List.append_assoc,
        List.singleton_append] at hread hreads ⊢
      rw [hread, readFrom_newline, hreads]
      simp

/-- Legible spellings on lines of their own are read as the forms that they spell. -/
theorem read_lines {ss : List Spelling} (h : Spelling.AllLegible ss) : ∃ fs, SpellsAll ss fs ∧
    Form.read (['\n'].intercalate (ss.map Spelling.chars)) = .ok fs :=
  readFrom_lines ss h [] 0

/-! ### Forms that are read -/

theorem readFrom_legible {text : List Char} {opened : List (Nat × List Form)} {items : List Form}
    {offset skip : Nat} {fs : List Form}
    (h : Form.readFrom opened items offset skip text = .ok fs) (hitems : Form.AllLegible items)
    (hopened : ∀ p ∈ opened, Form.AllLegible p.2) : Form.AllLegible fs := by
  induction text generalizing opened items offset skip with
  | nil =>
    obtain ⟨-, rfl⟩ := readFrom_nil_eq_ok.mp h
    exact Form.allLegible_reverse.mpr hitems
  | cons c cs ih =>
    cases skip with
    | succ skip => exact ih h hitems hopened
    | zero =>
      simp only [Form.readFrom] at h
      split at h
      · exact ih h hitems hopened
      split at h
      · exact ih h hitems hopened
      split at h
      · cases h
      · next hstep =>
        rcases Form.tryItem_eq_take hstep with
          ⟨t, n, hscan, rfl, rfl⟩ | ⟨rfl, rfl⟩ | ⟨start, before, rfl, rfl⟩
        · exact ih h ⟨Token.scan_legible hscan, hitems⟩ hopened
        · exact ih h trivial (List.forall_mem_cons.mpr ⟨hitems, hopened⟩)
        · obtain ⟨hbefore, houter⟩ := List.forall_mem_cons.mp hopened
          exact ih h ⟨Form.allLegible_reverse.mpr hitems, hbefore⟩ houter

/-- Every form that is read has legible tokens only. -/
theorem read_legible {text : List Char} {fs : List Form} (h : Form.read text = .ok fs) :
    Form.AllLegible fs :=
  readFrom_legible h trivial nofun

end WellSorted
