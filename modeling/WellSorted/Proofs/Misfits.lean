import WellSorted.Proofs.Passages
import WellSorted.Source.Parse

/-!
# Where reading stops

A text that cannot be read is written as far as the position that is reported, up to some lists that
are still open there (`LeavesOpen`), and then comes something that fits nowhere (`Misfit`). Nothing
else makes reading fail (`read_eq_error`). The number of open lists is no choice: the text before
the misfit is read after as many parentheses more, and after no others (`read_closed_iff`).
-/

namespace WellSorted

open Form
open Text (byteLength byteLength_cons byteLength_append)

/-! ### Open lists -/

/-- The characters are the lexemes and parentheses of some forms, wherever they stand. -/
def Complete (cs rest : List Char) : Prop := ∃ fs, Written 0 cs rest fs

/-- The characters are complete but for `d` parentheses that are still open. -/
inductive LeavesOpen : Nat → List Char → List Char → Prop
  | complete {cs rest : List Char} : Complete cs rest → LeavesOpen 0 cs rest
  | inside {d : Nat} {cs inner rest : List Char} : Complete cs ('(' :: (inner ++ rest)) →
      LeavesOpen d inner rest → LeavesOpen (d + 1) (cs ++ '(' :: inner) rest

variable {cs cs' rest : List Char} {d n : Nat}

theorem Written.complete {o : Nat} {fs : List Form} (h : Written o cs rest fs) :
    Complete cs rest := by
  obtain ⟨gs, hgs, -⟩ := h.move 0
  exact ⟨gs, hgs⟩

theorem Complete.written (h : Complete cs rest) (o : Nat) : ∃ fs, Written o cs rest fs := by
  obtain ⟨fs, hfs⟩ := h
  obtain ⟨gs, hgs, -⟩ := hfs.move o
  exact ⟨gs, hgs⟩

theorem Complete.append (h : Complete cs (cs' ++ rest)) (h' : Complete cs' rest) :
    Complete (cs ++ cs') rest := by
  obtain ⟨fs, hfs⟩ := h
  obtain ⟨gs, hgs⟩ := h'.written (0 + byteLength cs)
  exact ⟨fs ++ gs, hfs.append hgs⟩

theorem Complete.list (h : Complete cs (')' :: rest)) : Complete ('(' :: (cs ++ [')'])) rest := by
  obtain ⟨items, hitems⟩ := h.written 1
  have hlist : Written 0 ('(' :: (cs ++ ')' :: [])) rest _ := .list hitems .nil
  exact hlist.complete

theorem complete_comment (hbody : '\n' ∉ cs) (hstops : Stops (· != '\n') rest) :
    Complete (';' :: cs) rest := by
  have hcomment : Written 0 (';' :: (cs ++ [])) rest [] := .comment hbody hstops .nil
  rw [List.append_nil] at hcomment
  exact hcomment.complete

theorem complete_atom {t : Token} {p : Char → Bool} (h : Lexeme cs t p) (hstops : Stops p rest) :
    Complete cs rest := by
  have hatom : Written 0 (cs ++ []) rest _ := .atom h hstops .nil
  rw [List.append_nil] at hatom
  exact hatom.complete

namespace LeavesOpen

/-- What follows goes on inside the innermost list. -/
theorem append (h : LeavesOpen d cs (cs' ++ rest)) (h' : LeavesOpen n cs' rest) :
    LeavesOpen (d + n) (cs ++ cs') rest := by
  generalize hall : cs' ++ rest = all at h
  induction h with
  | complete h =>
    subst hall
    rw [Nat.zero_add]
    cases h' with
    | complete h' => exact .complete (h.append h')
    | inside hbefore hinner =>
      rw [List.append_assoc, List.cons_append] at h
      rw [← List.append_assoc]
      exact .inside (h.append hbefore) hinner
  | @inside d cs inner all h _ ih =>
    subst hall
    rw [List.append_assoc, List.cons_append, Nat.add_right_comm]
    refine .inside ?_ (ih rfl)
    rwa [List.append_assoc]

theorem opening (h : LeavesOpen d cs ('(' :: rest)) : LeavesOpen (d + 1) (cs ++ ['(']) rest := by
  have hone : LeavesOpen 1 ([] ++ ['(']) rest := .inside ⟨[], .nil⟩ (.complete ⟨[], .nil⟩)
  exact append h hone

/-- A parenthesis closes the innermost list. -/
theorem closing (h : LeavesOpen (d + 1) cs (')' :: rest)) : LeavesOpen d (cs ++ [')']) rest := by
  generalize hall : ')' :: rest = all at h
  generalize hd : d + 1 = depth at h
  induction h generalizing d with
  | complete h => cases hd
  | @inside depth cs inner all h hopen ih =>
    subst hall
    cases hd
    rw [List.append_assoc, List.cons_append]
    cases hopen with
    | complete hinner =>
      refine .complete (Complete.append ?_ hinner.list)
      rwa [List.cons_append, List.append_assoc]
    | @inside depth before inner _ hbefore hinner =>
      refine .inside ?_ (ih rfl rfl)
      rwa [List.append_assoc (before ++ _)]

theorem closings (h : LeavesOpen (d + n) cs (List.replicate n ')' ++ rest)) :
    LeavesOpen d (cs ++ List.replicate n ')') rest := by
  induction n generalizing cs with
  | zero => rwa [List.replicate_zero, List.append_nil]
  | succ n ih =>
    rw [List.replicate_succ, ← List.singleton_append, ← List.append_assoc]
    exact ih (closing h)

theorem complete_of_zero (h : LeavesOpen 0 cs rest) : Complete cs rest := by
  cases h with
  | complete h => exact h

end LeavesOpen

/-! ### Ending at a newline -/

theorem Lexeme.stops_newline {lexeme : List Char} {t : Token} {p : Char → Bool}
    (h : Lexeme lexeme t p) (tail : List Char) : Stops p ('\n' :: tail) := by
  rw [stops_cons]
  cases h <;> decide

/-- Whatever is written can be followed by a newline. -/
theorem Written.newline {o : Nat} {fs : List Form} (h : Written o cs rest fs) (tail : List Char) :
    Written o cs ('\n' :: tail) fs := by
  induction h with
  | nil => exact .nil
  | blank hc _ ih => exact .blank hc ih
  | comment hbody hstops _ ih =>
    exact .comment hbody (stops_append (fun _ => stops_cons.mpr (by decide)) hstops) ih
  | atom hlexeme hstops _ ih =>
    exact .atom hlexeme (stops_append (fun _ => hlexeme.stops_newline tail) hstops) ih
  | list hinner _ _ ih =>
    exact .list (hinner.followed fun _ hp => stops_cons.mpr (stops_cons.mp hp)) ih

theorem LeavesOpen.newline (h : LeavesOpen d cs rest) (tail : List Char) :
    LeavesOpen d (cs ++ ['\n']) tail := by
  have hfollowed : LeavesOpen d cs (['\n'] ++ tail) := by
    induction h with
    | complete h =>
      obtain ⟨fs, hfs⟩ := h
      exact .complete ⟨fs, hfs.newline tail⟩
    | inside h _ ih =>
      obtain ⟨fs, hfs⟩ := h
      exact .inside ⟨fs, hfs.followed fun _ hp => stops_cons.mpr (stops_cons.mp hp)⟩ ih
  exact hfollowed.append (.complete ⟨[], .blank rfl .nil⟩)

/-! ### What fits nowhere -/

/-- With `d` lists open, what follows cannot go on the text: it is no layout, no list, no token, and
neither the end of the innermost list nor, when there is none, of the text. -/
structure Misfit (d : Nat) (rest : List Char) : Prop where
  ending : rest = [] → 0 < d
  layout : ∀ c ∈ rest.head?, isBlank c = false ∧ c ≠ ';'
  opening : rest.head? ≠ some '('
  closing : 0 < d → rest.head? ≠ some ')'
  token : ∀ t n, ¬ Leads rest t n

theorem misfit_nil (hd : 0 < d) : Misfit d [] where
  ending _ := hd
  layout := nofun
  opening := nofun
  closing _ := nofun
  token t n h := by
    have hscan := scan_eq_some_iff.mpr h
    cases hscan

theorem misfit_close (rest : List Char) : Misfit 0 (')' :: rest) where
  ending := nofun
  layout c hc := by
    cases hc
    decide
  opening := by simp
  closing := nofun
  token t n h := by
    have hscan := scan_eq_some_iff.mpr h
    exact absurd rfl (scan_eq_some_cons hscan).2.2.2

theorem misfit_illegal {c : Char} (hblank : isBlank c = false) (hsemicolon : c ≠ ';')
    (hopen : c ≠ '(') (hclose : c ≠ ')') (hscan : Token.scan (c :: cs) = none) :
    Misfit d (c :: cs) where
  ending := nofun
  layout _ hc := by
    cases hc
    exact ⟨hblank, hsemicolon⟩
  opening hc := hopen (Option.some.inj hc)
  closing _ hc := hclose (Option.some.inj hc)
  token t n h := by
    rw [scan_eq_some_iff.mpr h] at hscan
    cases hscan

variable {opened : List (Nat × List Form)} {items : List Form} {o : Nat}

/-- What is tried in vain at a misfit, with `d` lists open. -/
def awaited (d : Nat) : List Awaited := [.token, .opening] ++ [if d = 0 then .ending else .closing]

/-- At a misfit, everything that can stand there is tried, and nothing is found. -/
theorem tryItem_of_misfit (h : Misfit opened.length rest) :
    tryItem opened items o rest = .error (awaited opened.length) := by
  have hscan : Token.scan rest = none := by
    cases hscan : Token.scan rest with
    | none => rfl
    | some found => exact absurd (scan_eq_some_iff.mp hscan) (h.token _ _)
  refine tryItem_eq_error.mpr ⟨hscan, h.opening, _, tryEnd_eq_error.mpr ?_, rfl⟩
  cases opened with
  | nil => exact .inl ⟨rfl, fun hnil => absurd (h.ending hnil) (Nat.lt_irrefl 0), rfl⟩
  | cons => exact .inr ⟨List.cons_ne_nil _ _, h.closing (Nat.zero_lt_succ _), rfl⟩

theorem readFrom_of_misfit (h : Misfit opened.length rest) :
    readFrom opened items o 0 rest = .error ⟨o, awaited opened.length⟩ := by
  have hitem : tryItem opened items o rest = _ := tryItem_of_misfit h
  cases rest with
  | nil => simp only [readFrom, hitem]
  | cons c cs =>
    obtain ⟨hblank, hsemicolon⟩ := h.layout c rfl
    exact readFrom_of_tried hblank hsemicolon hitem

/-! ### The reader's errors -/

/-- Characters that leave `d` lists open are read, and reading goes on inside these lists. -/
theorem readFrom_of_leavesOpen (h : LeavesOpen d cs rest) (opened : List (Nat × List Form))
    (items : List Form) (o : Nat) :
    ∃ opened' items', opened'.length = opened.length + d ∧
      readFrom opened items o 0 (cs ++ rest) =
        readFrom opened' items' (o + byteLength cs) 0 rest := by
  induction h generalizing opened items o with
  | complete h =>
    obtain ⟨fs, hfs⟩ := h.written o
    exact ⟨opened, fs.reverse ++ items, rfl, readFrom_of_written hfs opened items⟩
  | @inside d cs inner rest h _ ih =>
    obtain ⟨fs, hfs⟩ := h.written o
    obtain ⟨opened', items', hlength, hread⟩ :=
      ih ((o + byteLength cs, fs.reverse ++ items) :: opened) [] (o + byteLength cs + 1)
    refine ⟨opened', items', by rw [hlength, List.length_cons]; omega, ?_⟩
    have hoffset :
        o + byteLength (cs ++ '(' :: inner) = o + byteLength cs + 1 + byteLength inner := by
      rw [byteLength_append, byteLength_cons, ← Nat.add_assoc, ← Nat.add_assoc]
      rfl
    rw [List.append_assoc, List.cons_append, readFrom_of_written hfs, readFrom_open, hread, hoffset]

/-- Reading gets as far as something that fits nowhere. -/
def BreaksOff (text : List Char) (e : Unreadable) : Prop :=
  ∃ d before rest, text = before ++ rest ∧ LeavesOpen d before rest ∧ Misfit d rest ∧
    e = ⟨byteLength before, awaited d⟩

/-- Reading on goes one item further, or stops at a misfit. -/
theorem breaksOff_of_readFrom {before text : List Char} {e : Unreadable}
    (hbefore : LeavesOpen opened.length before text)
    (h : readFrom opened items (byteLength before) 0 text = .error e) :
    BreaksOff (before ++ text) e := by
  -- The text read so far grows by an item at a time, and what remains gets shorter.
  induction hn : text.length using Nat.strong_induction_on
    generalizing text before opened items with
  | _ n ih =>
  have hstep (cs : List Char) {rest : List Char} {opened : List (Nat × List Form)}
      {items : List Form} (hlt : rest.length < n)
      (h : readFrom opened items (byteLength before + byteLength cs) 0 rest = .error e)
      (hleaves : LeavesOpen opened.length (before ++ cs) rest) :
      BreaksOff (before ++ (cs ++ rest)) e := by
    rw [← List.append_assoc]
    exact ih rest.length hlt hleaves (by rwa [byteLength_append]) rfl
  have hstop (hmisfit : Misfit opened.length text) : BreaksOff (before ++ text) e := by
    rw [readFrom_of_misfit hmisfit] at h
    cases h
    exact ⟨_, before, text, rfl, hbefore, hmisfit, rfl⟩
  cases begins text with
  | nothing =>
    cases opened with
    | nil => cases h
    | cons => exact hstop (misfit_nil (Nat.zero_lt_succ _))
  | @blank c cs hc =>
    rw [readFrom_blank hc] at h
    exact hstep [c] (hn ▸ Nat.lt_succ_self _) h
      (hbefore.append (.complete ⟨[], .blank hc .nil⟩))
  | @comment body rest hbody hstops =>
    rw [readFrom_comment hbody hstops, Nat.add_comm (byteLength body)] at h
    exact hstep (';' :: body) (by rw [← hn, List.length_cons, List.length_append]; omega) h
      (hbefore.append (.complete (complete_comment hbody hstops)))
  | opening cs =>
    rw [readFrom_open] at h
    exact hstep ['('] (hn ▸ Nat.lt_succ_self _) h hbefore.opening
  | closing cs =>
    cases opened with
    | nil => exact hstop (misfit_close cs)
    | cons outer opened =>
      rw [readFrom_close] at h
      exact hstep [')'] (hn ▸ Nat.lt_succ_self _) h hbefore.closing
  | @atom lexeme rest t p hlexeme hstops =>
    have hpos := List.length_pos_iff.mpr hlexeme.ne_nil
    rw [readFrom_atom hlexeme hstops] at h
    exact hstep lexeme (by rw [← hn, List.length_append]; omega) h
      (hbefore.append (.complete (complete_atom hlexeme hstops)))
  | illegal hblank hsemicolon hopen hclose hscan =>
    exact hstop (misfit_illegal hblank hsemicolon hopen hclose hscan)

/-- Reading fails at the first misfit, and says whether a list is open there. -/
theorem read_eq_error {text : List Char} {e : Unreadable} :
    Form.read text = .error e ↔ BreaksOff text e := by
  constructor
  · intro h
    have hstart : LeavesOpen ([] : List (Nat × List Form)).length [] text :=
      .complete ⟨[], .nil⟩
    rw [← List.nil_append text]
    exact breaksOff_of_readFrom hstart h
  · rintro ⟨d, before, rest, rfl, hbefore, hmisfit, rfl⟩
    obtain ⟨opened, items, hlength, hread⟩ := readFrom_of_leavesOpen hbefore [] [] 0
    obtain rfl : d = opened.length := by simpa using hlength.symm
    rw [Form.read, hread, readFrom_of_misfit hmisfit, Nat.zero_add]

/-- What leaves `d` lists open is read after `d` more parentheses on a new line, and with no other
number of them. -/
theorem read_closed_iff (h : LeavesOpen d cs rest) (n : Nat) :
    (∃ fs, Form.read (cs ++ '\n' :: List.replicate n ')') = .ok fs) ↔ n = d := by
  have hline (tail : List Char) : LeavesOpen d (cs ++ ['\n']) tail := h.newline tail
  have hassoc (tail : List Char) : cs ++ '\n' :: tail = cs ++ ['\n'] ++ tail := by simp
  have hfails {e : Unreadable} {text : List Char} (hbreaks : BreaksOff text e) :
      ¬ ∃ fs, Form.read text = .ok fs := by
    rintro ⟨fs, hfs⟩
    rw [read_eq_error.mpr hbreaks] at hfs
    cases hfs
  rw [hassoc]
  rcases Nat.lt_trichotomy n d with hlt | rfl | hgt
  · -- Some lists are open at the end of the text.
    obtain ⟨k, rfl⟩ := Nat.exists_eq_add_of_lt hlt
    have hopen : LeavesOpen (k + 1) (cs ++ ['\n'] ++ List.replicate n ')') [] :=
      LeavesOpen.closings (by rw [Nat.add_comm (k + 1)]; exact hline _)
    refine iff_of_false (hfails ⟨_, _, [], ?_, hopen, misfit_nil (Nat.succ_pos k), rfl⟩) hlt.ne
    rw [List.append_nil]
  · have hcomplete : Complete (cs ++ ['\n'] ++ List.replicate n ')') [] :=
      (LeavesOpen.closings (by rw [Nat.zero_add]; exact hline _)).complete_of_zero
    obtain ⟨fs, hfs⟩ := hcomplete
    exact iff_of_true ⟨fs, read_eq_ok.mpr hfs⟩ rfl
  · -- A parenthesis follows after the outermost list is closed.
    obtain ⟨k, rfl⟩ := Nat.exists_eq_add_of_lt hgt
    have hopen : LeavesOpen 0 (cs ++ ['\n'] ++ List.replicate d ')')
        (')' :: List.replicate k ')') :=
      LeavesOpen.closings (by rw [Nat.zero_add]; exact hline _)
    refine iff_of_false (hfails ⟨0, _, _, ?_, hopen, misfit_close _, rfl⟩) hgt.ne'
    rw [List.append_assoc (cs ++ _), Nat.add_assoc, List.replicate_add, List.replicate_succ]

/-! ### The report -/

theorem mem_expectedTexts {expected : List Awaited} {text : String} :
    text ∈ ParseError.expectedTexts expected ↔ ∃ x ∈ expected, x.text = text := by
  rw [ParseError.expectedTexts, List.mem_mergeSort, List.mem_map]

theorem close_mem_awaited : "\")\"" ∈ ParseError.expectedTexts (awaited d) ↔ 0 < d := by
  rw [mem_expectedTexts]
  cases d <;> simp [awaited, Awaited.text]

theorem eof_mem_awaited : "EOF" ∈ ParseError.expectedTexts (awaited d) ↔ d = 0 := by
  rw [mem_expectedTexts]
  cases d <;> simp [awaited, Awaited.text]

/-- The report of a text that cannot be read is about the first misfit. The text before it is read
once the lists that are open there are closed on a new line, and what was expected tells whether
there are any. -/
theorem read_error_at_misfit {text : List Char} {e : Unreadable}
    (h : Form.read text = .error e) :
    ∃ before rest d, text = before ++ rest ∧ e.offset = byteLength before ∧
      LeavesOpen d before rest ∧ Misfit d rest ∧
      (∀ n, (∃ fs, Form.read (before ++ '\n' :: List.replicate n ')') = .ok fs) ↔ n = d) ∧
      ("\")\"" ∈ ParseError.expectedTexts e.expected ↔ 0 < d) ∧
      ("EOF" ∈ ParseError.expectedTexts e.expected ↔ d = 0) ∧
      ∀ {α : Type} (build : Source → Except Rejection α) (origin : Origin),
        Parsed.ofChars build origin text = .error (.unreadable (.after before) e.expected) := by
  obtain ⟨d, before, rest, rfl, hbefore, hmisfit, rfl⟩ := read_eq_error.mp h
  refine ⟨before, rest, d, rfl, rfl, hbefore, hmisfit, read_closed_iff hbefore, close_mem_awaited,
    eof_mem_awaited, fun build origin => ?_⟩
  rw [Parsed.ofChars, h]
  simp only [Text.slice?_zero_append, Option.getD_some]

/-- A string without an end, two lists deep and after a comment that holds a parenthesis. -/
theorem read_error_at_misfit_unterminated :
    let before := "(f ; )\n(|é y|".toList
    let rest := "\"a) ".toList
    Form.read (before ++ rest) = .error ⟨14, [.token, .opening, .closing]⟩ ∧
      LeavesOpen 2 before rest ∧ Misfit 2 rest := by
  intro before rest
  have h : Form.read (before ++ rest) = .error ⟨14, [.token, .opening, .closing]⟩ := rfl
  obtain ⟨before', rest', d, htext, hoffset, hbefore, hmisfit, hclosed, -⟩ :=
    read_error_at_misfit h
  obtain ⟨rfl, rfl⟩ := Text.append_inj_of_byteLength htext hoffset
  obtain rfl : 2 = d := (hclosed 2).mp ⟨_, rfl⟩
  exact ⟨h, hbefore, hmisfit⟩

end WellSorted
