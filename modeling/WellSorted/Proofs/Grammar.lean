import WellSorted.Proofs.Reading

/-!
# The grammar of texts

`Written o cs rest fs`: the characters `cs`, which stand at offset `o` and are followed by `rest`,
are the lexemes and parentheses of the forms `fs`, each at its extent, with blanks and comments
around them. Offsets count bytes. A text is read as some forms if and only if it is written that way
(`read_eq_ok`).
-/

namespace WellSorted

open Form
open Text (byteLength byteLength_nil byteLength_cons byteLength_append)

inductive Written : Nat → List Char → List Char → List Form → Prop
  | nil {o : Nat} {rest : List Char} : Written o [] rest []
  | blank {o : Nat} {c : Char} {cs rest : List Char} {fs : List Form} :
      isBlank c = true → Written (o + c.utf8Size) cs rest fs → Written o (c :: cs) rest fs
  -- A comment goes on to the end of its line, or of the text.
  | comment {o : Nat} {body cs rest : List Char} {fs : List Form} :
      '\n' ∉ body → Stops (· != '\n') (cs ++ rest) →
      Written (o + (byteLength body + 1)) cs rest fs → Written o (';' :: (body ++ cs)) rest fs
  | atom {o : Nat} {lexeme cs rest : List Char} {t : Token} {p : Char → Bool} {fs : List Form} :
      Lexeme lexeme t p → Stops p (cs ++ rest) → Written (o + byteLength lexeme) cs rest fs →
      Written o (lexeme ++ cs) rest (.atom ⟨o, o + byteLength lexeme⟩ t :: fs)
  | list {o : Nat} {inner cs rest : List Char} {items fs : List Form} :
      Written (o + 1) inner (')' :: (cs ++ rest)) items →
      Written (o + (byteLength inner + 2)) cs rest fs →
      Written o ('(' :: (inner ++ ')' :: cs)) rest
        (.list ⟨o, o + (byteLength inner + 2)⟩ items :: fs)

theorem byteLength_comment (body cs : List Char) :
    byteLength (';' :: (body ++ cs)) = byteLength body + 1 + byteLength cs := by
  rw [byteLength_cons, byteLength_append, ← Nat.add_assoc, Nat.add_comm (Char.utf8Size ';')]
  rfl

theorem byteLength_list (inner cs : List Char) :
    byteLength ('(' :: (inner ++ ')' :: cs)) = byteLength inner + 2 + byteLength cs := by
  have hopen : Char.utf8Size '(' = 1 := rfl
  have hclose : Char.utf8Size ')' = 1 := rfl
  rw [byteLength_cons, byteLength_append, byteLength_cons, hopen, hclose]
  omega

/-- What a text can begin with. -/
inductive Begins : List Char → Prop
  | nothing : Begins []
  | blank {c : Char} {cs : List Char} : isBlank c = true → Begins (c :: cs)
  | comment {body rest : List Char} :
      '\n' ∉ body → Stops (· != '\n') rest → Begins (';' :: (body ++ rest))
  | opening (cs : List Char) : Begins ('(' :: cs)
  | closing (cs : List Char) : Begins (')' :: cs)
  | atom {lexeme rest : List Char} {t : Token} {p : Char → Bool} :
      Lexeme lexeme t p → Stops p rest → Begins (lexeme ++ rest)
  | illegal {c : Char} {cs : List Char} : isBlank c = false → c ≠ ';' → c ≠ '(' → c ≠ ')' →
      Token.scan (c :: cs) = none → Begins (c :: cs)

theorem begins (text : List Char) : Begins text := by
  cases text with
  | nil => exact .nothing
  | cons c cs =>
    cases hblank : isBlank c with
    | true => exact .blank hblank
    | false =>
      by_cases hsemicolon : c = ';'
      · have hbody : '\n' ∉ cs.takeWhile (· != '\n') := fun hmem => by
          simpa using List.mem_takeWhile_imp hmem
        rw [hsemicolon, ← List.takeWhile_append_dropWhile (p := (· != '\n')) (l := cs)]
        exact .comment hbody (stops_dropWhile cs)
      by_cases hopen : c = '('
      · exact hopen ▸ .opening cs
      by_cases hclose : c = ')'
      · exact hclose ▸ .closing cs
      cases hscan : Token.scan (c :: cs) with
      | none => exact .illegal hblank hsemicolon hopen hclose hscan
      | some found =>
        obtain ⟨lexeme, rest, p, hcs, -, hlexeme, hstops⟩ := scan_eq_some_iff.mp hscan
        exact hcs ▸ .atom hlexeme hstops

/-! ### Reading what is written -/

section

variable {opened : List (Nat × List Form)} {items : List Form} {offset : Nat}

theorem readFrom_blank {c : Char} (hc : isBlank c = true) (cs : List Char) :
    readFrom opened items offset 0 (c :: cs) =
      readFrom opened items (offset + c.utf8Size) 0 cs := by
  simp only [readFrom, hc, ↓reduceIte]

theorem readFrom_comment {body rest : List Char} (hbody : '\n' ∉ body)
    (hrest : Stops (· != '\n') rest) :
    readFrom opened items offset 0 (';' :: (body ++ rest)) =
      readFrom opened items (offset + (byteLength body + 1)) 0 rest := by
  have htake : (body ++ rest).takeWhile (· != '\n') = body := by
    refine takeWhile_append_of_stops (fun c hc => ?_) hrest
    simpa using fun h : c = '\n' => hbody (h ▸ hc)
  have hsemicolon : isBlank ';' = false := rfl
  simp only [readFrom, hsemicolon, htake, Bool.false_eq_true, ↓reduceIte]
  rw [readFrom_skip, Nat.add_assoc, Nat.add_comm (byteLength body)]
  rfl

theorem Lexeme.ne_nil {cs : List Char} {t : Token} {p : Char → Bool} (h : Lexeme cs t p) :
    cs ≠ [] := by
  have hscan : Token.scan (cs ++ []) = _ := scan_of_lexeme h stops_nil
  rintro rfl
  cases hscan

theorem readFrom_atom {lexeme rest : List Char} {t : Token} {p : Char → Bool}
    (h : Lexeme lexeme t p) (hrest : Stops p rest) :
    readFrom opened items offset 0 (lexeme ++ rest) =
      readFrom opened (.atom ⟨offset, offset + byteLength lexeme⟩ t :: items)
        (offset + byteLength lexeme) 0 rest := by
  have hscan := scan_of_lexeme h hrest
  cases lexeme with
  | nil => exact absurd rfl h.ne_nil
  | cons c cs => exact readFrom_scan hscan

/-- What is written is read, and reading goes on with what follows. -/
theorem readFrom_of_written {o : Nat} {cs rest : List Char} {fs : List Form}
    (h : Written o cs rest fs) (opened : List (Nat × List Form)) (items : List Form) :
    readFrom opened items o 0 (cs ++ rest) =
      readFrom opened (fs.reverse ++ items) (o + byteLength cs) 0 rest := by
  induction h generalizing opened items with
  | nil => rfl
  | blank hc _ ih =>
    rw [List.cons_append, readFrom_blank hc, ih, byteLength_cons, Nat.add_assoc]
  | @comment o body cs rest fs hbody hstops _ ih =>
    rw [List.cons_append, List.append_assoc, readFrom_comment hbody hstops, ih,
      byteLength_comment, Nat.add_assoc]
  | atom hlexeme hstops _ ih =>
    rw [List.append_assoc, readFrom_atom hlexeme hstops, ih, byteLength_append, Nat.add_assoc,
      List.reverse_cons, List.append_assoc, List.singleton_append]
  | @list o inner cs rest items' fs _ _ ihinner ih =>
    have hoffset : o + 1 + byteLength inner + 1 = o + (byteLength inner + 2) := by omega
    rw [List.cons_append, List.append_assoc, List.cons_append, readFrom_open, ihinner,
      List.append_nil, readFrom_close, List.reverse_reverse, hoffset, ih, byteLength_list,
      Nat.add_assoc, List.reverse_cons, List.append_assoc, List.singleton_append]

/-- A front part of the text is written, and reading goes on behind it, at the end of the text or
of the innermost open list. -/
def Reaches (opened : List (Nat × List Form)) (items : List Form) (o : Nat) (text : List Char)
    (fs : List Form) : Prop :=
  ∃ cs rest new, text = cs ++ rest ∧ Written o cs rest new ∧ (∀ c ∈ rest.head?, c = ')') ∧
    readFrom opened (new.reverse ++ items) (o + byteLength cs) 0 rest = .ok fs

variable {text : List Char} {fs : List Form} {o : Nat}

theorem Reaches.blank {c : Char} (hc : isBlank c = true)
    (h : Reaches opened items (o + c.utf8Size) text fs) :
    Reaches opened items o (c :: text) fs := by
  obtain ⟨cs, rest, new, rfl, hnew, hrest, hread⟩ := h
  refine ⟨c :: cs, rest, new, rfl, .blank hc hnew, hrest, ?_⟩
  rwa [byteLength_cons, ← Nat.add_assoc]

theorem Reaches.comment {body : List Char} (hbody : '\n' ∉ body) (hstops : Stops (· != '\n') text)
    (h : Reaches opened items (o + (byteLength body + 1)) text fs) :
    Reaches opened items o (';' :: (body ++ text)) fs := by
  obtain ⟨cs, rest, new, rfl, hnew, hrest, hread⟩ := h
  refine ⟨';' :: (body ++ cs), rest, new, by simp, .comment hbody hstops hnew, hrest, ?_⟩
  rwa [byteLength_comment, ← Nat.add_assoc]

theorem Reaches.atom {lexeme : List Char} {t : Token} {p : Char → Bool}
    (hlexeme : Lexeme lexeme t p) (hstops : Stops p text)
    (h : Reaches opened (.atom ⟨o, o + byteLength lexeme⟩ t :: items) (o + byteLength lexeme)
      text fs) :
    Reaches opened items o (lexeme ++ text) fs := by
  obtain ⟨cs, rest, new, rfl, hnew, hrest, hread⟩ := h
  refine ⟨lexeme ++ cs, rest, _, by simp, .atom hlexeme hstops hnew, hrest, ?_⟩
  rwa [List.reverse_cons, List.append_assoc, List.singleton_append, byteLength_append,
    ← Nat.add_assoc]

theorem Reaches.list {inner : List Char} {new : List Form}
    (hinner : Written (o + 1) inner (')' :: text) new)
    (h : Reaches opened (.list ⟨o, o + (byteLength inner + 2)⟩ new :: items)
      (o + (byteLength inner + 2)) text fs) :
    Reaches opened items o ('(' :: (inner ++ ')' :: text)) fs := by
  obtain ⟨cs, rest, after, rfl, hafter, hrest, hread⟩ := h
  refine ⟨'(' :: (inner ++ ')' :: cs), rest, _, by simp, .list hinner hafter, hrest, ?_⟩
  rwa [List.reverse_cons, List.append_assoc, List.singleton_append, byteLength_list,
    ← Nat.add_assoc o (byteLength inner + 2)]

/-- What is read was written, up to the end of the text or of the innermost open list. -/
theorem reaches_of_readFrom (h : readFrom opened items o 0 text = .ok fs) :
    Reaches opened items o text fs := by
  induction hn : text.length using Nat.strong_induction_on generalizing text opened items o with
  | _ n ih =>
  have hstep {rest : List Char} {opened : List (Nat × List Form)} {items : List Form} {o : Nat}
      (hlt : rest.length < n) (h : readFrom opened items o 0 rest = .ok fs) :
      Reaches opened items o rest fs :=
    ih rest.length hlt h rfl
  cases begins text with
  | nothing => exact ⟨[], [], [], rfl, .nil, nofun, h⟩
  | blank hc =>
    rw [readFrom_blank hc] at h
    exact (hstep (hn ▸ Nat.lt_succ_self _) h).blank hc
  | @comment body rest hbody hstops =>
    rw [readFrom_comment hbody hstops] at h
    exact (hstep (by rw [← hn, List.length_cons, List.length_append]; omega) h).comment hbody hstops
  | opening cs =>
    rw [readFrom_open] at h
    obtain ⟨inner, rest, new, rfl, hnew, hrest, hread⟩ := hstep (hn ▸ Nat.lt_succ_self _) h
    cases rest with
    | nil => cases (readFrom_nil_eq_ok.mp hread).1
    | cons d rest =>
      have hoffset : o + 1 + byteLength inner + 1 = o + (byteLength inner + 2) := by omega
      rw [hrest d rfl] at hnew hread ⊢
      rw [readFrom_close, List.append_nil, List.reverse_reverse, hoffset] at hread
      exact .list hnew (hstep (by rw [← hn]; simp; omega) hread)
  | closing cs => exact ⟨[], _, [], rfl, .nil, fun d hd => by cases hd; rfl, h⟩
  | @atom lexeme rest t p hlexeme hstops =>
    have hlength := List.length_pos_iff.mpr hlexeme.ne_nil
    rw [readFrom_atom hlexeme hstops] at h
    exact (hstep (by rw [← hn, List.length_append]; omega) h).atom hlexeme hstops
  | illegal hblank hsemicolon hopen hclose hscan =>
    obtain ⟨tried, htried⟩ : ∃ tried, tryEnd opened items o (_ :: _) = .error tried := by
      cases opened with
      | nil => exact ⟨_, rfl⟩
      | cons => exact ⟨_, if_neg hclose⟩
    have hitem := tryItem_eq_error.mpr ⟨hscan, by simpa using hopen, tried, htried, rfl⟩
    rw [readFrom_of_tried hblank hsemicolon hitem] at h
    cases h

/-- A text is read as the forms that it is written with, and as no others. -/
theorem read_eq_ok : Form.read text = .ok fs ↔ Written 0 text [] fs := by
  constructor
  · intro h
    obtain ⟨cs, rest, new, rfl, hnew, hrest, hread⟩ := reaches_of_readFrom h
    cases rest with
    | nil =>
      obtain ⟨-, rfl⟩ := readFrom_nil_eq_ok.mp hread
      rwa [List.append_nil, List.append_nil, List.reverse_reverse]
    | cons c rest =>
      rw [hrest c rfl] at hread
      cases hread
  · intro h
    have hread := readFrom_of_written h [] []
    rw [List.append_nil, List.append_nil] at hread
    rw [Form.read, hread, readFrom_nil_eq_ok]
    exact ⟨rfl, List.reverse_reverse fs⟩

end

end WellSorted
