import WellSorted.Proofs.Datatypes
import WellSorted.Proofs.Reading

/-!
# Keys

Everything that can be declared is kept under a text: an identifier, a single literal or a class of
literals. A text is the spelling of one thing only (`Spelling.chars_append_inj`), provided that
symbols have no bars and that fixed words are reserved, so that a symbol of the same letters stands
between bars. Hence nothing is found under the key of another thing, and sorts of one text are equal
(`Keyed.keys_apart`).
-/

namespace WellSorted

open Token

/-- Decimals are the same if they denote the same number, however many places are written. -/
theorem Decimal.reduce_eq_iff {m places n places' : Nat} :
    reduce m places = reduce n places' ↔ m * 10 ^ places' = n * 10 ^ places := by
  have hm := denotes_reduce m places
  have hn := denotes_reduce n places'
  generalize reduce m places = d at *
  generalize reduce n places' = e at *
  constructor
  · rintro rfl
    have hpos : 0 < 10 ^ d.places := Nat.pow_pos (by decide)
    refine Nat.eq_of_mul_eq_mul_right hpos ?_
    calc m * 10 ^ places' * 10 ^ d.places = m * 10 ^ d.places * 10 ^ places' := by ring
      _ = d.mantissa * 10 ^ places' * 10 ^ places := by rw [← hm]; ring
      _ = n * 10 ^ places * 10 ^ d.places := by rw [hn]; ring
  · intro h
    have hpos : 0 < 10 ^ places * 10 ^ places' := Nat.mul_pos (Nat.pow_pos (by decide))
      (Nat.pow_pos (by decide))
    refine eq_of_mul_eq (Nat.eq_of_mul_eq_mul_right hpos ?_)
    calc d.mantissa * 10 ^ e.places * (10 ^ places * 10 ^ places')
        = d.mantissa * 10 ^ places * (10 ^ places' * 10 ^ e.places) := by ring
      _ = m * 10 ^ places' * (10 ^ d.places * 10 ^ e.places) := by rw [hm]; ring
      _ = n * 10 ^ e.places * (10 ^ places * 10 ^ d.places) := by rw [h]; ring
      _ = e.mantissa * 10 ^ d.places * (10 ^ places * 10 ^ places') := by rw [← hn]; ring

/-- Only literals in base two and sixteen start with `#`. -/
theorem Token.exists_digits_of_scan {cs : List Char} {t : Token} {n : Nat}
    (h : scan ('#' :: cs) = some (t, n)) :
    ∃ digits, t = .hexadecimal digits ∨ t = .binary digits := by
  have hhash : scanHash cs = some (t, n) := h
  unfold scanHash at hhash
  split at hhash
  · dsimp only at hhash
    split at hhash
    · cases hhash
    · cases hhash
      exact ⟨_, .inl rfl⟩
  · dsimp only at hhash
    split at hhash
    · cases hhash
    · cases hhash
      exact ⟨_, .inr rfl⟩
  · cases hhash

/-! ### Unique readability -/

namespace Spelling

mutual

/-- Whether the fixed words of a spelling are reserved, and its tokens can stand in a text. -/
def Clear : Spelling → Prop
  | word w => w ∈ reservedWords
  | token t => t.Legible
  | group ss => AllClear ss

def AllClear : List Spelling → Prop
  | [] => True
  | s :: ss => s.Clear ∧ AllClear ss

end

theorem allClear_iff {ss : List Spelling} : AllClear ss ↔ ∀ s ∈ ss, s.Clear := by
  induction ss with
  | nil => simp [AllClear]
  | cons s ss ih => simp [AllClear, ih]

/-- The token that is read where an atom is written. -/
def atom? : Spelling → Option Token
  | word w => some (.symbol w)
  | token t => some t
  | group _ => none

theorem isSimpleSymbol_of_mem_reservedWords {w : String} (h : w ∈ reservedWords) :
    isSimpleSymbol w = true := by
  revert w
  decide +kernel

theorem Clear.scan_chars {s : Spelling} (h : s.Clear) {t : Token} (ht : s.atom? = some t)
    {r : List Char} (hr : Ends r) : scan (s.chars ++ r) = some (t, s.chars.length) := by
  cases s with
  | word w =>
    cases ht
    exact scan_simple (isSimpleSymbol_of_mem_reservedWords h) hr
  | token t =>
    cases ht
    exact scan_lexeme h hr
  | group ss => cases ht

/-- An atom does not start like a group, and nothing starts like the end of one. -/
theorem Clear.exists_cons {s : Spelling} (h : s.Clear) :
    ∃ c cs, s.chars = c :: cs ∧ c ≠ ')' ∧ (c = '(' ↔ s.atom? = none) := by
  cases hs : s.atom? with
  | none =>
    cases s with
    | group ss =>
      cases ss with
      | nil => exact ⟨'(', _, rfl, by decide, by simp⟩
      | cons s ss => exact ⟨'(', _, rfl, by decide, by simp⟩
    | _ => cases hs
  | some t =>
    have hscan := h.scan_chars hs ends_nil
    rw [List.append_nil] at hscan
    cases hc : s.chars with
    | nil =>
      rw [hc] at hscan
      cases hscan
    | cons c cs =>
      rw [hc] at hscan
      obtain ⟨-, -, hopen, hclose⟩ := scan_eq_some_cons hscan
      exact ⟨c, cs, rfl, hclose, by simp [hopen]⟩

theorem Clear.chars_ne_close {s : Spelling} (h : s.Clear) (r r' : List Char) :
    s.chars ++ r ≠ ')' :: r' := by
  obtain ⟨c, cs, hc, hclose, -⟩ := h.exists_cons
  rw [hc]
  exact fun e => hclose (List.cons.inj e).1

/-- A reserved word is longer as a symbol, since it stands between bars. -/
theorem length_lexeme_ne {w : String} (h : w ∈ reservedWords) :
    (Token.symbol w).lexeme.length ≠ w.toList.length := by
  have hquoted : quoteSymbol w = "|" ++ w ++ "|" := by simp [quoteSymbol, h]
  simp [lexeme, hquoted]
  omega

/-- Atoms that are read as the same token are the same if they have one length. -/
theorem Clear.eq_of_atom? {s t : Spelling} (hs : s.Clear) (ht : t.Clear) {a : Token}
    (hsa : s.atom? = some a) (hta : t.atom? = some a)
    (hlength : s.chars.length = t.chars.length) : s = t := by
  cases s with
  | word w =>
    cases hsa
    cases t with
    | word v =>
      cases hta
      rfl
    | token u =>
      cases hta
      exact absurd hlength.symm (length_lexeme_ne hs)
    | group ts => cases hta
  | token u =>
    cases hsa
    cases t with
    | word w =>
      cases hta
      exact absurd hlength (length_lexeme_ne ht)
    | token v =>
      cases hta
      rfl
    | group ts => cases hta
  | group ss => cases hsa

theorem atom_append_inj {s t : Spelling} (hs : s.Clear) (ht : t.Clear) {a : Token}
    (ha : s.atom? = some a) {r r' : List Char} (hr : Ends r) (hr' : Ends r')
    (h : s.chars ++ r = t.chars ++ r') : s = t ∧ r = r' := by
  obtain ⟨c, cs, hc, -, hsopen⟩ := hs.exists_cons
  obtain ⟨d, ds, hd, -, htopen⟩ := ht.exists_cons
  have hcd : c = d := by
    rw [hc, hd] at h
    exact (List.cons.inj h).1
  cases hb : t.atom? with
  | none =>
    rw [hsopen.mp (hcd.trans (htopen.mpr hb))] at ha
    cases ha
  | some b =>
    have hscan := hs.scan_chars ha hr
    rw [h, ht.scan_chars hb hr'] at hscan
    obtain ⟨hba, hlength⟩ := Prod.mk.inj (Option.some.inj hscan)
    cases hs.eq_of_atom? ht ha (hb.trans (congrArg some hba)) hlength.symm
    exact ⟨rfl, List.append_cancel_left h⟩

mutual

/-- A clear spelling can be told from its text, and so can the place where it ends. -/
theorem chars_append_inj : ∀ {s t : Spelling}, s.Clear → t.Clear → ∀ {r r' : List Char},
    Ends r → Ends r' → s.chars ++ r = t.chars ++ r' → s = t ∧ r = r'
  | .word _, _, hs, ht, _, _, hr, hr', h => atom_append_inj hs ht rfl hr hr' h
  | .token _, _, hs, ht, _, _, hr, hr', h => atom_append_inj hs ht rfl hr hr' h
  | .group _, .word _, hs, ht, _, _, hr, hr', h => by
    cases (atom_append_inj ht hs rfl hr' hr h.symm).1
  | .group _, .token _, hs, ht, _, _, hr, hr', h => by
    cases (atom_append_inj ht hs rfl hr' hr h.symm).1
  | .group [], .group [], _, _, r, r', _, _, h => ⟨rfl, List.append_cancel_left h⟩
  | .group [], .group (t :: ts), _, ht, r, r', _, _, h => by
    simp only [chars, List.cons_append, List.nil_append, List.append_assoc, List.cons.injEq,
      true_and] at h
    exact absurd h.symm (ht.1.chars_ne_close _ _)
  | .group (s :: ss), .group [], hs, _, r, r', _, _, h => by
    simp only [chars, List.cons_append, List.nil_append, List.append_assoc, List.cons.injEq,
      true_and] at h
    exact absurd h (hs.1.chars_ne_close _ _)
  | .group (s :: ss), .group (t :: ts), hs, ht, r, r', _, _, h => by
    simp only [chars, List.cons_append, List.append_assoc, List.cons.injEq, true_and] at h
    obtain ⟨rfl, hrest⟩ := chars_append_inj hs.1 ht.1 (ends_charsAfter ss r)
      (ends_charsAfter ts r') h
    obtain ⟨rfl, hend⟩ := charsAfter_append_inj hs.2 ht.2 hrest
    exact ⟨rfl, hend⟩

theorem charsAfter_append_inj : ∀ {ss ts : List Spelling}, AllClear ss → AllClear ts →
    ∀ {r r' : List Char}, charsAfter ss ++ r = charsAfter ts ++ r' → ss = ts ∧ r = r'
  | [], [], _, _, _, _, h => ⟨rfl, (List.cons.inj h).2⟩
  | [], _ :: _, _, _, _, _, h => absurd (List.cons.inj h).1 (by decide)
  | _ :: _, [], _, _, _, _, h => absurd (List.cons.inj h).1 (by decide)
  | s :: ss, t :: ts, hs, ht, r, r', h => by
    simp only [charsAfter, List.cons_append, List.append_assoc, List.cons.injEq, true_and] at h
    obtain ⟨rfl, hrest⟩ := chars_append_inj hs.1 ht.1 (ends_charsAfter ss r)
      (ends_charsAfter ts r') h
    obtain ⟨rfl, hend⟩ := charsAfter_append_inj hs.2 ht.2 hrest
    exact ⟨rfl, hend⟩

end

/-- Clear spellings of one text are equal. -/
theorem text_inj {s t : Spelling} (hs : s.Clear) (ht : t.Clear) (h : s.text = t.text) : s = t := by
  have hchars := String.ofList_injective h
  rw [← List.append_nil s.chars, ← List.append_nil t.chars] at hchars
  exact (chars_append_inj hs ht ends_nil ends_nil hchars).1

theorem Clear.digits_of_hash {s : Spelling} (h : s.Clear) {cs : List Char}
    (hs : s.chars = '#' :: cs) :
    ∃ digits, s = .token (.hexadecimal digits) ∨ s = .token (.binary digits) := by
  obtain ⟨c, cs', hc, -, hopen⟩ := h.exists_cons
  cases hc.symm.trans hs
  cases ha : s.atom? with
  | none => exact absurd (hopen.mpr ha) (by decide)
  | some a =>
    have hscan := h.scan_chars ha ends_nil
    rw [hs] at hscan
    obtain ⟨digits, hdigits⟩ := exists_digits_of_scan hscan
    refine ⟨digits, ?_⟩
    cases s with
    | word w =>
      cases ha
      rcases hdigits with hdigits | hdigits <;> cases hdigits
    | token t =>
      cases ha
      exact hdigits.imp (congrArg token) (congrArg token)
    | group ss => cases ha

end Spelling

/-! ### Identifiers and sorts -/

def Index.BarFree : Index → Prop
  | numeral _ => True
  | symbol s => '|' ∉ s.toList

/-- Whether the symbols of an identifier have no bars. -/
structure Identifier.BarFree (i : Identifier) : Prop where
  symbol : '|' ∉ i.symbol.toList
  indices : ∀ x ∈ i.indices, x.BarFree

namespace SmtSort

mutual

def BarFree : SmtSort → Prop
  | mk head args => head.BarFree ∧ AllBarFree args

def AllBarFree : List SmtSort → Prop
  | [] => True
  | s :: ss => s.BarFree ∧ AllBarFree ss

end

end SmtSort

theorem Index.clear_spelling {x : Index} (h : x.BarFree) : x.spelling.Clear := by
  cases x with
  | numeral n => trivial
  | symbol s => exact h

theorem Index.spelling_injective : Function.Injective Index.spelling := by
  intro x y h
  cases x <;> cases y <;> cases h <;> rfl

namespace Identifier

theorem clear_spelling {i : Identifier} (h : i.BarFree) : i.spelling.Clear := by
  obtain ⟨s, is⟩ := i
  cases is with
  | nil => exact h.symbol
  | cons i is =>
    have hword : "_" ∈ reservedWords := by decide
    refine ⟨hword, h.symbol, Spelling.allClear_iff.mpr fun x hx => ?_⟩
    obtain ⟨y, hy, rfl⟩ := List.mem_map.mp hx
    exact Index.clear_spelling (h.indices y hy)

theorem spelling_ne_word (i : Identifier) (w : String) : i.spelling ≠ .word w := by
  obtain ⟨s, is⟩ := i
  cases is with
  | nil => exact Spelling.noConfusion
  | cons i is => exact Spelling.noConfusion

theorem spelling_ne_constant (i : Identifier) (c : Constant) : i.spelling ≠ c.spelling := by
  obtain ⟨s, is⟩ := i
  cases is with
  | nil => cases c <;> exact fun h => Token.noConfusion (Spelling.token.inj h)
  | cons i is => exact Spelling.noConfusion

/-- An application is not written like an indexed identifier, which starts with a word. -/
theorem spelling_ne_group (i j : Identifier) (ss : List Spelling) :
    i.spelling ≠ .group (j.spelling :: ss) := by
  obtain ⟨s, is⟩ := i
  cases is with
  | nil => exact Spelling.noConfusion
  | cons i is => exact fun h => j.spelling_ne_word "_" (List.cons.inj (Spelling.group.inj h)).1.symm

theorem spelling_injective : Function.Injective spelling := by
  rintro ⟨s, is⟩ ⟨t, js⟩ h
  cases is with
  | nil =>
    cases js with
    | nil =>
      cases h
      rfl
    | cons j js => exact Spelling.noConfusion h
  | cons i is =>
    cases js with
    | nil => exact Spelling.noConfusion h
    | cons j js =>
      obtain ⟨hsymbol, hindices⟩ := List.cons.inj (List.cons.inj (Spelling.group.inj h)).2
      cases hsymbol
      exact congrArg (mk s) (List.map_injective_iff.mpr Index.spelling_injective hindices)

end Identifier

namespace SmtSort

mutual

theorem clear_spelling : ∀ {s : SmtSort}, s.BarFree → s.spelling.Clear
  | mk _ [], h => Identifier.clear_spelling h.1
  | mk _ (_ :: _), h => ⟨Identifier.clear_spelling h.1, clear_spelling h.2.1,
      clear_spellings h.2.2⟩

theorem clear_spellings : ∀ {ss : List SmtSort}, AllBarFree ss → Spelling.AllClear (spellings ss)
  | [], _ => trivial
  | _ :: _, h => ⟨clear_spelling h.1, clear_spellings h.2⟩

end

mutual

theorem spelling_inj : ∀ {s t : SmtSort}, s.spelling = t.spelling → s = t
  | mk i [], mk j [], h => by
    rw [Identifier.spelling_injective h]
  | mk i [], mk j (_ :: _), h => absurd h (i.spelling_ne_group j _)
  | mk i (_ :: _), mk j [], h => absurd h.symm (j.spelling_ne_group i _)
  | mk i (s :: ss), mk j (t :: ts), h => by
    simp only [spelling, Spelling.group.injEq, List.cons.injEq] at h
    rw [Identifier.spelling_injective h.1, spelling_inj h.2.1, spellings_inj h.2.2]

theorem spellings_inj : ∀ {ss ts : List SmtSort}, spellings ss = spellings ts → ss = ts
  | [], [], _ => rfl
  | [], _ :: _, h => nomatch h
  | _ :: _, [], h => nomatch h
  | s :: ss, t :: ts, h => by
    simp only [spellings, List.cons.injEq] at h
    rw [spelling_inj h.1, spellings_inj h.2]

end

theorem render_inj {s t : SmtSort} (hs : s.BarFree) (ht : t.BarFree) :
    s.render = t.render ↔ s = t :=
  ⟨fun h => spelling_inj (Spelling.text_inj (clear_spelling hs) (clear_spelling ht) h),
    congrArg render⟩

end SmtSort

/-! ### What is declared -/

/-- What can be declared under a key of its own. -/
inductive Keyed where
  | identifier (i : Identifier)
  | literal (c : Constant)
  | literals (c : LiteralClass)
deriving DecidableEq

namespace Keyed

def key : Keyed → String
  | identifier i => i.key
  | literal c => c.render
  | literals c => c.word

/-- Whether the symbols of an identifier have no bars; strings may have them. -/
def BarFree : Keyed → Prop
  | identifier i => i.BarFree
  | literal _ => True
  | literals _ => True

def spelling : Keyed → Spelling
  | identifier i => i.spelling
  | literal c => c.spelling
  | literals c => .word c.word

theorem key_eq_text (x : Keyed) : x.key = x.spelling.text := by
  cases x with
  | identifier i => rfl
  | literal c => rfl
  | literals c => exact String.ofList_toList.symm

theorem spelling_injective : Function.Injective spelling := by
  intro x y h
  cases x with
  | identifier i =>
    cases y with
    | identifier j => exact congrArg identifier (Identifier.spelling_injective h)
    | literal c => exact absurd h (i.spelling_ne_constant c)
    | literals c => exact absurd h (i.spelling_ne_word c.word)
  | literal c =>
    cases y with
    | identifier j => exact absurd h.symm (j.spelling_ne_constant c)
    | literal d =>
      have htoken := congrArg Constant.ofToken? (Spelling.token.inj h)
      rw [Constant.ofToken?_token, Constant.ofToken?_token] at htoken
      exact congrArg literal (Option.some.inj htoken)
    | literals d => exact Spelling.noConfusion h
  | literals c =>
    cases y with
    | identifier j => exact absurd h.symm (j.spelling_ne_word c.word)
    | literal d => exact Spelling.noConfusion h
    | literals d =>
      have hword := congrArg LiteralClass.ofWord? (Spelling.word.inj h)
      rw [LiteralClass.ofWord?_word, LiteralClass.ofWord?_word] at hword
      exact congrArg literals (Option.some.inj hword)

/-- Only what stands for digits in base two or sixteen is not known to be legible. -/
theorem BarFree.clear_or_digits {x : Keyed} (h : x.BarFree) : x.spelling.Clear ∨
    ∃ digits, x = literal (.hexadecimal digits) ∨ x = literal (.binary digits) := by
  cases x with
  | identifier i => exact .inl (Identifier.clear_spelling h)
  | literal c =>
    cases c with
    | numeral n => exact .inl trivial
    | decimal d => exact .inl trivial
    | string s => exact .inl trivial
    | binary digits => exact .inr ⟨digits, .inr rfl⟩
    | hexadecimal digits => exact .inr ⟨digits, .inl rfl⟩
  | literals c =>
    left
    show c.word ∈ reservedWords
    cases c <;> decide

theorem BarFree.digits_of_hash {x : Keyed} (h : x.BarFree) {cs : List Char}
    (hcs : x.spelling.chars = '#' :: cs) :
    ∃ digits, x = literal (.hexadecimal digits) ∨ x = literal (.binary digits) := by
  rcases h.clear_or_digits with hclear | hdigits
  · obtain ⟨digits, hdigits⟩ := hclear.digits_of_hash hcs
    exact ⟨digits, hdigits.imp (fun h => spelling_injective h) fun h => spelling_injective h⟩
  · exact hdigits

theorem BarFree.clear {x : Keyed} (h : x.BarFree) (hcs : ∀ cs, x.spelling.chars ≠ '#' :: cs) :
    x.spelling.Clear := by
  rcases h.clear_or_digits with hclear | ⟨digits, rfl | rfl⟩
  · exact hclear
  · exact absurd rfl (hcs _)
  · exact absurd rfl (hcs _)

theorem key_inj {x y : Keyed} (hx : x.BarFree) (hy : y.BarFree) (h : x.key = y.key) : x = y := by
  rw [key_eq_text, key_eq_text] at h
  by_cases hhash : ∃ cs, x.spelling.chars = '#' :: cs
  · obtain ⟨cs, hcs⟩ := hhash
    have hchars : x.spelling.chars = y.spelling.chars := String.ofList_injective h
    obtain ⟨digits, hxd⟩ := hx.digits_of_hash hcs
    obtain ⟨digits', hyd⟩ := hy.digits_of_hash (hchars ▸ hcs)
    rcases hxd with rfl | rfl <;> rcases hyd with rfl | rfl
    all_goals obtain ⟨hbase, hdigits⟩ := List.cons.inj (List.cons.inj hchars).2
    · rw [String.toList_inj.mp hdigits]
    · exact absurd hbase (by decide)
    · exact absurd hbase (by decide)
    · rw [String.toList_inj.mp hdigits]
  · have hclear := hx.clear (not_exists.mp hhash)
    refine spelling_injective (Spelling.text_inj hclear (hy.clear fun cs hcs => ?_) h)
    exact hhash ⟨cs, (String.ofList_injective h).trans hcs⟩

/-- Keys are free of collisions: two things have one key only if they are the same, where decimals
are the same if they denote one number. A symbol is declared under the key of its identifier, and
the tester of a constructor under that of its indexed one. Sorts are equal if their texts are. -/
theorem keys_apart :
    (∀ x y : Keyed, x.BarFree → y.BarFree → (x.key = y.key ↔ x = y)) ∧
    (∀ m places n places' : Nat,
      (literal (.decimal (.reduce m places))).key = (literal (.decimal (.reduce n places'))).key ↔
        m * 10 ^ places' = n * 10 ^ places) ∧
    (∀ s, quoteSymbol s = (identifier (.simple s)).key) ∧
    (∀ c, Check.Datatype.testerName (quoteSymbol c) = (identifier ⟨"is", [.symbol c]⟩).key) ∧
    ∀ s t : SmtSort, s.BarFree → t.BarFree → (s.render = t.render ↔ s = t) := by
  refine ⟨fun x y hx hy => ⟨key_inj hx hy, congrArg key⟩, fun m places n places' => ?_,
    fun s => (Identifier.key_simple s).symm, fun c => ?_, fun s t => SmtSort.render_inj⟩
  · rw [← Decimal.reduce_eq_iff]
    refine ⟨fun h => ?_, fun h => by rw [h]⟩
    exact Constant.decimal.inj (literal.inj (key_inj trivial trivial h))
  · exact (ConstructorDec.key_tester ⟨c, []⟩).symm

/-- A symbol that spells a class of literals, and a sort whose head spells the word of an indexed
identifier. -/
theorem keys_apart_reserved :
    (identifier (.simple "NUMERAL")).key ≠ (literals .numeral).key ∧
    (SmtSort.mk (.simple "_") [.simple "a", .simple "b"]).render ≠
      (SmtSort.mk ⟨"a", [.symbol "b"]⟩ []).render := by
  obtain ⟨hkeys, -, -, -, hsorts⟩ := keys_apart
  have hsymbol (s : String) (h : '|' ∉ s.toList) : (Identifier.simple s).BarFree :=
    ⟨h, fun _ hx => absurd hx List.not_mem_nil⟩
  have hnumeral : (identifier (.simple "NUMERAL")).BarFree := hsymbol "NUMERAL" (by decide)
  have ha : (SmtSort.simple "a").BarFree := ⟨hsymbol "a" (by decide), trivial⟩
  have hb : (SmtSort.simple "b").BarFree := ⟨hsymbol "b" (by decide), trivial⟩
  have hplain : (SmtSort.mk (.simple "_") [.simple "a", .simple "b"]).BarFree :=
    ⟨hsymbol "_" (by decide), ha, hb, trivial⟩
  have hindexed : (SmtSort.mk ⟨"a", [.symbol "b"]⟩ []).BarFree :=
    ⟨⟨by decide, by simp [Index.BarFree]⟩, trivial⟩
  exact ⟨(hkeys _ (literals .numeral) hnumeral trivial).not.mpr (by decide),
    (hsorts _ _ hplain hindexed).not.mpr (by decide)⟩

end Keyed

end WellSorted
