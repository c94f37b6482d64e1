import WellSorted.Proofs.Lexicon

/-!
# Scanning what was written

`Token.Legible` describes the tokens that a text can hold: a symbol has no bar, the digits of a
literal are digits. Scanning only yields such tokens (`scan_legible`), and the lexeme of such a
token is scanned back to it, provided that no character follows which would prolong it
(`scan_lexeme`). Both are facts about lexemes: those of the lexicon write legible tokens, and what
is written for a legible token is in the lexicon.
-/

namespace WellSorted

namespace Token

/-- The tokens that can stand in a text. -/
def Legible : Token → Prop
  | numeral _ => True
  | decimal _ => True
  | hexadecimal digits => digits.toList ≠ [] ∧ ∀ c ∈ digits.toList, isHexDigit c = true
  | binary digits => digits.toList ≠ [] ∧ ∀ c ∈ digits.toList, isBinaryDigit c = true
  | string _ => True
  | symbol s => '|' ∉ s.toList
  | keyword s => isKeyword s = true

/-- A text that prolongs no token before it. -/
def Ends (rest : List Char) : Prop := ∀ c cs, rest = c :: cs → isSymbolChar c = false ∧ c ≠ '"'

theorem ends_nil : Ends [] := nofun

theorem ends_cons {c : Char} {cs : List Char} (h : isSymbolChar c = false) (hq : c ≠ '"') :
    Ends (c :: cs) := by
  intro d ds e
  cases e
  exact ⟨h, hq⟩

theorem ends_space (cs : List Char) : Ends (' ' :: cs) := ends_cons (by decide) (by decide)

theorem ends_newline (cs : List Char) : Ends ('\n' :: cs) := ends_cons (by decide) (by decide)

theorem ends_close (cs : List Char) : Ends (')' :: cs) := ends_cons (by decide) (by decide)

/-! ### Classes of characters -/

theorem isSymbolChar_of_isHexDigit {c : Char} (h : isHexDigit c = true) :
    isSymbolChar c = true := by
  simp only [isHexDigit, Bool.or_eq_true, Bool.and_eq_true, decide_eq_true_eq] at h
  have key : c.isDigit = true ∨ c.isAlpha = true := by
    rcases h with (h | h) | h
    · exact .inl h
    · right
      simp only [Char.isAlpha, Char.isLower, Char.isUpper, Bool.or_eq_true, Bool.and_eq_true,
        decide_eq_true_eq]
      right
      exact ⟨h.1, Nat.le_trans h.2 (by decide)⟩
    · right
      simp only [Char.isAlpha, Char.isLower, Char.isUpper, Bool.or_eq_true, Bool.and_eq_true,
        decide_eq_true_eq]
      left
      exact ⟨h.1, Nat.le_trans h.2 (by decide)⟩
  rcases key with h | h <;> simp [isSymbolChar, Char.isAlphanum, h]

theorem isSymbolChar_of_isBinaryDigit {c : Char} (h : isBinaryDigit c = true) :
    isSymbolChar c = true := by
  simp only [isBinaryDigit, Bool.or_eq_true, beq_iff_eq] at h
  rcases h with rfl | rfl <;> decide

/-- Symbol characters and quotes are all that prolongs a lexeme. -/
theorem Ends.stops {rest : List Char} (h : Ends rest) {p : Char → Bool}
    (hp : ∀ c, p c = true → isSymbolChar c = true ∨ c = '"') : Stops p rest := by
  cases rest with
  | nil => exact stops_nil
  | cons c cs =>
    obtain ⟨hsymbol, hquote⟩ := h c cs rfl
    rw [stops_cons, ← Bool.not_eq_true]
    intro hc
    rcases hp c hc with hc | hc
    · rw [hsymbol] at hc
      cases hc
    · exact hquote hc

/-! ### Lexemes write legible tokens -/

theorem isSymbolChar_of_isSimpleSymbol {cs : List Char}
    (h : isSimpleSymbol (String.ofList cs) = true) : ∀ c ∈ cs, isSymbolChar c = true := by
  cases cs with
  | nil => cases h
  | cons c cs =>
    obtain ⟨-, hc, hall⟩ := isSimpleSymbol_ofList_cons.mp h
    exact List.forall_mem_cons.mpr ⟨hc, hall⟩

theorem legible_of_lexeme {cs : List Char} {t : Token} {p : Char → Bool} (h : Lexeme cs t p) :
    t.Legible := by
  cases h with
  | numeral | decimal | string => trivial
  | hexadecimal hne hdigits | binary hne hdigits =>
    rw [Legible, String.toList_ofList]
    exact ⟨hne, hdigits⟩
  | simple h =>
    rw [Legible, String.toList_ofList]
    intro hbar
    have hsymbol := isSymbolChar_of_isSimpleSymbol h '|' hbar
    revert hsymbol
    decide
  | quoted h =>
    rw [Legible, String.toList_ofList]
    exact h
  | @keyword cs hne hall =>
    rw [Legible, isKeyword, String.toList_ofList]
    cases cs with
    | nil => exact absurd rfl hne
    | cons c cs => exact List.all_eq_true.mpr hall

/-- Every token that is scanned is legible. -/
theorem scan_legible {cs : List Char} {t : Token} {n : Nat} (h : scan cs = some (t, n)) :
    t.Legible := by
  obtain ⟨lexeme, rest, p, -, -, hlexeme, -⟩ := leads_of_scan h
  exact legible_of_lexeme hlexeme

/-! ### Numerals and decimals -/

theorem isDigit_of_mem_toDigits {n : Nat} {c : Char} (h : c ∈ Nat.toDigits 10 n) :
    c.isDigit = true :=
  Nat.isDigit_of_mem_toDigits (by decide) (by decide) h

/-- Only zero itself is written with a leading zero. -/
theorem toDigits_ne_zero_cons {n : Nat} (h : n ≠ 0) (cs : List Char) :
    Nat.toDigits 10 n ≠ '0' :: cs := by
  intro e
  induction n using Nat.strongRecOn generalizing cs with
  | _ n ih =>
    rw [Nat.toDigits_eq_if (by decide)] at e
    split at e
    · next hlt =>
      have : Nat.digitChar n = '0' := (List.cons.inj e).1
      have := congrArg (fun c => c.toNat - 48) this
      simp only [Nat.toNat_digitChar_sub_48_of_lt_ten hlt] at this
      exact h this
    · next hge =>
      cases hd : Nat.toDigits 10 (n / 10) with
      | nil => exact Nat.toDigits_ne_nil hd
      | cons d ds =>
        rw [hd] at e
        have hd0 : d = '0' := (List.cons.inj e).1
        subst hd0
        exact ih (n / 10) (by omega) (by omega) ds hd

theorem isNumeral_toDigits (n : Nat) : IsNumeral (Nat.toDigits 10 n) := by
  refine ⟨Nat.toDigits_ne_nil, fun c => isDigit_of_mem_toDigits, fun hhead => ?_⟩
  by_cases hn : n = 0
  · subst hn
    rfl
  · cases hd : Nat.toDigits 10 n with
    | nil => exact absurd hd Nat.toDigits_ne_nil
    | cons c cs =>
      rw [hd] at hhead
      cases hhead
      exact absurd hd (toDigits_ne_zero_cons hn cs)

theorem Decimal.length_padded {n width : Nat} (hw : 0 < width) (h : n < 10 ^ width) :
    (Decimal.padded n width).length = width := by
  have := (Nat.length_toDigits_le_iff (b := 10) (by decide) hw).mpr h
  simp [Decimal.padded]
  omega

theorem isDigit_of_mem_padded {n width : Nat} {c : Char} (h : c ∈ Decimal.padded n width) :
    c.isDigit = true := by
  simp only [Decimal.padded, List.mem_append, List.mem_replicate] at h
  rcases h with ⟨_, rfl⟩ | h
  · decide
  · exact isDigit_of_mem_toDigits h

theorem ofDigitChars_padded (n width init : Nat) (hw : 0 < width) (h : n < 10 ^ width) :
    Nat.ofDigitChars 10 (Decimal.padded n width) init = 10 ^ width * init + n := by
  rw [Nat.ofDigitChars_eq_ofDigitChars_zero, Decimal.length_padded hw h]
  simp only [Decimal.padded, Nat.ofDigitChars_append, Nat.ofDigitChars_replicate_zero,
    Nat.mul_zero, Nat.ofDigitChars_ten_toDigits]

/-- A fraction without a zero at its end stays as it is. -/
theorem reduce_self (d : Decimal) : Decimal.reduce d.mantissa d.places = d := by
  obtain ⟨m, places, h⟩ := d
  cases places with
  | zero => rfl
  | succ k =>
    have hm : m % 10 ≠ 0 := by simpa using h
    simp only [Decimal.reduce]
    rw [dif_neg hm]

/-- The digits before and after the point of a written decimal, and what they stand for. -/
theorem exists_decimal_digits (d : Decimal) : ∃ (whole : Nat) (fraction : List Char),
    d.chars = Nat.toDigits 10 whole ++ '.' :: fraction ∧ fraction ≠ [] ∧
      (∀ c ∈ fraction, c.isDigit = true) ∧
      Decimal.reduce (decimalValue (Nat.toDigits 10 whole ++ fraction)) fraction.length = d := by
  by_cases hp : d.places = 0
  · refine ⟨d.mantissa, ['0'], by simp [Decimal.chars, hp], by simp, by simp, ?_⟩
    have : Decimal.reduce d.mantissa 0 = d := by rw [← hp]; exact reduce_self d
    rw [decimalValue_eq, Nat.ofDigitChars_append, Nat.ofDigitChars_ten_toDigits]
    simpa [Nat.ofDigitChars_cons, Decimal.reduce] using this
  · have hpos : 0 < d.places := Nat.pos_of_ne_zero hp
    have hlt : d.mantissa % 10 ^ d.places < 10 ^ d.places := Nat.mod_lt _ (Nat.pow_pos (by decide))
    refine ⟨d.mantissa / 10 ^ d.places, Decimal.padded (d.mantissa % 10 ^ d.places) d.places,
      by simp [Decimal.chars, hp], ?_, fun c => isDigit_of_mem_padded, ?_⟩
    · intro e
      have := Decimal.length_padded hpos hlt
      rw [e] at this
      simp at this
      omega
    · rw [decimalValue_eq, Nat.ofDigitChars_append, Nat.ofDigitChars_ten_toDigits,
        ofDigitChars_padded _ _ _ hpos hlt, Decimal.length_padded hpos hlt, Nat.div_add_mod]
      exact reduce_self d

/-! ### Legible tokens are written with lexemes -/

theorem lexeme_simple {s : String} (h : isSimpleSymbol s = true) :
    Lexeme s.toList (.symbol s) isSymbolChar := by
  have hlexeme := @Lexeme.simple s.toList (by rwa [String.ofList_toList])
  rwa [String.ofList_toList] at hlexeme

/-- What is written for a legible token is one of its lexemes. -/
theorem exists_lexeme {t : Token} (h : t.Legible) : ∃ p, Lexeme t.lexeme t p ∧
    ∀ c, p c = true → isSymbolChar c = true ∨ c = '"' := by
  cases t with
  | numeral n =>
    refine ⟨isSymbolChar, ?_, fun _ => .inl⟩
    have hlexeme := Lexeme.numeral (isNumeral_toDigits n)
    rwa [Nat.ofDigitChars_ten_toDigits] at hlexeme
  | decimal d =>
    obtain ⟨whole, fraction, hchars, hne, hdigits, hvalue⟩ := exists_decimal_digits d
    refine ⟨isSymbolChar, ?_, fun _ => .inl⟩
    rw [lexeme, hchars]
    exact .decimal (isNumeral_toDigits whole) hne hdigits (denotes_iff.mpr hvalue.symm)
  | hexadecimal digits =>
    refine ⟨isHexDigit, ?_, fun _ hc => .inl (isSymbolChar_of_isHexDigit hc)⟩
    have hlexeme := Lexeme.hexadecimal h.1 h.2
    rwa [String.ofList_toList] at hlexeme
  | binary digits =>
    refine ⟨isBinaryDigit, ?_, fun _ hc => .inl (isSymbolChar_of_isBinaryDigit hc)⟩
    have hlexeme := Lexeme.binary h.1 h.2
    rwa [String.ofList_toList] at hlexeme
  | string s =>
    refine ⟨(· == '"'), ?_, fun _ hc => .inr (by simpa using hc)⟩
    have hlexeme := Lexeme.string s.toList
    rw [String.ofList_toList] at hlexeme
    rw [lexeme, quoteString]
    simpa using hlexeme
  | symbol s =>
    rw [lexeme, quoteSymbol]
    split
    · next hs =>
      simp only [Bool.and_eq_true] at hs
      exact ⟨isSymbolChar, lexeme_simple hs.1, fun _ => .inl⟩
    · refine ⟨fun _ => false, ?_, nofun⟩
      have hlexeme := Lexeme.quoted h
      rw [String.ofList_toList] at hlexeme
      simpa using hlexeme
  | keyword s =>
    refine ⟨isSymbolChar, ?_, fun _ => .inl⟩
    rw [Legible, isKeyword] at h
    split at h
    · next c cs hs =>
      have hlexeme := Lexeme.keyword (List.cons_ne_nil c cs) (List.all_eq_true.mp h)
      rw [← hs, String.ofList_toList] at hlexeme
      exact hlexeme
    · cases h

theorem scan_simple {s : String} (h : isSimpleSymbol s = true) {rest : List Char}
    (hr : Ends rest) : scan (s.toList ++ rest) = some (.symbol s, s.toList.length) :=
  scan_of_lexeme (lexeme_simple h) (hr.stops fun _ => .inl)

/-- The lexeme of a legible token is scanned back to the token, as far as it goes. -/
theorem scan_lexeme {t : Token} (h : t.Legible) {rest : List Char} (hr : Ends rest) :
    scan (t.lexeme ++ rest) = some (t, t.lexeme.length) := by
  obtain ⟨p, hlexeme, hp⟩ := exists_lexeme h
  exact scan_of_lexeme hlexeme (hr.stops hp)

end Token

end WellSorted
