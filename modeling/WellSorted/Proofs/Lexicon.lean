import Mathlib
import WellSorted.Lexical.Token

/-!
# The lexicon

`Lexeme cs t p`: the characters `cs` are a way to write the token `t`, and a character with `p`
right after them would prolong them. A token is scanned at the front of a text exactly if one of its
lexemes stands there and is not prolonged (`scan_eq_some_iff`).
-/

namespace WellSorted

open Token

/-- No character with `p` comes next. -/
def Stops (p : Char → Bool) (rest : List Char) : Prop := ∀ c ∈ rest.head?, p c = false

/-- A zero alone, or digits that do not start with a zero. -/
structure IsNumeral (cs : List Char) : Prop where
  ne_nil : cs ≠ []
  digits : ∀ c ∈ cs, c.isDigit = true
  leading : cs.head? = some '0' → cs = ['0']

/-- Whether a decimal is the number with the given digits, so many of them after the point. -/
def Decimal.Denotes (d : Decimal) (digits : List Char) (places : Nat) : Prop :=
  d.mantissa * 10 ^ places = Nat.ofDigitChars 10 digits 0 * 10 ^ d.places

inductive Lexeme : List Char → Token → (Char → Bool) → Prop
  | numeral {cs : List Char} :
      IsNumeral cs → Lexeme cs (.numeral (Nat.ofDigitChars 10 cs 0)) isSymbolChar
  | decimal {whole fraction : List Char} {d : Decimal} :
      IsNumeral whole → fraction ≠ [] → (∀ c ∈ fraction, c.isDigit = true) →
      d.Denotes (whole ++ fraction) fraction.length →
      Lexeme (whole ++ '.' :: fraction) (.decimal d) isSymbolChar
  | hexadecimal {cs : List Char} : cs ≠ [] → (∀ c ∈ cs, isHexDigit c = true) →
      Lexeme ('#' :: 'x' :: cs) (.hexadecimal (String.ofList cs)) isHexDigit
  | binary {cs : List Char} : cs ≠ [] → (∀ c ∈ cs, isBinaryDigit c = true) →
      Lexeme ('#' :: 'b' :: cs) (.binary (String.ofList cs)) isBinaryDigit
  | string (cs : List Char) :
      Lexeme ('"' :: (escapeQuotes cs ++ ['"'])) (.string (String.ofList cs)) (· == '"')
  | simple {cs : List Char} : isSimpleSymbol (String.ofList cs) = true →
      Lexeme cs (.symbol (String.ofList cs)) isSymbolChar
  -- The closing bar ends a symbol, whatever follows.
  | quoted {cs : List Char} : '|' ∉ cs →
      Lexeme ('|' :: (cs ++ ['|'])) (.symbol (String.ofList cs)) (fun _ => false)
  | keyword {cs : List Char} : cs ≠ [] → (∀ c ∈ cs, isSymbolChar c = true) →
      Lexeme (':' :: cs) (.keyword (String.ofList (':' :: cs))) isSymbolChar

/-! ### Characters -/

namespace Token

theorem isSymbolChar_of_isDigit {c : Char} (h : c.isDigit = true) : isSymbolChar c = true := by
  simp [isSymbolChar, Char.isAlphanum, h]

theorem ne_of_isSymbolChar {c d : Char} (h : isSymbolChar c = true)
    (hd : isSymbolChar d = false) : c ≠ d := by
  rintro rfl
  rw [h] at hd
  cases hd

theorem decimalValue_eq (cs : List Char) : decimalValue cs = Nat.ofDigitChars 10 cs 0 := rfl

end Token

/-! ### Longest runs -/

section

variable {p q : Char → Bool} {rest : List Char}

theorem stops_nil : Stops p [] := nofun

theorem stops_cons {c : Char} : Stops p (c :: rest) ↔ p c = false := by
  simp [Stops]

theorem Stops.mono (h : Stops q rest) (hpq : ∀ c, p c = true → q c = true) : Stops p rest := by
  intro c hc
  have hq := h c hc
  cases hp : p c with
  | false => rfl
  | true => rw [hpq c hp] at hq; cases hq

theorem stops_dropWhile (cs : List Char) : Stops p (cs.dropWhile p) := by
  intro c hc
  have h := List.head?_dropWhile_not p cs
  rw [Option.mem_def.mp hc] at h
  simpa using h

theorem takeWhile_append_of_stops {cs : List Char} (h : ∀ c ∈ cs, p c = true) (hr : Stops p rest) :
    (cs ++ rest).takeWhile p = cs := by
  rw [List.takeWhile_append_of_pos h]
  cases rest with
  | nil => simp
  | cons c rest => simp [stops_cons.mp hr]

theorem drop_takeWhile (cs : List Char) : cs.drop (cs.takeWhile p).length = cs.dropWhile p := by
  induction cs with
  | nil => rfl
  | cons c cs ih => by_cases h : p c = true <;> simp [h, ih]

theorem continuesSymbol_eq_false : continuesSymbol rest = false ↔ Stops isSymbolChar rest := by
  cases rest with
  | nil => simp [continuesSymbol, stops_nil]
  | cons c rest => simp [continuesSymbol, stops_cons]

end

/-! ### Numerals and decimals -/

section

variable {cs ds rest : List Char}

theorem IsNumeral.exists_cons (h : IsNumeral ds) : ∃ c cs, ds = c :: cs ∧ c.isDigit = true := by
  cases ds with
  | nil => exact absurd rfl h.ne_nil
  | cons c cs => exact ⟨c, cs, rfl, h.digits c List.mem_cons_self⟩

theorem wholePart_of_ne {c : Char} (h : c ≠ '0') :
    wholePart (c :: cs) = (c :: cs).takeWhile Char.isDigit := by
  unfold wholePart
  split
  · next heq => exact absurd (List.cons.inj heq).1 h
  · rfl

theorem wholePart_append (h : IsNumeral ds) (hr : Stops Char.isDigit rest) :
    wholePart (ds ++ rest) = ds := by
  obtain ⟨c, cs, rfl, -⟩ := h.exists_cons
  by_cases hc : c = '0'
  · subst hc
    rw [h.leading rfl]
    rfl
  · rw [List.cons_append, wholePart_of_ne hc]
    exact takeWhile_append_of_stops h.digits hr

theorem isNumeral_wholePart {c : Char} (hc : c.isDigit = true) :
    IsNumeral (wholePart (c :: cs)) := by
  by_cases hzero : c = '0'
  · subst hzero
    exact ⟨nofun, by simp [wholePart], fun _ => rfl⟩
  · rw [wholePart_of_ne hzero, List.takeWhile_cons_of_pos hc]
    refine ⟨List.cons_ne_nil _ _, ?_, fun h => absurd (Option.some.inj h) hzero⟩
    rw [← List.takeWhile_cons_of_pos hc]
    exact fun d => List.mem_takeWhile_imp

/-- The digits of the whole part stand in front of the text. -/
theorem wholePart_append_drop (cs : List Char) :
    wholePart cs ++ cs.drop (wholePart cs).length = cs := by
  unfold wholePart
  split
  · rfl
  · rw [drop_takeWhile, List.takeWhile_append_dropWhile]

theorem denotes_reduce (m places : Nat) :
    (Decimal.reduce m places).mantissa * 10 ^ places =
      m * 10 ^ (Decimal.reduce m places).places := by
  induction places generalizing m with
  | zero => rfl
  | succ places ih =>
    rw [Decimal.reduce]
    split
    · next h =>
      have hm : m = m / 10 * 10 := by omega
      calc (Decimal.reduce (m / 10) places).mantissa * 10 ^ (places + 1)
          = (Decimal.reduce (m / 10) places).mantissa * 10 ^ places * 10 := by ring
        _ = m / 10 * 10 ^ (Decimal.reduce (m / 10) places).places * 10 := by rw [ih]
        _ = m / 10 * 10 * 10 ^ (Decimal.reduce (m / 10) places).places := by ring
        _ = m * 10 ^ (Decimal.reduce (m / 10) places).places := by rw [← hm]
    · rfl

/-- Decimals that denote the same number are equal. -/
theorem Decimal.eq_of_mul_eq {d e : Decimal}
    (h : d.mantissa * 10 ^ e.places = e.mantissa * 10 ^ d.places) : d = e := by
  wlog hle : d.places ≤ e.places generalizing d e
  · exact (this h.symm (by omega)).symm
  obtain ⟨k, hk⟩ := Nat.exists_eq_add_of_le hle
  have hpos : 0 < 10 ^ d.places := Nat.pow_pos (by decide)
  have hmantissa : d.mantissa * 10 ^ k = e.mantissa := by
    rw [hk, Nat.pow_add, Nat.mul_comm (10 ^ d.places), ← Nat.mul_assoc] at h
    exact Nat.eq_of_mul_eq_mul_right hpos h
  cases k with
  | zero =>
    cases d
    cases e
    simp_all
  | succ k =>
    have hzero : e.mantissa % 10 = 0 := by
      rw [← hmantissa, Nat.pow_succ, ← Nat.mul_assoc, Nat.mul_mod_left]
    rcases e.reduced with hplaces | hne
    · omega
    · exact absurd hzero hne

/-- A decimal denotes what its digits are reduced to. -/
theorem denotes_iff {d : Decimal} {places : Nat} :
    d.Denotes ds places ↔ d = Decimal.reduce (decimalValue ds) places := by
  have hreduce := denotes_reduce (decimalValue ds) places
  constructor
  · intro h
    refine Decimal.eq_of_mul_eq ?_
    have hpos : 0 < 10 ^ places := Nat.pow_pos (by decide)
    refine Nat.eq_of_mul_eq_mul_right hpos ?_
    rw [Nat.mul_right_comm, h, Nat.mul_right_comm _ _ (10 ^ places), hreduce, decimalValue_eq]
    ring
  · rintro rfl
    exact hreduce

end

/-! ### Scanning -/

/-- A lexeme of the token, `n` characters long, stands in front of the text and is not prolonged. -/
def Leads (cs : List Char) (t : Token) (n : Nat) : Prop :=
  ∃ lexeme rest p, cs = lexeme ++ rest ∧ n = lexeme.length ∧ Lexeme lexeme t p ∧ Stops p rest

section

variable {cs rest : List Char} {t : Token} {n : Nat}

theorem Stops.isDigit (h : Stops isSymbolChar rest) : Stops Char.isDigit rest :=
  h.mono fun _ => isSymbolChar_of_isDigit

theorem scanNumber_of_numeral (h : IsNumeral cs) (hr : Stops isSymbolChar rest) :
    scanNumber (cs ++ rest) = some (.numeral (decimalValue cs), cs.length) := by
  unfold scanNumber
  simp only [wholePart_append h hr.isDigit, List.drop_left]
  split
  · exact absurd (stops_cons.mp hr) (by decide)
  · rw [if_neg (by simp [continuesSymbol_eq_false.mpr hr])]

theorem scanNumber_of_decimal {whole fraction : List Char} (h : IsNumeral whole)
    (hne : fraction ≠ []) (hdigits : ∀ c ∈ fraction, c.isDigit = true)
    (hr : Stops isSymbolChar rest) :
    scanNumber (whole ++ '.' :: (fraction ++ rest)) =
      some (.decimal (.reduce (decimalValue (whole ++ fraction)) fraction.length),
        whole.length + 1 + fraction.length) := by
  have hwhole : wholePart (whole ++ '.' :: (fraction ++ rest)) = whole :=
    wholePart_append h (stops_cons.mpr (by decide))
  have hfraction := takeWhile_append_of_stops hdigits hr.isDigit
  unfold scanNumber
  simp only [hwhole, List.drop_left, hfraction]
  rw [if_neg (by simp [hne, continuesSymbol_eq_false.mpr hr])]

theorem leads_of_scanNumber {c : Char} (hc : c.isDigit = true)
    (h : scanNumber (c :: cs) = some (t, n)) : Leads (c :: cs) t n := by
  have hwhole : IsNumeral (wholePart (c :: cs)) := isNumeral_wholePart hc
  have hfront := wholePart_append_drop (c :: cs)
  unfold scanNumber at h
  simp only at h
  split at h
  · next rest hrest =>
    rw [hrest] at hfront
    split at h
    · cases h
    · next hcond =>
      rw [drop_takeWhile, Bool.or_eq_true, not_or, Bool.not_eq_true, Bool.not_eq_true,
        continuesSymbol_eq_false] at hcond
      cases h
      refine ⟨_, rest.dropWhile Char.isDigit, isSymbolChar, ?_, ?_,
        .decimal hwhole ?_ (fun d => List.mem_takeWhile_imp) (denotes_iff.mpr rfl), hcond.2⟩
      · rw [List.append_assoc, List.cons_append, List.takeWhile_append_dropWhile, hfront]
      · simp only [List.length_append, List.length_cons]
        omega
      · simpa using hcond.1
  · next hpoint =>
    split at h
    · cases h
    · next hcond =>
      rw [Bool.not_eq_true, continuesSymbol_eq_false] at hcond
      cases h
      exact ⟨_, _, _, hfront.symm, rfl, .numeral hwhole, hcond⟩

/-- The content of a string literal ends at the first quote that is not written twice. -/
theorem scanString_eq_some {s : List Char} (h : scanString cs = some (s, n)) :
    ∃ rest, cs = escapeQuotes s ++ '"' :: rest ∧ n = (escapeQuotes s).length + 1 ∧
      Stops (· == '"') rest := by
  fun_induction scanString cs generalizing s n with
  | case1 => cases h
  | case2 cs ih =>
    obtain ⟨⟨s', n'⟩, hs, heq⟩ := Option.map_eq_some_iff.mp h
    cases heq
    obtain ⟨rest, rfl, rfl, hrest⟩ := ih hs
    exact ⟨rest, rfl, rfl, hrest⟩
  | case3 rest hne =>
    cases h
    refine ⟨rest, rfl, rfl, fun c hc => ?_⟩
    cases rest with
    | nil => cases hc
    | cons d rest =>
      cases hc
      simpa using fun hd => hne rest (by rw [hd])
  | case4 c cs hne hne' ih =>
    obtain ⟨⟨s', n'⟩, hs, heq⟩ := Option.map_eq_some_iff.mp h
    cases heq
    obtain ⟨rest, rfl, rfl, hrest⟩ := ih hs
    have hescape : escapeQuotes (c :: s') = c :: escapeQuotes s' := if_neg hne'
    rw [hescape]
    exact ⟨rest, rfl, rfl, hrest⟩

theorem scanString_append {s : List Char} (hr : Stops (· == '"') rest) :
    scanString (escapeQuotes s ++ '"' :: rest) = some (s, (escapeQuotes s).length + 1) := by
  induction s with
  | nil =>
    cases rest with
    | nil => rfl
    | cons c rest =>
      have hc : c ≠ '"' := by simpa using stops_cons.mp hr
      simp [escapeQuotes, scanString, hc]
  | cons c s ih =>
    by_cases hc : c = '"'
    · simp [escapeQuotes, scanString, hc, ih]
    · simp [escapeQuotes, scanString, hc, ih]

theorem leads_of_scanHash (h : scanHash cs = some (t, n)) : Leads ('#' :: cs) t n := by
  unfold scanHash at h
  split at h
  · next cs =>
    simp only at h
    split at h
    · cases h
    · next hne =>
      cases h
      refine ⟨_, cs.dropWhile isHexDigit, _, ?_, rfl,
        .hexadecimal (by simpa using hne) fun _ => List.mem_takeWhile_imp, stops_dropWhile _⟩
      rw [List.cons_append, List.cons_append, List.takeWhile_append_dropWhile]
  · next cs =>
    simp only at h
    split at h
    · cases h
    · next hne =>
      cases h
      refine ⟨_, cs.dropWhile isBinaryDigit, _, ?_, rfl,
        .binary (by simpa using hne) fun _ => List.mem_takeWhile_imp, stops_dropWhile _⟩
      rw [List.cons_append, List.cons_append, List.takeWhile_append_dropWhile]
  · cases h

theorem leads_of_scanKeyword (h : scanKeyword cs = some (t, n)) : Leads (':' :: cs) t n := by
  unfold scanKeyword at h
  simp only at h
  split at h
  · cases h
  · next hne =>
    cases h
    refine ⟨_, cs.dropWhile isSymbolChar, _, ?_, rfl,
      .keyword (by simpa using hne) fun _ => List.mem_takeWhile_imp, stops_dropWhile _⟩
    rw [List.cons_append, List.takeWhile_append_dropWhile]

theorem scanQuoted_append (h : '|' ∉ cs) :
    scanQuoted (cs ++ '|' :: rest) = some (.symbol (String.ofList cs), cs.length + 2) := by
  have hall : ∀ c ∈ cs, (c != '|') = true := by
    intro c hc
    simp only [bne_iff_ne, ne_eq]
    rintro rfl
    exact h hc
  unfold scanQuoted
  rw [List.takeWhile_append_of_pos hall]
  simp

theorem leads_of_scanQuoted (h : scanQuoted cs = some (t, n)) : Leads ('|' :: cs) t n := by
  unfold scanQuoted at h
  simp only at h
  split at h
  · next hlt =>
    cases h
    have hbar : '|' ∉ cs.takeWhile (· != '|') := fun hmem => by
      simpa using List.mem_takeWhile_imp hmem
    cases hrest : cs.dropWhile (· != '|') with
    | nil =>
      have hcs := List.takeWhile_append_dropWhile (p := (· != '|')) (l := cs)
      have hlength := congrArg List.length hcs
      rw [hrest, List.append_nil] at hlength
      omega
    | cons c rest =>
      have hc := stops_dropWhile (p := (· != '|')) cs
      rw [hrest, stops_cons] at hc
      have hc : c = '|' := by simpa using hc
      subst hc
      refine ⟨_, rest, _, ?_, by simp, .quoted hbar, fun _ _ => rfl⟩
      have hcs := List.takeWhile_append_dropWhile (p := (· != '|')) (l := cs)
      rw [hrest] at hcs
      simp [hcs]
  · cases h

theorem isSimpleSymbol_ofList_cons {c : Char} : isSimpleSymbol (String.ofList (c :: cs)) = true ↔
    c.isDigit = false ∧ isSymbolChar c = true ∧ ∀ d ∈ cs, isSymbolChar d = true := by
  simp [isSimpleSymbol]

theorem leads_of_scan (h : scan cs = some (t, n)) : Leads cs t n := by
  cases cs with
  | nil => cases h
  | cons c cs =>
    rw [scan] at h
    split at h
    · next hdigit => exact leads_of_scanNumber hdigit h
    next hdigit =>
    split at h
    · next hc => exact hc ▸ leads_of_scanHash h
    split at h
    · next hc =>
      obtain ⟨⟨s, m⟩, hs, heq⟩ := Option.map_eq_some_iff.mp h
      cases heq
      obtain ⟨rest, rfl, rfl, hrest⟩ := scanString_eq_some hs
      exact ⟨_, rest, _, by simp [hc], by simp, .string s, hrest⟩
    split at h
    · next hc => exact hc ▸ leads_of_scanKeyword h
    split at h
    · next hc => exact hc ▸ leads_of_scanQuoted h
    · simp only at h
      split at h
      · cases h
      · next hne =>
        cases h
        refine ⟨_, (c :: cs).dropWhile isSymbolChar, _,
          List.takeWhile_append_dropWhile.symm, rfl, .simple ?_, stops_dropWhile _⟩
        have hc : isSymbolChar c = true := by
          by_contra hc
          simp [hc] at hne
        rw [List.takeWhile_cons_of_pos hc, isSimpleSymbol_ofList_cons]
        exact ⟨by simpa using hdigit, hc, fun d => List.mem_takeWhile_imp⟩

theorem scan_of_lexeme {lexeme : List Char} {p : Char → Bool} (h : Lexeme lexeme t p)
    (hr : Stops p rest) : scan (lexeme ++ rest) = some (t, lexeme.length) := by
  cases h with
  | numeral h =>
    obtain ⟨c, cs, rfl, hc⟩ := h.exists_cons
    rw [← decimalValue_eq, ← scanNumber_of_numeral h hr]
    exact if_pos hc
  | @decimal whole fraction d h hne hdigits hd =>
    obtain ⟨c, cs, rfl, hc⟩ := h.exists_cons
    have hscan := scanNumber_of_decimal h hne hdigits hr
    rw [← denotes_iff.mp hd] at hscan
    rw [List.append_assoc, List.cons_append, List.cons_append, scan, if_pos hc]
    refine hscan.trans ?_
    rw [List.length_append, List.length_cons, List.length_cons, Nat.add_assoc, Nat.add_comm 1]
  | hexadecimal hne hdigits =>
    have htake := takeWhile_append_of_stops hdigits hr
    simp [scan, scanHash, htake, hne]
  | binary hne hdigits =>
    have htake := takeWhile_append_of_stops hdigits hr
    simp [scan, scanHash, htake, hne]
  | string s => simp [scan, scanString_append hr]
  | simple h =>
    cases lexeme with
    | nil => cases h
    | cons c cs =>
      obtain ⟨hdigit, hc, hall⟩ := isSimpleSymbol_ofList_cons.mp h
      have htake : (c :: (cs ++ rest)).takeWhile isSymbolChar = c :: cs :=
        takeWhile_append_of_stops (List.forall_mem_cons.mpr ⟨hc, hall⟩) hr
      rw [List.cons_append, scan, if_neg (by simp [hdigit]),
        if_neg (ne_of_isSymbolChar hc (by decide)), if_neg (ne_of_isSymbolChar hc (by decide)),
        if_neg (ne_of_isSymbolChar hc (by decide)), if_neg (ne_of_isSymbolChar hc (by decide)),
        htake]
      rfl
  | quoted h => simp [scan, scanQuoted_append h]
  | keyword hne hall =>
    have htake := takeWhile_append_of_stops hall hr
    simp [scan, scanKeyword, htake, hne]

/-- A token is scanned exactly if one of its lexemes stands in front and is not prolonged. -/
theorem scan_eq_some_iff : scan cs = some (t, n) ↔ Leads cs t n := by
  refine ⟨leads_of_scan, ?_⟩
  rintro ⟨lexeme, rest, p, rfl, rfl, hlexeme, hrest⟩
  exact scan_of_lexeme hlexeme hrest

end

end WellSorted
