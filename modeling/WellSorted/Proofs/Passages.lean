import WellSorted.Proofs.Grammar

/-!
# Passages of a text

A form that was read, at whatever depth, is written by the passage of the text at its extent
(`WrittenForm`). The passage can stand elsewhere: only extents change, and what a form says
(`Form.spelling`) does not depend on them. It can also be replaced by another one that says the same
(`Written.focus`), so that layout can be added before or after any item.
-/

namespace WellSorted

namespace Form

mutual

/-- What a form says, wherever it stands. -/
def spelling : Form → Spelling
  | atom _ t => .token t
  | list _ items => .group (spellings items)

def spellings : List Form → List Spelling
  | [] => []
  | f :: fs => f.spelling :: spellings fs

end

theorem spellings_eq_map (fs : List Form) : spellings fs = fs.map spelling := by
  induction fs with
  | nil => rfl
  | cons f fs ih => rw [spellings, ih, List.map_cons]

/-- A form is one of some forms, or stands within one of them. -/
inductive Within (f : Form) : List Form → Prop
  | head {fs : List Form} : Within f (f :: fs)
  | inner {e : Extent} {items fs : List Form} : Within f items → Within f (.list e items :: fs)
  | tail {g : Form} {fs : List Form} : Within f fs → Within f (g :: fs)

end Form

open Form
open Text (byteLength byteLength_nil byteLength_cons byteLength_append)

/-- A form is written with the given characters, with no layout around it. -/
inductive WrittenForm (o : Nat) (cs rest : List Char) : Form → Prop
  | atom {t : Token} {p : Char → Bool} :
      Lexeme cs t p → Stops p rest → WrittenForm o cs rest (.atom ⟨o, o + byteLength cs⟩ t)
  | list {inner : List Char} {items : List Form} :
      cs = '(' :: (inner ++ [')']) → Written (o + 1) inner (')' :: rest) items →
      WrittenForm o cs rest (.list ⟨o, o + byteLength cs⟩ items)

section

variable {o : Nat} {cs cs' rest rest' : List Char} {f : Form} {fs gs : List Form}

theorem Written.cons (h : WrittenForm o cs (cs' ++ rest) f)
    (h' : Written (o + byteLength cs) cs' rest fs) : Written o (cs ++ cs') rest (f :: fs) := by
  cases h with
  | atom hlexeme hstops => exact .atom hlexeme hstops h'
  | @list inner items hcs hinner =>
    have hlength : byteLength cs = byteLength inner + 2 := by
      rw [hcs]
      exact byteLength_list inner []
    rw [hlength] at h' ⊢
    rw [hcs, List.cons_append, List.append_assoc, List.singleton_append]
    exact .list hinner h'

theorem WrittenForm.ofList {inner : List Char} {items : List Form}
    (h : Written (o + 1) inner (')' :: rest) items) :
    WrittenForm o ('(' :: (inner ++ [')'])) rest (.list ⟨o, o + (byteLength inner + 2)⟩ items) := by
  have hlength : byteLength ('(' :: (inner ++ [')'])) = byteLength inner + 2 :=
    byteLength_list inner []
  rw [← hlength]
  exact .list rfl h

theorem WrittenForm.written (h : WrittenForm o cs rest f) : Written o cs rest [f] := by
  have hcons : Written o (cs ++ []) rest [f] := .cons h .nil
  rwa [List.append_nil] at hcons

/-! ### Other places -/

theorem stops_append {p : Char → Bool} (hr : Stops p rest → Stops p rest')
    (h : Stops p (cs ++ rest)) : Stops p (cs ++ rest') := by
  cases cs with
  | nil => exact hr h
  | cons c cs => exact h

/-- What follows only counts as far as it prolongs something. -/
theorem Written.followed (h : Written o cs rest fs) (hr : ∀ p, Stops p rest → Stops p rest') :
    Written o cs rest' fs := by
  induction h generalizing rest' with
  | nil => exact .nil
  | blank hc _ ih => exact .blank hc (ih hr)
  | comment hbody hstops _ ih => exact .comment hbody (stops_append (hr _) hstops) (ih hr)
  | atom hlexeme hstops _ ih => exact .atom hlexeme (stops_append (hr _) hstops) (ih hr)
  | list _ _ ihinner ih =>
    exact .list (ihinner fun p hp => stops_cons.mpr (stops_cons.mp hp)) (ih hr)

theorem WrittenForm.followed (h : WrittenForm o cs rest f)
    (hr : ∀ lexeme t p, Lexeme lexeme t p → Stops p rest → Stops p rest') :
    WrittenForm o cs rest' f := by
  cases h with
  | atom hlexeme hstops => exact .atom hlexeme (hr _ _ _ hlexeme hstops)
  | list hcs hinner =>
    exact .list hcs (hinner.followed fun p hp => stops_cons.mpr (stops_cons.mp hp))

theorem Written.append (h : Written o cs (cs' ++ rest) fs)
    (h' : Written (o + byteLength cs) cs' rest gs) : Written o (cs ++ cs') rest (fs ++ gs) := by
  generalize hall : cs' ++ rest = all at h
  induction h with
  | nil => exact h'
  | blank hc _ ih =>
    refine .blank hc (ih ?_ hall)
    rwa [Nat.add_assoc]
  | @comment o body cs all fs hbody hstops _ ih =>
    subst hall
    rw [List.cons_append, List.append_assoc]
    refine .comment hbody (by rwa [List.append_assoc]) (ih ?_ rfl)
    rwa [Nat.add_assoc, ← byteLength_comment]
  | @atom o lexeme cs all t p fs hlexeme hstops _ ih =>
    subst hall
    rw [List.append_assoc]
    refine .atom hlexeme (by rwa [List.append_assoc]) (ih ?_ rfl)
    rwa [Nat.add_assoc, ← byteLength_append]
  | @list o inner cs all items fs hinner _ _ ih =>
    subst hall
    rw [List.cons_append, List.append_assoc, List.cons_append]
    refine .list (by rwa [List.append_assoc]) (ih ?_ rfl)
    rwa [Nat.add_assoc o, ← byteLength_list]

/-- The same characters are read as the same items at any other offset. -/
theorem Written.move (h : Written o cs rest fs) (o' : Nat) :
    ∃ gs, Written o' cs rest gs ∧ spellings gs = spellings fs := by
  induction h generalizing o' with
  | nil => exact ⟨[], .nil, rfl⟩
  | @blank _ c _ _ _ hc _ ih =>
    obtain ⟨gs, hgs, hsame⟩ := ih (o' + c.utf8Size)
    exact ⟨gs, .blank hc hgs, hsame⟩
  | @comment _ body _ _ _ hbody hstops _ ih =>
    obtain ⟨gs, hgs, hsame⟩ := ih (o' + (byteLength body + 1))
    exact ⟨gs, .comment hbody hstops hgs, hsame⟩
  | @atom _ lexeme _ _ t _ _ hlexeme hstops _ ih =>
    obtain ⟨gs, hgs, hsame⟩ := ih (o' + byteLength lexeme)
    exact ⟨_, .atom hlexeme hstops hgs, by rw [spellings, spellings, hsame, spelling, spelling]⟩
  | @list _ inner _ _ _ _ _ _ ihinner ih =>
    obtain ⟨items, hitems, hinner⟩ := ihinner (o' + 1)
    obtain ⟨gs, hgs, hsame⟩ := ih (o' + (byteLength inner + 2))
    refine ⟨_, .list hitems hgs, ?_⟩
    rw [spellings, spellings, hsame, spelling, spelling, hinner]

theorem WrittenForm.move (h : WrittenForm o cs rest f) (o' : Nat) :
    ∃ g, WrittenForm o' cs rest g ∧ g.spelling = f.spelling := by
  cases h with
  | atom hlexeme hstops => exact ⟨_, .atom hlexeme hstops, rfl⟩
  | list hcs hinner =>
    obtain ⟨items, hitems, hsame⟩ := hinner.move (o' + 1)
    exact ⟨_, .list hcs hitems, by rw [spelling, spelling, hsame]⟩

theorem WrittenForm.extent (h : WrittenForm o cs rest f) : f.extent = ⟨o, o + byteLength cs⟩ := by
  cases h <;> rfl

/-- A form starts with a character that is no layout. -/
theorem WrittenForm.head (h : WrittenForm o cs rest f) :
    ∃ c tail, cs = c :: tail ∧ isBlank c = false := by
  cases h with
  | list hcs _ => exact ⟨_, _, hcs, rfl⟩
  | atom hlexeme _ =>
    cases cs with
    | nil => exact absurd rfl hlexeme.ne_nil
    | cons c tail =>
      have hscan : Token.scan (c :: (tail ++ [])) = _ := scan_of_lexeme hlexeme stops_nil
      exact ⟨c, tail, rfl, (scan_eq_some_cons hscan).1⟩

/-! ### Replacing a passage -/

/-- Other characters that can stand for a form, whatever lexeme they come after. -/
structure Replaces (f : Form) (mid new rest : List Char) : Prop where
  written : ∀ o, ∃ g, Written o new rest [g] ∧ g.spelling = f.spelling
  stops : ∀ lexeme t p, Lexeme lexeme t p → Stops p (mid ++ rest) → Stops p (new ++ rest)

/-- The passage of a form within a text, and what can be put into its place. -/
def Focus (o : Nat) (cs rest : List Char) (fs : List Form) (f : Form) : Prop :=
  ∃ before mid after, cs = before ++ (mid ++ after) ∧
    WrittenForm (o + byteLength before) mid (after ++ rest) f ∧
    ∀ new, Replaces f mid new (after ++ rest) →
      ∃ gs, Written o (before ++ (new ++ after)) rest gs ∧ spellings gs = spellings fs

theorem Focus.blank {c : Char} (hc : isBlank c = true) (h : Focus (o + c.utf8Size) cs rest fs f) :
    Focus o (c :: cs) rest fs f := by
  obtain ⟨before, mid, after, rfl, hf, hreplace⟩ := h
  refine ⟨c :: before, mid, after, rfl, ?_, fun new hnew => ?_⟩
  · rwa [byteLength_cons, ← Nat.add_assoc]
  · obtain ⟨gs, hgs, hsame⟩ := hreplace new hnew
    exact ⟨gs, .blank hc hgs, hsame⟩

theorem Focus.comment {body : List Char} (hbody : '\n' ∉ body)
    (hstops : Stops (· != '\n') (cs ++ rest)) (h : Focus (o + (byteLength body + 1)) cs rest fs f) :
    Focus o (';' :: (body ++ cs)) rest fs f := by
  obtain ⟨before, mid, after, rfl, hf, hreplace⟩ := h
  refine ⟨';' :: (body ++ before), mid, after, by simp, ?_, fun new hnew => ?_⟩
  · rwa [byteLength_comment, ← Nat.add_assoc]
  · obtain ⟨gs, hgs, hsame⟩ := hreplace new hnew
    rw [List.cons_append, List.append_assoc]
    refine ⟨gs, .comment hbody ?_ hgs, hsame⟩
    cases before with
    | cons c before => exact hstops
    | nil =>
      -- A form right after the comment would be part of it.
      obtain ⟨c, tail, rfl, hc⟩ := hf.head
      have hnewline : c = '\n' := by simpa [Stops] using hstops
      subst hnewline
      cases hc

/-- The first of some forms. -/
theorem Focus.head (hf : WrittenForm o cs (cs' ++ rest) f)
    (h : Written (o + byteLength cs) cs' rest fs) : Focus o (cs ++ cs') rest (f :: fs) f := by
  refine ⟨[], cs, cs', rfl, hf, fun new hnew => ?_⟩
  obtain ⟨g, hg, hsame⟩ := hnew.written o
  obtain ⟨gs, hgs, hrest⟩ := h.move (o + byteLength new)
  refine ⟨[g] ++ gs, hg.append hgs, ?_⟩
  rw [List.singleton_append, spellings, spellings, hsame, hrest]

/-- A form after the first one. -/
theorem Focus.tail {g : Form} (hg : WrittenForm o cs (cs' ++ rest) g)
    (h : Focus (o + byteLength cs) cs' rest fs f) : Focus o (cs ++ cs') rest (g :: fs) f := by
  obtain ⟨before, mid, after, rfl, hf, hreplace⟩ := h
  refine ⟨cs ++ before, mid, after, by simp, ?_, fun new hnew => ?_⟩
  · rwa [byteLength_append, ← Nat.add_assoc]
  · obtain ⟨gs, hgs, hsame⟩ := hreplace new hnew
    have hfront : WrittenForm o cs ((before ++ (new ++ after)) ++ rest) g := by
      refine hg.followed fun lexeme t p hlexeme hstops => ?_
      rw [List.append_assoc] at hstops ⊢
      refine stops_append (fun hmid => ?_) hstops
      rw [List.append_assoc] at hmid ⊢
      exact hnew.stops lexeme t p hlexeme hmid
    rw [List.append_assoc]
    refine ⟨g :: gs, .cons hfront hgs, ?_⟩
    rw [spellings, spellings, hsame]

/-- A form within a list that is the first of some forms. -/
theorem Focus.inner {items : List Form} (hinner : Focus (o + 1) cs (')' :: (cs' ++ rest)) items f)
    (h : Written (o + (byteLength cs + 2)) cs' rest fs) :
    Focus o ('(' :: (cs ++ ')' :: cs')) rest (.list ⟨o, o + (byteLength cs + 2)⟩ items :: fs) f := by
  obtain ⟨before, mid, after, rfl, hf, hreplace⟩ := hinner
  refine ⟨'(' :: before, mid, after ++ ')' :: cs', by simp, ?_, fun new hnew => ?_⟩
  · rw [byteLength_cons, ← Nat.add_assoc, List.append_assoc]
    exact hf
  · rw [List.append_assoc, List.cons_append] at hnew
    obtain ⟨gs, hgs, hsame⟩ := hreplace new hnew
    obtain ⟨later, hlater, hrest⟩ := h.move (o + (byteLength (before ++ (new ++ after)) + 2))
    have hlist := Written.list hgs hlater
    simp only [List.append_assoc] at hlist
    refine ⟨_, by simpa using hlist, ?_⟩
    rw [spellings, spellings, hrest, spelling, spelling, hsame]

/-- Every form that is read can be looked at in the text around it. -/
theorem Written.focus (h : Written o cs rest fs) (hf : f.Within fs) : Focus o cs rest fs f := by
  induction h with
  | nil => cases hf
  | blank hc _ ih => exact (ih hf).blank hc
  | comment hbody hstops _ ih => exact (ih hf).comment hbody hstops
  | atom hlexeme hstops hrest ih =>
    cases hf with
    | head => exact .head (.atom hlexeme hstops) hrest
    | tail hf => exact .tail (.atom hlexeme hstops) (ih hf)
  | @list o inner cs rest items fs hinner hrest ihinner ih =>
    have hform := WrittenForm.ofList hinner
    have htext : '(' :: (inner ++ [')']) ++ cs = '(' :: (inner ++ ')' :: cs) := by simp
    have hlength : byteLength ('(' :: (inner ++ [')'])) = byteLength inner + 2 :=
      byteLength_list inner []
    cases hf with
    | head =>
      rw [← hlength] at hrest
      exact htext ▸ .head hform hrest
    | inner hf => exact .inner (ihinner hf) hrest
    | tail hf =>
      rw [← hlength] at ih
      exact htext ▸ .tail hform (ih hf)

/-! ### Adding layout -/

/-- Blanks and comments, if the given text follows. -/
def IsLayout (cs rest : List Char) : Prop := Written 0 cs rest []

theorem IsLayout.written (h : IsLayout cs rest) (o : Nat) : Written o cs rest [] := by
  obtain ⟨gs, hgs, hsame⟩ := Written.move h o
  cases gs with
  | nil => exact hgs
  | cons g gs => cases hsame

theorem Lexeme.stops_at {lexeme : List Char} {t : Token} {p : Char → Bool} (h : Lexeme lexeme t p)
    {c : Char} (hc : isBlank c = true ∨ c = ';') : p c = false := by
  simp only [isBlank, Bool.or_eq_true, beq_iff_eq] at hc
  cases h <;> rcases hc with (((rfl | rfl) | rfl) | rfl) | rfl <;> decide

/-- Layout prolongs no lexeme. -/
theorem IsLayout.stops (h : IsLayout cs rest) {lexeme : List Char} {t : Token} {p : Char → Bool}
    (hlexeme : Lexeme lexeme t p) (hrest : Stops p rest) : Stops p (cs ++ rest) := by
  cases h with
  | nil => exact hrest
  | blank hc _ => exact stops_cons.mpr (hlexeme.stops_at (.inl hc))
  | comment _ _ _ => exact stops_cons.mpr (hlexeme.stops_at (.inr rfl))

theorem Replaces.before (hf : WrittenForm o cs rest f) (hl : IsLayout cs' (cs ++ rest)) :
    Replaces f cs (cs' ++ cs) rest := by
  refine ⟨fun o => ?_, fun lexeme t p hlexeme hstops => ?_⟩
  · obtain ⟨g, hg, hsame⟩ := hf.move (o + byteLength cs')
    exact ⟨g, (hl.written o).append hg.written, hsame⟩
  · rw [List.append_assoc]
    exact hl.stops hlexeme hstops

theorem Replaces.after (hf : WrittenForm o cs rest f) (hl : IsLayout cs' rest) :
    Replaces f cs (cs ++ cs') rest := by
  refine ⟨fun o => ?_, fun lexeme t p hlexeme hstops => ?_⟩
  · obtain ⟨g, hg, hsame⟩ := hf.move o
    have hfollowed := hg.followed fun _ _ _ hlexeme hstops => hl.stops hlexeme hstops
    exact ⟨g, hfollowed.written.append (hl.written _), hsame⟩
  · obtain ⟨c, tail, rfl, -⟩ := hf.head
    exact hstops

/-- Adding layout before or after an item, at whatever depth, does not change what is read. -/
theorem read_layout {pre post layout : List Char} (h : Form.read (pre ++ post) = .ok fs)
    (hf : f.Within fs) (hcut : byteLength pre = f.extent.start ∨ byteLength pre = f.extent.stop)
    (hl : IsLayout layout post) :
    ∃ gs, Form.read (pre ++ (layout ++ post)) = .ok gs ∧ gs.map spelling = fs.map spelling := by
  obtain ⟨before, mid, after, htext, hform, hreplace⟩ := (read_eq_ok.mp h).focus hf
  rw [List.append_nil] at hform hreplace
  rw [hform.extent, Nat.zero_add] at hcut
  rcases hcut with hstart | hstop
  · obtain ⟨rfl, rfl⟩ := Text.append_inj_of_byteLength htext hstart
    obtain ⟨gs, hgs, hsame⟩ := hreplace (layout ++ mid) (.before hform hl)
    rw [List.append_assoc] at hgs
    rw [spellings_eq_map, spellings_eq_map] at hsame
    exact ⟨gs, read_eq_ok.mpr hgs, hsame⟩
  · rw [← List.append_assoc] at htext
    obtain ⟨rfl, rfl⟩ := Text.append_inj_of_byteLength htext (by rw [hstop, byteLength_append])
    obtain ⟨gs, hgs, hsame⟩ := hreplace (mid ++ layout) (.after hform hl)
    rw [List.append_assoc, ← List.append_assoc] at hgs
    rw [spellings_eq_map, spellings_eq_map] at hsame
    exact ⟨gs, read_eq_ok.mpr hgs, hsame⟩

end

/-- A text is read as exactly those forms that it is written with, and layout can be added before or
after each of them, at whatever depth, without a change in what is read. -/
theorem read_eq_ok_iff_written (text : List Char) (fs : List Form) :
    (Form.read text = .ok fs ↔ Written 0 text [] fs) ∧
      ∀ (pre post layout : List Char) (f : Form), text = pre ++ post → Form.read text = .ok fs →
        f.Within fs → (byteLength pre = f.extent.start ∨ byteLength pre = f.extent.stop) →
        IsLayout layout post →
        ∃ gs, Form.read (pre ++ (layout ++ post)) = .ok gs ∧
          gs.map spelling = fs.map spelling := by
  refine ⟨read_eq_ok, ?_⟩
  rintro pre post layout f rfl h hf hcut hl
  exact read_layout h hf hcut hl

/-- A comment goes before the closing parenthesis of `((a|b c|)"")`. -/
theorem read_eq_ok_iff_written_comment :
    Form.read "((a|b c|)\"\")".toList = .ok
      [.list ⟨0, 12⟩ [.list ⟨1, 9⟩ [.atom ⟨2, 3⟩ (.symbol "a"), .atom ⟨3, 8⟩ (.symbol "b c")],
        .atom ⟨9, 11⟩ (.string "")]] ∧
    ∃ gs, Form.read "((a|b c| ;)\n)\"\")".toList = .ok gs ∧ gs.map spelling =
      [.group [.group [.token (.symbol "a"), .token (.symbol "b c")], .token (.string "")]] := by
  have hread : Form.read "((a|b c|)\"\")".toList = .ok
      [.list ⟨0, 12⟩ [.list ⟨1, 9⟩ [.atom ⟨2, 3⟩ (.symbol "a"), .atom ⟨3, 8⟩ (.symbol "b c")],
        .atom ⟨9, 11⟩ (.string "")]] := by
    rfl
  have hlayout : IsLayout " ;)\n".toList ")\"\")".toList := by
    refine .blank rfl (@Written.comment _ [')'] _ _ _ (by decide) ?_ (.blank rfl .nil))
    exact stops_cons.mpr rfl
  have htext : "((a|b c|)\"\")".toList = "((a|b c|".toList ++ ")\"\")".toList := by decide
  have hnew : "((a|b c| ;)\n)\"\")".toList =
      "((a|b c|".toList ++ (" ;)\n".toList ++ ")\"\")".toList) := by
    decide
  rw [hnew]
  exact ⟨hread, (read_eq_ok_iff_written _ _).2 _ _ _ (.atom ⟨3, 8⟩ (.symbol "b c")) htext hread
    (.inner (.inner (.tail .head))) (.inr (by decide)) hlayout⟩

/-- The closing bar of a symbol ends it, even if a symbol character follows. -/
theorem not_stops_after_symbol : ¬ ∀ text fs, Form.read text = .ok fs →
    ∀ e s, .atom e (.symbol s) ∈ fs → ∀ before c after, text = before ++ c :: after →
      byteLength before = e.stop → isSymbolChar c = false := by
  intro h
  have hread : Form.read "|a|b".toList =
      .ok [.atom ⟨0, 3⟩ (.symbol "a"), .atom ⟨3, 4⟩ (.symbol "b")] := by
    rfl
  have hnext := h _ _ hread ⟨0, 3⟩ "a" List.mem_cons_self "|a|".toList 'b' [] rfl rfl
  revert hnext
  decide

end WellSorted
