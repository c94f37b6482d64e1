import WellSorted.Proofs.Rebuilding.Terms

/-!
# Building commands again

`Command.Takes c fs`: the forms `fs` after its name make up the command `c`. A level that is left
out is the only thing that is written out when a command is spelled: `(push)` is spelled `(push 1)`.
Everything else that a command takes it takes again from its own spelling.
-/

namespace WellSorted

theorem ConstructorDec.rereads (f : Form) :
    Rereads (Built ConstructorDec.ofForm) ConstructorDec.spelling f := by
  intro c hc
  unfold Built ConstructorDec.ofForm at hc
  split at hc
  · next e name selectors =>
    simp only [Build.bind_eq_ok, Build.pure_eq_ok] at hc
    obtain ⟨x, hx, vs, hvs, rfl⟩ := hc
    refine ((rereads_symbol name x hx).cons
      (rereadsAll_mapM (fun f _ => SortedVar.rereads f) vs hvs)).group.imp ?_
    rintro _ ⟨e', _, rfl, g, gs, rfl, hg, hgs⟩
    simp only [Built, ConstructorDec.ofForm, Build.bind_eq_ok, Build.pure_eq_ok]
    exact ⟨x, hg, vs, hgs, rfl⟩
  · cases hc

theorem DatatypeDec.ofConstructors_eq_ok {binder : Option (List String)} {f : Form}
    {d : DatatypeDec} :
    DatatypeDec.ofConstructors binder f = .ok d ↔
      d.binder = binder ∧ (f.items >>= (·.mapM ConstructorDec.ofForm)) = .ok d.constructors := by
  simp only [DatatypeDec.ofConstructors, Build.bind_eq_ok, Build.pure_eq_ok]
  constructor
  · rintro ⟨fs, hfs, cs, hcs, rfl⟩
    exact ⟨rfl, fs, hfs, hcs⟩
  · rintro ⟨rfl, fs, hfs, hcs⟩
    exact ⟨fs, hfs, d.constructors, hcs, rfl⟩

theorem DatatypeDec.rereads (f : Form) :
    Rereads (Built DatatypeDec.ofForm) DatatypeDec.spelling f := by
  rintro ⟨binder, cs⟩ hd
  have hconstructors : ∀ f, Rereads (Built fun f => f.items >>= (·.mapM ConstructorDec.ofForm))
      (fun cs => .group (cs.map ConstructorDec.spelling)) f :=
    fun f => rereads_items fun g _ => ConstructorDec.rereads g
  unfold Built DatatypeDec.ofForm at hd
  split at hd
  · next tail hheaded =>
    split at hd
    · next params constructors =>
      simp only [Build.bind_eq_ok, DatatypeDec.ofConstructors_eq_ok] at hd
      obtain ⟨xs, hxs, rfl, hcs⟩ := hd
      obtain ⟨e, e₁, rfl⟩ := Form.headed?_eq_some.mp hheaded
      refine reread_wordPair (by decide) (rereads_symbols params xs hxs)
        (hconstructors constructors cs (Build.bind_eq_ok.mpr hcs)) fun e' e₀ g₁ g₂ h₁ h₂ => ?_
      simp only [Built, DatatypeDec.ofForm, Form.headed?, Form.symbol?, Option.map_some,
        Build.bind_eq_ok, DatatypeDec.ofConstructors_eq_ok]
      exact ⟨xs, h₁, rfl, Build.bind_eq_ok.mp h₂⟩
    · cases hd
  · next hpar =>
    obtain ⟨rfl, hcs⟩ := DatatypeDec.ofConstructors_eq_ok.mp hd
    refine (hconstructors f cs hcs).sameHeadSymbol.imp ?_
    rintro g ⟨hg, hhead⟩
    unfold Built DatatypeDec.ofForm
    split
    · next tail hheaded =>
      rw [Form.headSymbol?, hheaded, Form.headSymbol?, Option.map_some, eq_comm,
        Option.map_eq_some_iff] at hhead
      obtain ⟨⟨_, tail'⟩, hheaded', rfl⟩ := hhead
      exact absurd hheaded' (hpar tail')
    · exact DatatypeDec.ofConstructors_eq_ok.mpr ⟨rfl, hg⟩

theorem SortDec.rereads (f : Form) : Rereads (Built SortDec.ofForm) SortDec.spelling f := by
  intro d hd
  unfold Built SortDec.ofForm at hd
  split at hd
  · next e name arity =>
    simp only [Build.bind_eq_ok, Build.pure_eq_ok] at hd
    obtain ⟨x, hx, n, hn, rfl⟩ := hd
    refine reread_pair (rereads_symbol name x hx) (rereads_numeral arity n hn)
      fun e' g₁ g₂ h₁ h₂ => ?_
    simp only [Built, SortDec.ofForm, Build.bind_eq_ok, Build.pure_eq_ok]
    exact ⟨x, h₁, n, h₂, rfl⟩
  · cases hd

theorem FunctionDec.rereadsAll {f g h : Form} {d : FunctionDec}
    (hd : FunctionDec.ofItems f g h = .ok d) :
    RereadAll (fun gs => ∃ g₁ g₂ g₃, gs = [g₁, g₂, g₃] ∧ FunctionDec.ofItems g₁ g₂ g₃ = .ok d)
      d.spellings [f, g, h] := by
  simp only [FunctionDec.ofItems, Build.bind_eq_ok, Build.pure_eq_ok] at hd ⊢
  obtain ⟨x, hx, vs, hvs, s, hs, rfl⟩ := hd
  have hvars := rereads_items (f := g) (fun g _ => SortedVar.rereads g) vs hvs
  refine ((rereads_symbol f x hx).three hvars (SmtSort.rereads h s hs)).imp ?_
  rintro _ ⟨g₁, g₂, g₃, rfl, h₁, h₂, h₃⟩
  exact ⟨g₁, g₂, g₃, rfl, x, h₁, vs, h₂, s, h₃, rfl⟩

theorem FunctionDec.rereads (f : Form) :
    Rereads (Built FunctionDec.ofForm) FunctionDec.spelling f := by
  intro d hd
  unfold Built FunctionDec.ofForm at hd
  split at hd
  · refine (FunctionDec.rereadsAll hd).group.imp ?_
    rintro _ ⟨e', _, rfl, g₁, g₂, g₃, rfl, hg⟩
    exact hg
  · cases hd

theorem PlainCommand.name_of_ofName? {s : String} {c : PlainCommand}
    (h : PlainCommand.ofName? s = some c) : c.name = s := by
  simpa using List.find?_some h

namespace Command

/-- Whether a command is what its name makes of the forms that follow. -/
def Takes (fs : List Form) : Command → Prop
  | assert t => ∃ f, fs = [f] ∧ Term.ofForm f = .ok t
  | checkSatAssuming ts => ∃ f, fs = [f] ∧ Term.listOfForm f = .ok ts
  | declareConst name sort =>
    ∃ f g, fs = [f, g] ∧ f.symbol = .ok name ∧ SmtSort.ofForm g = .ok sort
  | declareDatatype name dec =>
    ∃ f g, fs = [f, g] ∧ f.symbol = .ok name ∧ DatatypeDec.ofForm g = .ok dec
  | declareDatatypes sorts decs =>
    ∃ f g, fs = [f, g] ∧ (f.items >>= (·.mapM SortDec.ofForm)) = .ok sorts ∧
      (g.items >>= (·.mapM DatatypeDec.ofForm)) = .ok decs
  | declareFun name args result =>
    ∃ f g h, fs = [f, g, h] ∧ f.symbol = .ok name ∧ (g.items >>= SmtSort.ofForms) = .ok args ∧
      SmtSort.ofForm h = .ok result
  | declareSort name arity =>
    ∃ f g, fs = [f, g] ∧ f.symbol = .ok name ∧ g.numeral = .ok arity
  | defineConst name sort body =>
    ∃ f g h, fs = [f, g, h] ∧ f.symbol = .ok name ∧ SmtSort.ofForm g = .ok sort ∧
      Term.ofForm h = .ok body
  | defineFun dec body | defineFunRec dec body =>
    ∃ f g h k, fs = [f, g, h, k] ∧ FunctionDec.ofItems f g h = .ok dec ∧ Term.ofForm k = .ok body
  | defineFunsRec decs bodies =>
    ∃ f g, fs = [f, g] ∧ (f.items >>= (·.mapM FunctionDec.ofForm)) = .ok decs ∧
      Term.listOfForm g = .ok bodies
  | defineSort name params sort =>
    ∃ f g h, fs = [f, g, h] ∧ f.symbol = .ok name ∧ g.symbols = .ok params ∧
      SmtSort.ofForm h = .ok sort
  | echo s => ∃ f, fs = [f] ∧ f.string = .ok s
  | getInfo keyword | getOption keyword => ∃ f, fs = [f] ∧ f.keyword = .ok keyword
  | getValue ts => ∃ f, fs = [f] ∧ Term.listOfForm f = .ok ts
  | pop n | push n => (fs = [] ∧ n = 1) ∨ ∃ f, fs = [f] ∧ f.numeral = .ok n
  | reset | plain _ => fs = []
  | setInfo a | setOption a => CoversBuilt AttributeForms.toAttribute fs [a]
  | setLogic name => ∃ f, fs = [f] ∧ f.symbol = .ok name

theorem levels_eq_ok {f : Form} {head : String} {fs : List Form} {n : Nat} :
    levels f head fs = .ok n ↔ (fs = [] ∧ n = 1) ∨ ∃ f, fs = [f] ∧ f.numeral = .ok n := by
  match fs with
  | [] => simp [levels, eq_comm]
  | [g] => simp [levels]
  | _ :: _ :: _ => simp [levels, Form.fail]

theorem takes_of_ofHeaded {f : Form} {head : String} {tail : List Form} {c : Command}
    (h : ofHeaded f head tail = .ok c) : c.name = head ∧ c.Takes tail := by
  unfold ofHeaded at h
  split at h <;> dsimp only at h
  -- `pop` and `push`
  case h_17 | h_18 =>
    simp only [Build.bind_eq_ok, Build.pure_eq_ok, levels_eq_ok] at h
    obtain ⟨n, hn, rfl⟩ := h
    exact ⟨rfl, hn⟩
  -- `set-info` and `set-option`
  case h_20 | h_22 =>
    simp only [Build.bind_eq_ok, Build.pure_eq_ok, Attribute.single_eq_ok] at h
    obtain ⟨a, ha, rfl⟩ := h
    exact ⟨rfl, ha⟩
  -- `reset`
  case h_19 =>
    split at h
    · next hnil =>
      cases h
      exact ⟨rfl, List.isEmpty_iff.mp hnil⟩
    · cases h
  case h_23 =>
    split at h
    · next c' hname =>
      split at h
      · next hnil =>
        cases h
        exact ⟨PlainCommand.name_of_ofName? hname, List.isEmpty_iff.mp hnil⟩
      · cases h
    · cases h
  -- `declare-datatypes`
  case h_5 =>
    split at h
    · simp only [Build.bind_eq_ok, Build.pure_eq_ok] at h
      obtain ⟨fs, hfs, _, h₁, gs, hgs, _, h₂, rfl⟩ := h
      exact ⟨rfl, _, _, rfl, Build.bind_eq_ok.mpr ⟨fs, hfs, h₁⟩, Build.bind_eq_ok.mpr ⟨gs, hgs, h₂⟩⟩
    · cases h
  -- `declare-fun`
  case h_6 =>
    split at h
    · simp only [Build.bind_eq_ok, Build.pure_eq_ok] at h
      obtain ⟨_, h₁, gs, hgs, _, h₂, _, h₃, rfl⟩ := h
      exact ⟨rfl, _, _, _, rfl, h₁, Build.bind_eq_ok.mpr ⟨gs, hgs, h₂⟩, h₃⟩
    · cases h
  -- `define-funs-rec`
  case h_11 =>
    split at h
    · simp only [Build.bind_eq_ok, Build.pure_eq_ok] at h
      obtain ⟨fs, hfs, _, h₁, _, h₂, rfl⟩ := h
      exact ⟨rfl, _, _, rfl, Build.bind_eq_ok.mpr ⟨fs, hfs, h₁⟩, h₂⟩
    · cases h
  -- The others count their arguments, of which there are one to four.
  all_goals
    split at h
    · simp only [Build.bind_eq_ok, Build.pure_eq_ok] at h
      first
        | (obtain ⟨_, h₁, rfl⟩ := h; exact ⟨rfl, _, rfl, h₁⟩)
        | (obtain ⟨_, h₁, _, h₂, rfl⟩ := h; exact ⟨rfl, _, _, rfl, h₁, h₂⟩)
        | (obtain ⟨_, h₁, _, h₂, rfl⟩ := h; exact ⟨rfl, _, _, _, _, rfl, h₁, h₂⟩)
        | (obtain ⟨_, h₁, _, h₂, _, h₃, rfl⟩ := h; exact ⟨rfl, _, _, _, rfl, h₁, h₂, h₃⟩)
    · cases h

theorem ofHeaded_of_takes {f : Form} {tail : List Form} {c : Command} (h : c.Takes tail) :
    ofHeaded f c.name tail = .ok c := by
  cases c with
  | assert | checkSatAssuming | echo | getInfo | getOption | getValue | setLogic =>
    obtain ⟨g, rfl, hg⟩ := h
    exact Build.bind_eq_ok.mpr ⟨_, hg, rfl⟩
  | declareConst | declareDatatype | declareSort =>
    obtain ⟨g₁, g₂, rfl, h₁, h₂⟩ := h
    exact Build.bind_eq_ok.mpr ⟨_, h₁, Build.bind_eq_ok.mpr ⟨_, h₂, rfl⟩⟩
  | declareDatatypes =>
    obtain ⟨g₁, g₂, rfl, h₁, h₂⟩ := h
    obtain ⟨fs, hfs, h₁⟩ := Build.bind_eq_ok.mp h₁
    obtain ⟨gs, hgs, h₂⟩ := Build.bind_eq_ok.mp h₂
    refine Build.bind_eq_ok.mpr ⟨fs, hfs, Build.bind_eq_ok.mpr ⟨_, h₁, ?_⟩⟩
    exact Build.bind_eq_ok.mpr ⟨gs, hgs, Build.bind_eq_ok.mpr ⟨_, h₂, rfl⟩⟩
  | declareFun =>
    obtain ⟨g₁, g₂, g₃, rfl, h₁, h₂, h₃⟩ := h
    obtain ⟨gs, hgs, h₂⟩ := Build.bind_eq_ok.mp h₂
    refine Build.bind_eq_ok.mpr ⟨_, h₁, Build.bind_eq_ok.mpr ⟨gs, hgs, ?_⟩⟩
    exact Build.bind_eq_ok.mpr ⟨_, h₂, Build.bind_eq_ok.mpr ⟨_, h₃, rfl⟩⟩
  | defineConst | defineSort =>
    obtain ⟨g₁, g₂, g₃, rfl, h₁, h₂, h₃⟩ := h
    refine Build.bind_eq_ok.mpr ⟨_, h₁, ?_⟩
    exact Build.bind_eq_ok.mpr ⟨_, h₂, Build.bind_eq_ok.mpr ⟨_, h₃, rfl⟩⟩
  | defineFun | defineFunRec =>
    obtain ⟨g₁, g₂, g₃, g₄, rfl, h₁, h₂⟩ := h
    exact Build.bind_eq_ok.mpr ⟨_, h₁, Build.bind_eq_ok.mpr ⟨_, h₂, rfl⟩⟩
  | defineFunsRec =>
    obtain ⟨g₁, g₂, rfl, h₁, h₂⟩ := h
    obtain ⟨fs, hfs, h₁⟩ := Build.bind_eq_ok.mp h₁
    refine Build.bind_eq_ok.mpr ⟨fs, hfs, ?_⟩
    exact Build.bind_eq_ok.mpr ⟨_, h₁, Build.bind_eq_ok.mpr ⟨_, h₂, rfl⟩⟩
  | pop | push => exact Build.bind_eq_ok.mpr ⟨_, levels_eq_ok.mpr h, rfl⟩
  | setInfo | setOption => exact Build.bind_eq_ok.mpr ⟨_, Attribute.single_eq_ok.mpr h, rfl⟩
  | reset =>
    cases h
    rfl
  | plain c =>
    cases h
    cases c <;> rfl

/-- What a command takes, it takes again from its spelling, unless its level was left out. -/
theorem rereadAll_arguments {fs : List Form} {c : Command} (h : c.Takes fs) :
    RereadAll c.Takes c.arguments fs ∨ fs = [] ∧ (c = pop 1 ∨ c = push 1) := by
  cases c with
  | pop =>
    rcases h with ⟨rfl, rfl⟩ | ⟨f, rfl, hf⟩
    · exact .inr ⟨rfl, .inl rfl⟩
    · exact .inl ((rereads_numeral f _ hf).one.imp fun _ => .inr)
  | push =>
    rcases h with ⟨rfl, rfl⟩ | ⟨f, rfl, hf⟩
    · exact .inr ⟨rfl, .inr rfl⟩
    · exact .inl ((rereads_numeral f _ hf).one.imp fun _ => .inr)
  | assert t =>
    obtain ⟨f, rfl, hf⟩ := h
    exact .inl (Term.rereads f _ hf).one
  | checkSatAssuming | getValue =>
    obtain ⟨f, rfl, hf⟩ := h
    exact .inl (Term.rereads_listOfForm f _ hf).one
  | declareConst =>
    obtain ⟨f, g, rfl, hf, hg⟩ := h
    exact .inl ((rereads_symbol f _ hf).two (SmtSort.rereads g _ hg))
  | declareDatatype =>
    obtain ⟨f, g, rfl, hf, hg⟩ := h
    exact .inl ((rereads_symbol f _ hf).two (DatatypeDec.rereads g _ hg))
  | declareDatatypes =>
    obtain ⟨f, g, rfl, hf, hg⟩ := h
    exact .inl ((rereads_items (fun g _ => SortDec.rereads g) _ hf).two
      (rereads_items (fun g _ => DatatypeDec.rereads g) _ hg))
  | declareFun =>
    obtain ⟨f, g, k, rfl, hf, hg, hk⟩ := h
    exact .inl ((rereads_symbol f _ hf).three (SmtSort.rereads_items g _ hg)
      (SmtSort.rereads k _ hk))
  | declareSort =>
    obtain ⟨f, g, rfl, hf, hg⟩ := h
    exact .inl ((rereads_symbol f _ hf).two (rereads_numeral g _ hg))
  | defineConst =>
    obtain ⟨f, g, k, rfl, hf, hg, hk⟩ := h
    exact .inl ((rereads_symbol f _ hf).three (SmtSort.rereads g _ hg) (Term.rereads k _ hk))
  | defineFun | defineFunRec =>
    obtain ⟨f, g, k, t, rfl, hd, ht⟩ := h
    refine .inl (((FunctionDec.rereadsAll hd).append (Term.rereads t _ ht).one).imp ?_)
    rintro _ ⟨_, _, rfl, ⟨g₁, g₂, g₃, rfl, h₁⟩, g₄, rfl, h₂⟩
    exact ⟨g₁, g₂, g₃, g₄, rfl, h₁, h₂⟩
  | defineFunsRec =>
    obtain ⟨f, g, rfl, hf, hg⟩ := h
    exact .inl ((rereads_items (fun g _ => FunctionDec.rereads g) _ hf).two
      (Term.rereads_listOfForm g _ hg))
  | defineSort =>
    obtain ⟨f, g, k, rfl, hf, hg, hk⟩ := h
    exact .inl ((rereads_symbol f _ hf).three (rereads_symbols g _ hg) (SmtSort.rereads k _ hk))
  | echo =>
    obtain ⟨f, rfl, hf⟩ := h
    exact .inl (rereads_string f _ hf).one
  | getInfo | getOption =>
    obtain ⟨f, rfl, hf⟩ := h
    exact .inl (rereads_keyword f _ hf).one
  | setLogic =>
    obtain ⟨f, rfl, hf⟩ := h
    exact .inl (rereads_symbol f _ hf).one
  | setInfo | setOption =>
    have hattribute := rereadsAll_covers toAttribute_rereads fs _ h
    simp only [List.flatMap_singleton] at hattribute
    exact .inl hattribute
  | reset | plain =>
    cases h
    exact .inl .nil

/-- What a command takes, with its level written out, it takes again from its spelling. -/
theorem reread_arguments {fs : List Form} {c : Command} (h : c.Takes fs) :
    ∃ fs', (Form.AllLegible fs → Form.AllLegible fs') ∧ RereadAll c.Takes c.arguments fs' := by
  rcases rereadAll_arguments h with hfs | ⟨rfl, hlevel⟩
  · exact ⟨fs, id, hfs⟩
  · let one : Form := .atom ⟨0, 0⟩ (.numeral 1)
    have hone := (rereads_numeral one 1 rfl).one
    refine ⟨[one], fun _ => ⟨trivial, trivial⟩, ?_⟩
    rcases hlevel with rfl | rfl <;> exact hone.imp fun _ => .inr

theorem ofForm_eq_ok {f : Form} {c : Command} : ofForm f = .ok c ↔
    ∃ e e' tail, f = .list e (.atom e' (.symbol c.name) :: tail) ∧ c.Takes tail := by
  constructor
  · intro h
    unfold ofForm at h
    split at h
    · next head tail hheaded =>
      obtain ⟨e, e', rfl⟩ := Form.headed?_eq_some.mp hheaded
      obtain ⟨rfl, htakes⟩ := takes_of_ofHeaded h
      exact ⟨e, e', tail, rfl, htakes⟩
    · cases h
  · rintro ⟨e, e', tail, rfl, htakes⟩
    exact ofHeaded_of_takes htakes

theorem legible_name (c : Command) : isSimpleSymbol c.name = true := by
  cases c with
  | plain c => cases c <;> decide
  | _ =>
    rw [name]
    decide

/-- The written form of a command is reread, although it need not be the form it was built from. -/
theorem exists_reread {f : Form} {c : Command} (h : ofForm f = .ok c) :
    ∃ f', (f.Legible → f'.Legible) ∧ Reread (ofForm · = .ok c) c.spelling f' := by
  obtain ⟨e, e', tail, rfl, htakes⟩ := ofForm_eq_ok.mp h
  obtain ⟨tail', hlegible, htail⟩ := reread_arguments htakes
  refine ⟨.list e (.atom e' (.symbol c.name) :: tail'), fun hl => ⟨hl.1, hlegible hl.2⟩, ?_⟩
  refine ((reread_word c.legible_name).cons htail).group.imp ?_
  rintro _ ⟨e, _, rfl, _, gs, rfl, ⟨e', rfl⟩, hgs⟩
  exact ofForm_eq_ok.mpr ⟨e, e', gs, rfl, hgs⟩

end Command

end WellSorted
