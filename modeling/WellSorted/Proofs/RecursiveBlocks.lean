import WellSorted.Proofs.Aliases
import WellSorted.Proofs.DeclarationOrder
import WellSorted.Proofs.Lookups
import WellSorted.Proofs.Resetting

/-!
# Functions that are defined together

Recursive functions can be defined in one block or one after another. In a block all of them are
announced before any body is sorted, and the bodies see all of them; one after another, each is
entered before the next one is looked at. If the names are distinct and no body mentions another
function of the block, this makes no difference (`Check.defineFunsRec_eq_oneByOne`): sorting a term
looks only for functions that it mentions (`Term.mentions_of_lookup`), so that each definition finds
what it would find in the stack before the block (`Definition.of_sameBut`).
-/

namespace WellSorted

open Likeness (anywhere)

/-! ### Symbols that a term mentions -/

namespace Term

mutual

/-- The identifiers that a term uses, with those of its patterns. -/
def identifiers : Term → List Identifier
  | constant _ => []
  | ident q => [q.name]
  | app q args => q.name :: allIdentifiers args
  | letIn bindings body => bindingIdentifiers bindings ++ body.identifiers
  | quantified _ _ body => body.identifiers
  | matching scrutinee arms => scrutinee.identifiers ++ armIdentifiers arms
  | annotated t _ => t.identifiers

def allIdentifiers : List Term → List Identifier
  | [] => []
  | t :: rest => t.identifiers ++ allIdentifiers rest

def bindingIdentifiers : List (String × Term) → List Identifier
  | [] => []
  | (_, t) :: rest => t.identifiers ++ bindingIdentifiers rest

def armIdentifiers : List (Pattern × Term) → List Identifier
  | [] => []
  | (p, t) :: rest => .simple p.head :: t.identifiers ++ armIdentifiers rest

end

/-- Whether a term uses a symbol as a variable, a function or a constructor. -/
def Mentions (t : Term) (name : String) : Prop := .simple name ∈ t.identifiers

instance (t : Term) (name : String) : Decidable (t.Mentions name) :=
  inferInstanceAs (Decidable (_ ∈ _))

end Term

/-- What is neither a plain symbol nor starts with a bar is not the way a symbol is written. -/
theorem ne_quoteSymbol (word : String) (hplain : isPlainSymbol word = false)
    (hbar : word.toList.head? ≠ some '|') (name : String) : word ≠ quoteSymbol name := by
  rintro rfl
  by_cases hname : isPlainSymbol name = true
  · rw [quoteSymbol_of_isPlainSymbol hname, hname] at hplain
    cases hplain
  · have hquoted : quoteSymbol name = "|" ++ name ++ "|" := if_neg hname
    rw [hquoted, String.toList_append, String.toList_append] at hbar
    exact hbar rfl

theorem Constant.kind_ne_quoteSymbol (c : Constant) (name : String) :
    c.kind ≠ quoteSymbol name := by
  have hhash {word : String} {cs : List Char} (h : word.toList = '#' :: cs) :
      word ≠ quoteSymbol name := by
    refine ne_quoteSymbol word (Bool.eq_false_iff.mpr fun hplain => ?_) (by simp [h]) name
    exact absurd (isSymbolChar_of_isPlainSymbol hplain h) (by decide)
  cases c with
  | numeral n => exact ne_quoteSymbol "NUMERAL" (by decide +kernel) (by decide) name
  | decimal d => exact ne_quoteSymbol "DECIMAL" (by decide +kernel) (by decide) name
  | string s => exact ne_quoteSymbol "STRING" (by decide +kernel) (by decide) name
  | binary digits => exact hhash String.toList_ofList
  | hexadecimal digits => exact hhash String.toList_ofList

theorem QualIdentifier.mem_lookups {q : QualIdentifier} {key : String}
    (h : .overloads key ∈ q.lookups) : key = q.name.key := by
  obtain ⟨name, ascription⟩ := q
  cases ascription with
  | none => simpa [lookups, SmtSort.lookups?] using h
  | some sort => simpa [lookups, SmtSort.lookups?] using h

theorem Pattern.mem_lookups {p : Pattern} {key : String} (h : .overloads key ∈ p.lookups) :
    key = quoteSymbol p.head := by
  cases hsort : p.sort? with
  | none => simpa [lookups, hsort, SmtSort.lookups?] using h
  | some sort => simpa [lookups, hsort, SmtSort.lookups?] using h

namespace Term

variable {name : String}

mutual

/-- Functions of a name are looked for only if it is mentioned. -/
theorem mentions_of_lookup : ∀ {t : Term}, .overloads (quoteSymbol name) ∈ t.lookups →
    t.Mentions name
  | constant c, h => by
    rw [lookups, List.mem_singleton, Lookup.overloads.injEq] at h
    exact absurd h.symm (c.kind_ne_quoteSymbol name)
  | ident q, h => by
    have hq : .overloads (quoteSymbol name) ∈ q.lookups := by
      refine (List.mem_append.mp h).resolve_left fun h => ?_
      rw [QualIdentifier.varLookups] at h
      split at h <;> simp at h
    have hkey := Identifier.key_eq_quoteSymbol.mp (QualIdentifier.mem_lookups hq).symm
    exact List.mem_singleton.mpr hkey.symm
  | app q args, h => by
    rcases List.mem_append.mp h with h | h
    · have hkey := Identifier.key_eq_quoteSymbol.mp (QualIdentifier.mem_lookups h).symm
      exact List.mem_cons.mpr (.inl hkey.symm)
    · exact List.mem_cons_of_mem _ (mem_allIdentifiers_of_lookup h)
  | letIn bindings body, h => by
    rcases List.mem_append.mp h with h | h
    · exact List.mem_append_left _ (mem_bindingIdentifiers_of_lookup h)
    · exact List.mem_append_right _ (mentions_of_lookup h)
  | quantified _ vars body, h => by
    refine mentions_of_lookup (t := body) ((List.mem_append.mp h).resolve_left fun h => ?_)
    simp at h
  | matching scrutinee arms, h => by
    rcases List.mem_append.mp h with h | h
    · exact List.mem_append_left _ (mentions_of_lookup h)
    · exact List.mem_append_right _ (mem_armIdentifiers_of_lookup h)
  | annotated t _, h => mentions_of_lookup (t := t) h

theorem mem_allIdentifiers_of_lookup : ∀ {ts : List Term},
    .overloads (quoteSymbol name) ∈ allLookups ts → .simple name ∈ allIdentifiers ts
  | [], h => by cases h
  | t :: ts, h => by
    rcases List.mem_append.mp h with h | h
    · exact List.mem_append_left _ (mentions_of_lookup h)
    · exact List.mem_append_right _ (mem_allIdentifiers_of_lookup h)

theorem mem_bindingIdentifiers_of_lookup : ∀ {bindings : List (String × Term)},
    .overloads (quoteSymbol name) ∈ bindingLookups bindings →
      .simple name ∈ bindingIdentifiers bindings
  | [], h => by cases h
  | (_, t) :: bindings, h => by
    rcases List.mem_append.mp h with h | h
    · exact List.mem_append_left _ (mentions_of_lookup h)
    · exact List.mem_append_right _ (mem_bindingIdentifiers_of_lookup h)

theorem mem_armIdentifiers_of_lookup : ∀ {arms : List (Pattern × Term)},
    .overloads (quoteSymbol name) ∈ armLookups arms → .simple name ∈ armIdentifiers arms
  | [], h => by cases h
  | (p, t) :: arms, h => by
    rw [armIdentifiers]
    rcases List.mem_append.mp h with h | h
    · rcases List.mem_append.mp h with h | h
      · rw [quoteSymbol_injective (Pattern.mem_lookups h)]
        exact List.mem_cons_self
      · exact List.mem_append_left _ (List.mem_cons_of_mem _ (mentions_of_lookup h))
    · exact List.mem_append_right _ (mem_armIdentifiers_of_lookup h)

end

end Term

/-! ### Further functions -/

namespace Stack

/-- Two stacks that differ at most in functions of the given names. -/
structure SameBut (names : List String) (G H : Stack) : Prop where
  sort? : ∀ key, G.sort? key = H.sort? key
  var? : ∀ key, G.var? key = H.var? key
  allOverloads : ∀ key, key ∉ names → G.allOverloads key = H.allOverloads key

variable {names : List String} {G H K : Stack} {f : FunDecl}

theorem SameBut.refl (names : List String) (G : Stack) : G.SameBut names G :=
  ⟨fun _ => rfl, fun _ => rfl, fun _ _ => rfl⟩

theorem SameBut.trans (h : G.SameBut names H) (h' : H.SameBut names K) : G.SameBut names K where
  sort? key := (h.sort? key).trans (h'.sort? key)
  var? key := (h.var? key).trans (h'.var? key)
  allOverloads key hkey := (h.allOverloads key hkey).trans (h'.allOverloads key hkey)

theorem SameBut.mono (h : G.SameBut names H) {names' : List String}
    (hnames : ∀ key ∈ names, key ∈ names') : G.SameBut names' H :=
  ⟨h.sort?, h.var?, fun key hkey => h.allOverloads key fun hmem => hkey (hnames key hmem)⟩

theorem allOverloads_push (G : Stack) (name : String) :
    G.push.allOverloads name = G.allOverloads name := by
  simp [allOverloads, Scope.overloads, Scope.empty]

theorem allOverloads_withFun (G : Stack) (f : FunDecl) (name : String) :
    (G.withFun f).allOverloads name =
      G.allOverloads name ++ if f.name = name then [f] else [] := by
  have htop : (G.withFun f).top.overloads name =
      G.top.overloads name ++ if f.name = name then [f] else [] := by
    by_cases hname : f.name = name <;> simp [withFun, Scope.put, Scope.overloads, hname]
  have hall (K : Stack) : K.allOverloads name =
      K.outer.reverse.flatMap (·.overloads name) ++ K.top.overloads name := by
    simp [allOverloads, scopes]
  rw [hall, hall, htop, List.append_assoc]
  rfl

theorem SameBut.push (h : G.SameBut names H) : G.push.SameBut names H.push where
  sort? key := h.sort? key
  var? key := h.var? key
  allOverloads key hkey := by rw [allOverloads_push, allOverloads_push, h.allOverloads key hkey]

theorem SameBut.withFun (h : G.SameBut names H) (f : FunDecl) :
    (G.withFun f).SameBut names (H.withFun f) where
  sort? := h.sort?
  var? := h.var?
  allOverloads key hkey := by
    rw [allOverloads_withFun, allOverloads_withFun, h.allOverloads key hkey]

theorem SameBut.conflict? (h : G.SameBut names H) (hf : f.name ∉ names) :
    G.conflict? (.function f) = H.conflict? (.function f) := by
  rw [Stack.conflict?, Stack.conflict?, h.allOverloads f.name hf]

/-- A function of one of the names is entered on one side only. -/
theorem sameBut_enter (hf : f.name ∈ names) : G.SameBut names (G.enter (.function f)).value := by
  cases hconflict : G.conflict? (.function f) with
  | some p =>
    rw [enter_of_conflict hconflict]
    exact .refl _ G
  | none =>
    rw [enter_of_no_conflict hconflict]
    refine ⟨fun _ => rfl, fun _ => rfl, fun key hkey => ?_⟩
    have hne : f.name ≠ key := fun hname => hkey (hname ▸ hf)
    show G.allOverloads key = (G.withFun f).allOverloads key
    rw [allOverloads_withFun, if_neg hne, List.append_nil]

/-- A function of another name is entered on both sides, or on neither. -/
theorem SameBut.enter (h : G.SameBut names H) (hf : f.name ∉ names) :
    (G.enter (.function f)).value.SameBut names (H.enter (.function f)).value := by
  have hsame := h.conflict? hf
  cases hconflict : H.conflict? (.function f) with
  | some p =>
    rw [enter_of_conflict hconflict, enter_of_conflict (hsame.trans hconflict)]
    exact h
  | none =>
    rw [enter_of_no_conflict hconflict, enter_of_no_conflict (hsame.trans hconflict)]
    exact h.withFun f

theorem sameBut_enterAll {fs : List FunDecl} (hfs : ∀ f ∈ fs, f.name ∈ names) :
    G.SameBut names (G.enterAll (fs.map .function)).value := by
  induction fs generalizing G with
  | nil => exact .refl _ G
  | cons f fs ih =>
    obtain ⟨hf, hfs⟩ := List.forall_mem_cons.mp hfs
    exact (sameBut_enter hf).trans (ih hfs)

/-- The other functions of a block do not matter to one of them. -/
theorem sameBut_enterAll_of_mem {fs : List FunDecl} (hf : f ∈ fs) (hnodup : (fs.map (·.name)).Nodup)
    (hnot : f.name ∉ names) (hnames : ∀ g ∈ fs, g.name ≠ f.name → g.name ∈ names) :
    (G.enter (.function f)).value.SameBut names (G.enterAll (fs.map .function)).value := by
  induction fs generalizing G with
  | nil => cases hf
  | cons g fs ih =>
    obtain ⟨hg, hrest⟩ := List.forall_mem_cons.mp hnames
    obtain ⟨hnew, hnodup⟩ := List.nodup_cons.mp hnodup
    rcases List.mem_cons.mp hf with rfl | hf
    · refine sameBut_enterAll fun g hg => hrest g hg fun hname => hnew ?_
      exact List.mem_map.mpr ⟨g, hg, hname⟩
    · have hne : g.name ≠ f.name := fun hname => hnew (List.mem_map.mpr ⟨f, hf, hname.symm⟩)
      exact ((sameBut_enter (hg hne)).enter hnot).trans (ih hf hnodup hrest)

/-- What is asked about other functions is answered alike. -/
theorem SameBut.agreeOn (h : G.SameBut names H) {ls : List Lookup}
    (hls : ∀ name ∈ names, .overloads name ∉ ls) : AgreeOn ls G H := by
  intro l hl
  cases l with
  | sort key => exact h.sort? key
  | var key => exact congrArg _ (h.var? key)
  | overloads key =>
    have hkey : key ∉ names := fun hmem => hls key hmem hl
    rw [Lookup.Agrees, Stack.overloads, Stack.overloads, h.allOverloads key hkey]

end Stack

/-! ### Definitions -/

namespace Check

variable {names : List String} {G H : Stack}

theorem existing_of_sameBut (h : G.SameBut names H) {f : FunDecl} (hname : f.name ∉ names) :
    existing G f = existing H f := by
  rw [existing, existing, h.conflict? hname]

theorem announce_of_sameBut (h : G.SameBut names H) {dec : FunctionDec}
    (hname : quoteSymbol dec.name ∉ names) (n : Node) (t : Option Term) :
    announce G n dec t = announce H n dec t := by
  rw [announce, announce, function_congr h.sort?]
  simp only [function, bind_assoc, pure_bind]
  rw [existing_of_sameBut h]
  exact hname

theorem body_of_agreeOn {t : Term} (h : Stack.AgreeOn t.lookups G H) (f : FunDecl)
    (vars : List (Spot × SortedVar)) (s : Spot) : body G f vars s t = body H f vars s t := by
  refine Stack.bindVars_congr fun top => ?_
  rw [infer_of_agreeOn s t (h.cons_scope top)]

/-- A recursive function that is defined at a node, with the spots of its variables and its body. -/
structure Definition where
  node : Node
  dec : FunctionDec
  vars : List (Spot × SortedVar)
  spot : Spot
  body : Term
  vars_eq : vars.map (·.2) = dec.vars

namespace Definition

/-- The name under which the function is entered. -/
def key (d : Definition) : String := quoteSymbol d.dec.name

/-- What is written of a definition, wherever it stands. -/
def written (d : Definition) : FunctionDec × Term := (d.dec, d.body)

/-- The function of a definition, not yet entered. -/
def announced (G : Stack) (d : Definition) : Logged FunDecl := announce G d.node d.dec (some d.body)

def function (G : Stack) (d : Definition) : FunDecl := (d.announced G).value

/-- The body of a definition, which sees no further function than its own. -/
def sorted (G : Stack) (d : Definition) : Logged Unit :=
  Check.body (G.push.enter (.function (d.function G))).value (d.function G) d.vars d.spot d.body

def run (G : Stack) (d : Definition) : Logged Stack :=
  defineFun G d.node true d.dec d.vars d.spot d.body

theorem findings_run (G : Stack) (d : Definition) :
    (d.run G).findings = (d.announced G).findings ++ (d.sorted G).findings := by
  simp only [run, defineFun, Logged.findings_bind, if_true, Stack.findings_enter, List.nil_append,
    List.append_nil]
  rfl

theorem value_run (G : Stack) (d : Definition) :
    (d.run G).value = (G.enter (.function (d.function G))).value := rfl

/-- Functions of other names, which the body does not call, do not matter to a definition. -/
theorem of_sameBut {d : Definition} (h : G.SameBut names H) (hname : d.key ∉ names)
    (hcalls : ∀ name ∈ names, .overloads name ∉ d.body.lookups) :
    d.announced G = d.announced H ∧ d.sorted G = d.sorted H := by
  have hannounced : d.announced G = d.announced H := announce_of_sameBut h hname _ _
  have hfunction : d.function G = d.function H := congrArg Logged.value hannounced
  have hinner := h.push.enter (f := d.function H) hname
  refine ⟨hannounced, ?_⟩
  rw [sorted, sorted, hfunction]
  exact body_of_agreeOn (hinner.agreeOn hcalls) _ _ _

/-- No definition has the name of another one, or mentions it. -/
structure Apart (ds : List Definition) : Prop where
  names : (ds.map (·.dec.name)).Nodup
  mentions : ∀ d ∈ ds, ∀ e ∈ ds, d.body.Mentions e.dec.name → e.dec.name = d.dec.name

theorem Apart.keys {ds : List Definition} (h : Apart ds) : (ds.map key).Nodup := by
  have hmap : ds.map key = (ds.map (·.dec.name)).map quoteSymbol := by rw [List.map_map]; rfl
  rw [hmap]
  exact h.names.map quoteSymbol_injective

theorem Apart.not_mem_lookups {ds : List Definition} (h : Apart ds) {d e : Definition} (hd : d ∈ ds)
    (he : e ∈ ds) (hkey : e.key ≠ d.key) : .overloads e.key ∉ d.body.lookups := by
  intro hlookup
  have hname := h.mentions d hd e he (Term.mentions_of_lookup hlookup)
  exact hkey (congrArg quoteSymbol hname)

theorem Apart.tail {d : Definition} {ds : List Definition} (h : Apart (d :: ds)) : Apart ds where
  names := (List.nodup_cons.mp h.names).2
  mentions e he e' he' := h.mentions e (List.mem_cons_of_mem d he) e' (List.mem_cons_of_mem d he')

/-- What definitions enter, if all of them are announced in the given stack. -/
def entries (G : Stack) (ds : List Definition) : List Declaration :=
  (ds.map (function G)).map .function

/-! ### One after another -/

/-- Definitions that are apart find, one after another, what each of them finds at the start: the
names that were entered since are those of the earlier definitions. -/
theorem runs {ds : List Definition} (h : G.SameBut names H) (hds : Apart ds)
    (hnames : ∀ d ∈ ds, d.key ∉ names ∧ ∀ name ∈ names, .overloads name ∉ d.body.lookups) :
    (ds.foldlM run H).findings =
        ds.flatMap (fun d => (d.announced G).findings ++ (d.sorted G).findings) ∧
      (ds.foldlM run H).value = (H.enterAll (entries G ds)).value := by
  induction ds generalizing H names with
  | nil => exact ⟨rfl, rfl⟩
  | cons d ds ih =>
    obtain ⟨⟨hkey, hlookups⟩, hrest⟩ := List.forall_mem_cons.mp hnames
    obtain ⟨hannounced, hsorted⟩ := of_sameBut h hkey hlookups
    have hvalue : (d.run H).value = (H.enter (.function (d.function G))).value := by
      rw [value_run, function, function, hannounced]
    have hnext : G.SameBut (d.key :: names) (d.run H).value := by
      rw [hvalue]
      exact (h.mono fun key hmem => List.mem_cons_of_mem _ hmem).trans
        (Stack.sameBut_enter List.mem_cons_self)
    have hne (e : Definition) (he : e ∈ ds) : d.key ≠ e.key := fun heq =>
      (List.nodup_cons.mp hds.keys).1 (List.mem_map.mpr ⟨e, he, heq.symm⟩)
    obtain ⟨hfindings, hstack⟩ := ih hnext hds.tail fun e he => by
      obtain ⟨hekey, helookups⟩ := hrest e he
      refine ⟨List.not_mem_cons_of_ne_of_not_mem (hne e he).symm hekey, ?_⟩
      refine List.forall_mem_cons.mpr ⟨?_, helookups⟩
      exact hds.not_mem_lookups (List.mem_cons_of_mem d he) List.mem_cons_self (hne e he)
    rw [List.foldlM_cons, Logged.findings_bind, Logged.value_bind, hfindings, hstack, findings_run,
      ← hannounced, ← hsorted, hvalue]
    exact ⟨rfl, rfl⟩

theorem runs_self {ds : List Definition} (hds : Apart ds) (G : Stack) :
    (ds.foldlM run G).findings =
        ds.flatMap (fun d => (d.announced G).findings ++ (d.sorted G).findings) ∧
      (ds.foldlM run G).value = (G.enterAll (entries G ds)).value :=
  runs (.refl [] G) hds fun _ _ =>
    ⟨List.not_mem_nil, fun _ h => absurd h List.not_mem_nil⟩

/-! ### All together -/

/-- The definitions of a block. -/
def block (n : Node) (decs : List (Spot × FunctionDec)) (ts : List (Spot × Term)) :
    List Definition :=
  decs.zipWith (fun (s, dec) (s', t) =>
    ⟨n, dec, dec.varSpots s 0, s', t, Spot.map_snd_along _ _ _⟩) ts

theorem written_block (n : Node) (decs : List (Spot × FunctionDec)) (ts : List (Spot × Term)) :
    (block n decs ts).map written = (decs.map (·.2)).zip (ts.map (·.2)) := by
  rw [block, List.map_zipWith, List.zip, List.zipWith_map]
  rfl

theorem announceAll_block (G : Stack) (n : Node) {decs : List (Spot × FunctionDec)}
    {ts : List (Spot × Term)} (hcount : decs.length = ts.length) :
    (announceAll G n (decs.map (·.2)) (ts.map (·.2))).findings =
        (block n decs ts).flatMap (fun d => (d.announced G).findings) ∧
      (announceAll G n (decs.map (·.2)) (ts.map (·.2))).value =
        (block n decs ts).map (function G) := by
  induction decs generalizing ts with
  | nil => exact ⟨rfl, rfl⟩
  | cons x decs ih =>
    cases ts with
    | nil => cases hcount
    | cons y ts =>
      obtain ⟨hfindings, hvalue⟩ := ih (Nat.succ.inj hcount)
      refine ⟨?_, congrArg (List.cons _) hvalue⟩
      simp only [List.map_cons, announceAll, List.tail_cons, Logged.findings_bind,
        Logged.findings_pure, List.append_nil, hfindings]
      rfl

theorem bodies_block (G K : Stack) (n : Node) (decs : List (Spot × FunctionDec))
    (ts : List (Spot × Term)) :
    (bodies K ((block n decs ts).map (function G)) decs ts).findings =
      (block n decs ts).flatMap fun d =>
        (Check.body K (d.function G) d.vars d.spot d.body).findings := by
  induction decs generalizing ts with
  | nil => rfl
  | cons x decs ih =>
    cases ts with
    | nil => rfl
    | cons y ts => exact congrArg (_ ++ ·) (ih ts)

/-- The other functions of the block do not show in a body that does not mention them. -/
theorem body_eq_sorted {ds : List Definition} (hds : Apart ds) {d : Definition} (hd : d ∈ ds) :
    Check.body (G.push.enterAll (entries G ds)).value (d.function G) d.vars d.spot d.body =
      d.sorted G := by
  have hkeys : (ds.map (function G)).map (·.name) = ds.map key := by rw [List.map_map]; rfl
  have hsame : Stack.SameBut ((ds.map key).filter (· ≠ d.key))
      (G.push.enter (.function (d.function G))).value (G.push.enterAll (entries G ds)).value := by
    refine Stack.sameBut_enterAll_of_mem (List.mem_map_of_mem hd) (hkeys ▸ hds.keys) ?_ ?_
    · exact fun hmem => of_decide_eq_true (List.mem_filter.mp hmem).2 rfl
    · intro g hg hne
      have hmem : g.name ∈ ds.map key := hkeys ▸ List.mem_map_of_mem hg
      exact List.mem_filter.mpr ⟨hmem, decide_eq_true hne⟩
  refine (body_of_agreeOn (hsame.agreeOn fun name hname => ?_) _ _ _).symm
  obtain ⟨hmem, hne⟩ := List.mem_filter.mp hname
  obtain ⟨e, he, rfl⟩ := List.mem_map.mp hmem
  exact hds.not_mem_lookups hd he (of_decide_eq_true hne)

theorem defineFunsRec_block (G : Stack) (n : Node) {decs : List (Spot × FunctionDec)}
    {ts : List (Spot × Term)} (hcount : decs.length = ts.length) (hds : Apart (block n decs ts)) :
    (defineFunsRec G n decs ts).findings =
        (block n decs ts).flatMap (fun d => (d.announced G).findings) ++
          (block n decs ts).flatMap (fun d => (d.sorted G).findings) ∧
      (defineFunsRec G n decs ts).value = (G.enterAll (entries G (block n decs ts))).value := by
  obtain ⟨hfindings, hvalue⟩ := announceAll_block G n hcount
  have hbodies := bodies_block G (G.push.enterAll (entries G (block n decs ts))).value n decs ts
  rw [List.flatMap_congr fun d hd => congrArg Logged.findings (body_eq_sorted hds hd)] at hbodies
  unfold defineFunsRec
  simp only [Logged.findings_bind, Logged.value_bind, hfindings, hvalue, Stack.findings_enterAll,
    List.nil_append, List.append_nil]
  exact ⟨congrArg (_ ++ ·) hbodies, rfl⟩

/-! ### Definitions at other nodes -/

/-- Definitions in which the same is written find the same, and enter functions that differ in
their nodes only. -/
theorem like_of_written {d e : Definition} (h : d.written = e.written) (G : Stack) :
    (d.announced G).Like (anywhere True) (FunDecl.Like (anywhere True)) (e.announced G) ∧
      (d.sorted G).Like (anywhere True) Eq (e.sorted G) := by
  obtain ⟨n, dec, vars, s, t, hvars⟩ := d
  obtain ⟨n', _, vars', s', _, hvars'⟩ := e
  obtain ⟨rfl, rfl⟩ := Prod.mk.inj h
  have hG : G.Like (anywhere True) G := Stack.like_anywhere (.inl trivial)
  have hnodes : (anywhere True).node n n' := trivial
  have hannounced := like_announce hG hnodes dec (some t)
  refine ⟨hannounced, ?_⟩
  have hinner := (hG.push.enter (.function hannounced.value)).value
  have hsame := hvars.trans hvars'.symm
  exact like_body hinner hannounced.value (Likeness.items_anywhere hsame) trivial t

variable {ds es : List Definition}

theorem forall₂_of_written (h : ds.map written = es.map written) :
    List.Forall₂ (fun d e => written d = written e) ds es := by
  have heq : List.Forall₂ Eq (ds.map written) (es.map written) := by
    rw [h]
    exact List.forall₂_refl _
  rwa [List.forall₂_map_left_iff, List.forall₂_map_right_iff] at heq

/-- What definitions find, as messages: what is announced before any body. -/
def messages (G : Stack) (ds : List Definition) : List String :=
  ds.flatMap fun d =>
    (d.announced G).findings.map Finding.message ++ (d.sorted G).findings.map Finding.message

theorem messages_of_written (h : ds.map written = es.map written) (G : Stack) :
    messages G ds = messages G es := by
  rw [messages, messages, List.flatMap_def, List.flatMap_def]
  refine congrArg List.flatten (map_eq_of_forall₂ (fun d e hde => ?_) (forall₂_of_written h))
  obtain ⟨hannounced, hsorted⟩ := like_of_written hde G
  rw [Likeness.messages_eq trivial hannounced.findings,
    Likeness.messages_eq trivial hsorted.findings]

theorem messages_runs {ds : List Definition} (hds : Apart ds) (G : Stack) :
    (ds.foldlM run G).findings.map Finding.message = messages G ds := by
  rw [(runs_self hds G).1, List.map_flatMap, messages]
  simp only [List.map_append]

theorem messages_block {n : Node} {decs : List (Spot × FunctionDec)} {ts : List (Spot × Term)}
    (hcount : decs.length = ts.length) (hds : Apart (block n decs ts)) (G : Stack) :
    ((defineFunsRec G n decs ts).findings.map Finding.message).Perm
      (messages G (block n decs ts)) := by
  rw [(defineFunsRec_block G n hcount hds).1, List.map_append, List.map_flatMap, List.map_flatMap]
  exact List.flatMap_append_perm _ _ _

theorem like_entries (h : ds.map written = es.map written) (G : Stack) :
    (G.enterAll (entries G ds)).value.Like (anywhere True) (G.enterAll (entries G es)).value := by
  have hG : G.Like (anywhere True) G := Stack.like_anywhere (.inl trivial)
  refine (hG.enterAll (List.rel_map (fun _ _ => .function) ?_)).value
  refine List.rel_map ?_ (forall₂_of_written h)
  exact fun d e hde => (like_of_written hde G).1.value

theorem apart_of_written {decs : List FunctionDec} {ts : List Term}
    (h : ds.map written = decs.zip ts) (hcount : decs.length = ts.length)
    (hnames : (decs.map (·.name)).Nodup)
    (hmentions : ∀ x ∈ decs.zip ts, ∀ d ∈ decs, x.2.Mentions d.name → d.name = x.1.name) :
    Apart ds := by
  have hmem {d : Definition} (hd : d ∈ ds) : (d.dec, d.body) ∈ decs.zip ts :=
    h ▸ List.mem_map_of_mem (f := written) hd
  refine ⟨?_, fun d hd e he => hmentions _ (hmem hd) _ (List.of_mem_zip (hmem he)).1⟩
  have hdecs : ds.map (·.dec.name) = decs.map (·.name) := by
    calc ds.map (·.dec.name)
        = ((ds.map written).map Prod.fst).map (·.name) := by rw [List.map_map, List.map_map]; rfl
      _ = decs.map (·.name) := by rw [h, List.map_fst_zip hcount.le]
  exact hdecs ▸ hnames

end Definition

/-! ### Commands -/

open Definition (run written)

/-- Recursive definitions one after another concern the declarations only. -/
theorem exists_commands_eq (setup : Setup) {decs : List FunctionDec} {ts : List Term}
    {xs : List (Spot × Command)} (hxs : xs.map (·.2) = List.zipWith .defineFunRec decs ts) :
    ∃ ds : List Definition, ds.map written = decs.zip ts ∧
      ∀ ctx, commands setup ctx xs = ctx.onStack (ds.foldlM run) := by
  induction decs generalizing ts xs with
  | nil =>
    rw [List.map_eq_nil_iff.mp hxs]
    exact ⟨[], rfl, fun _ => rfl⟩
  | cons dec decs ih =>
    cases ts with
    | nil =>
      rw [List.map_eq_nil_iff.mp hxs]
      exact ⟨[], rfl, fun _ => rfl⟩
    | cons t ts =>
      obtain ⟨⟨s, c⟩, xs, rfl, rfl, htail⟩ := List.map_eq_cons_iff.mp hxs
      obtain ⟨ds, hds, hrest⟩ := ih htail
      let n := s.node (.command (.defineFunRec dec t))
      let d : Definition := ⟨n, dec, dec.varSpots s 1, s.item 4, t, Spot.map_snd_along _ _ _⟩
      refine ⟨d :: ds, congrArg (List.cons _) hds, fun ctx => ?_⟩
      have hcommand : command setup ctx s (.defineFunRec dec t) = ctx.onStack (d.run ·) := rfl
      rw [commands_cons, hcommand]
      simp only [hrest, Context.onStack_bind, List.foldlM_cons]

/-- Recursive functions can be defined together or one after another, if their names are distinct
and none mentions another one. The messages are the same, though not their order; so are the scopes,
up to the nodes of declarations, and the rest of the context. -/
theorem defineFunsRec_eq_oneByOne (setup : Setup) (ctx : Context) (s : Spot)
    (decs : List FunctionDec) (bodies : List Term) (hcount : decs.length = bodies.length)
    (hnames : (decs.map (·.name)).Nodup)
    (hmentions : ∀ x ∈ decs.zip bodies, ∀ d ∈ decs, x.2.Mentions d.name → d.name = x.1.name)
    (xs : List (Spot × Command)) (hxs : xs.map (·.2) = List.zipWith .defineFunRec decs bodies) :
    let block := command setup ctx s (.defineFunsRec decs bodies)
    let oneByOne := commands setup ctx xs
    block.findings.length = oneByOne.findings.length ∧
      (block.findings.map Finding.message).Perm (oneByOne.findings.map Finding.message) ∧
      (∀ n, block.value.stack.atNode n = oneByOne.value.stack.atNode n) ∧
      block.value.logic = oneByOne.value.logic ∧
      block.value.theories = oneByOne.value.theories ∧
      block.value.coreLoaded = oneByOne.value.coreLoaded := by
  obtain ⟨ds, hds, hcommands⟩ := exists_commands_eq setup hxs
  have hlength : ((s.item 1).along 0 decs).length = ((s.item 2).along 0 bodies).length := by
    rw [Spot.length_along, Spot.length_along, hcount]
  have hwritten := Definition.written_block (s.node (.command (.defineFunsRec decs bodies)))
    ((s.item 1).along 0 decs) ((s.item 2).along 0 bodies)
  rw [Spot.map_snd_along, Spot.map_snd_along] at hwritten
  have hapart := Definition.apart_of_written hds hcount hnames hmentions
  have hapart' := Definition.apart_of_written hwritten hcount hnames hmentions
  have hsame := hwritten.trans hds.symm
  have hperm := Definition.messages_block hlength hapart' ctx.stack
  rw [Definition.messages_of_written hsame, ← Definition.messages_runs hapart] at hperm
  have hlike := Definition.like_entries hsame ctx.stack
  rw [← (Definition.defineFunsRec_block ctx.stack _ hlength hapart').2,
    ← (Definition.runs_self hapart ctx.stack).2] at hlike
  have hfindings (f : Stack → Logged Stack) : (ctx.onStack f).findings = (f ctx.stack).findings :=
    List.append_nil _
  intro block oneByOne
  have hblock : block = ctx.onStack (declarations s (.defineFunsRec decs bodies)) := rfl
  have honeByOne : oneByOne = ctx.onStack (ds.foldlM run) := hcommands ctx
  rw [hblock, honeByOne, hfindings, hfindings]
  have hlengths := hperm.length_eq
  rw [List.length_map, List.length_map] at hlengths
  exact ⟨hlengths, hperm, fun n => hlike.atNode n, rfl, rfl, rfl⟩

/-- A function that calls itself and was declared before, and one whose body has no sort. -/
theorem defineFunsRec_eq_oneByOne_faulty :
    let setup := ⟨⟨"", "", "", "", false⟩, fun _ => .missing⟩
    let A := SmtSort.simple "A"
    let s := Spot.top ⟨.nowhere, [], []⟩
    let decs : List FunctionDec := [⟨"f", [⟨"x", A⟩], A⟩, ⟨"g", [⟨"x", A⟩], A⟩]
    let bodies := [Term.app (.simple "f") [.ident (.simple "x")], .ident (.simple "u")]
    let ctx := (commands setup .fresh [(s, .declareSort "A" 0), (s, .declareFun "f" [A] A)]).value
    let block := command setup ctx s (.defineFunsRec decs bodies)
    let oneByOne := commands setup ctx ((List.zipWith .defineFunRec decs bodies).map (s, ·))
    block.findings.length = 3 ∧ oneByOne.findings.length = 3 ∧
      ∀ n, block.value.stack.atNode n = oneByOne.value.stack.atNode n := by
  intro setup A s decs bodies ctx block oneByOne
  obtain ⟨hlength, -, hstack, -⟩ := defineFunsRec_eq_oneByOne setup ctx s decs bodies rfl
    (by decide) (by decide) ((List.zipWith .defineFunRec decs bodies).map (s, ·)) rfl
  have hthree : block.findings.length = 3 := by decide +kernel
  exact ⟨hthree, hlength.symm.trans hthree, hstack⟩

end Check

end WellSorted
