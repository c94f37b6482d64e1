import WellSorted.Proofs.Availability

/-!
# The bundled theories

Every file of the bundle is one of the texts that it lists, wherever a path leads, and no theory
among them has sort parameters with bars. So the theories that a script has loaded from the bundle
without findings are visible at its end (`Check.visible_of_quiet_bundle`), unless the scope was left
in which its logic was set.
-/

namespace WellSorted

/-! ### Files in a directory tree -/

/-- Whether a text is that of a file in a tree. -/
inductive Entry.Holds (text : String) : Entry → Prop
  | here : Holds text (.text text)
  | inside {name : String} {e : Entry} {entries : List (String × Entry)} :
      (name, e) ∈ entries → Holds text e → Holds text (.directory entries)

namespace Entry

variable {text : String}

theorem not_holds_nil : ¬ (directory []).Holds text := by
  intro h
  cases h with
  | inside hmem _ => cases hmem

/-- What is found on a path is in the entry where it starts, or in a directory around it. -/
theorem holds_of_follow {above : List Entry} {e : Entry} {path : List String}
    (h : follow above e path = .text text) : e.Holds text ∨ ∃ outer ∈ above, outer.Holds text := by
  induction path generalizing above e with
  | nil =>
    cases e with
    | text s =>
      cases h
      exact .inl .here
    | garbled => cases h
    | directory entries => cases h
  | cons name path ih =>
    unfold follow at h
    split at h
    · cases h
    · next hdirectory =>
      split at h
      · exact ih h
      · split at h
        · split at h
          · next outer above =>
            rcases ih h with houter | ⟨further, hmem, hfurther⟩
            · exact .inr ⟨outer, List.mem_cons_self, houter⟩
            · exact .inr ⟨further, List.mem_cons_of_mem _ hmem, hfurther⟩
          · rcases ih h with hnil | ⟨_, hmem, _⟩
            · exact absurd hnil not_holds_nil
            · cases hmem
        · split at h
          · next inner hlookup =>
            rcases ih h with hinner | ⟨outer, hmem, houter⟩
            · cases e with
              | text s => exact absurd rfl hdirectory
              | garbled => exact absurd rfl hdirectory
              | directory entries => exact .inl (.inside (mem_of_lookup hlookup) hinner)
            · rcases List.mem_cons.mp hmem with rfl | hmem
              · exact .inl houter
              · exact .inr ⟨outer, hmem, houter⟩
          · cases h

theorem holds_of_files {root : Entry} {path : String} (h : root.files path = .text text) :
    root.Holds text := by
  unfold files at h
  split at h
  · cases h
  · rcases holds_of_follow h with hnil | ⟨_, hmem, _⟩
    · exact absurd hnil not_holds_nil
    · cases hmem
  · rcases holds_of_follow h with hroot | ⟨_, hmem, _⟩
    · exact hroot
    · cases hmem

end Entry

namespace Bundle

/-- The texts of all files. -/
def texts : List String := (theories ++ logics).map Prod.snd

theorem mem_texts_of_holds {text : String} (h : directory.Holds text) : text ∈ texts := by
  have hfiles {files : List (String × String)}
      (h : (Entry.directory (files.map fileEntry)).Holds text) : text ∈ files.map Prod.snd := by
    cases h with
    | inside hmem hfile =>
      obtain ⟨file, hfilemem, heq⟩ := List.mem_map.mp hmem
      cases heq
      cases hfile
      exact List.mem_map_of_mem hfilemem
  unfold texts
  rw [List.map_append, List.mem_append]
  cases h with
  | inside hmem hinner =>
    rcases List.mem_cons.mp hmem with heq | hmem
    · cases heq
      exact .inl (hfiles hinner)
    · cases List.mem_singleton.mp hmem
      exact .inr (hfiles hinner)

/-- No text is a theory in which sort parameters have bars. -/
theorem plain_texts :
    ∀ text ∈ texts, isTheory (fun _ t => !decide t.Plain) text.toList = false := by
  intro text htext
  simp only [texts, theories, logics, arraysEx, core, ints, reals, realsInts, auflira, lia, qfAuflia,
    qfAx, qfLia, qfUf, List.cons_append, List.nil_append, List.map_cons, List.map_nil, List.mem_cons,
    List.not_mem_nil, or_false] at htext
  rcases htext with rfl | rfl | rfl | rfl | rfl | rfl | rfl | rfl | rfl | rfl | rfl
  all_goals
    rw [String.toList_ofList]
    decide +kernel

end Bundle

namespace Check

/-- A theory that can be fetched is the one of a text file. -/
theorem exists_text_of_fetch {setup : Setup} {serial : Nat} {name : String} {p : Parsed Theory}
    (h : theoryLoader.fetch setup serial name = .ok p) : ∃ text,
      setup.files (setup.config.path .theory name) = .text text ∧
        parseRoot ⟨some (setup.config.path .theory name), serial⟩ text =
          .ok ⟨p.source, .theory p.tree⟩ := by
  simp only [Loader.fetch, show theoryLoader.what = .theory from rfl] at h
  split at h
  · next text htext =>
    refine ⟨text, htext, ?_⟩
    split at h
    · cases h
    · next q hparse =>
      obtain ⟨source, tree⟩ := q
      cases tree with
      | theory t =>
        cases h
        exact hparse
      | script cs => cases h
      | logic l => cases h
  · cases h

end Check

theorem Bundle.plainTheories (enabled : Bool) : (setup.withCore enabled).PlainTheories := by
  intro name t ht
  obtain ⟨p, hp, rfl⟩ := Option.map_eq_some_iff.mp ht
  cases hfetch : Check.theoryLoader.fetch (setup.withCore enabled) 0 name with
  | error problem =>
    rw [hfetch] at hp
    cases hp
  | ok q =>
    rw [hfetch] at hp
    cases hp
    obtain ⟨text, htext, hparse⟩ := Check.exists_text_of_fetch hfetch
    obtain ⟨fs, hread, hsource, hroot⟩ := Parsed.ofText_eq_ok.mp hparse
    have hplain := plain_texts text (mem_texts_of_holds (Entry.holds_of_files htext))
    have hforms : Root.ofForms (Text.byteLength text.toList) fs = .ok (.theory p.tree) := by
      rw [hsource] at hroot
      exact hroot
    simp only [isTheory, hread, hforms] at hplain
    simpa using hplain

/-! ### Visible theories -/

namespace Check

/-- After a script that the bundled files let pass without findings, with or without the core theory
in every check, the core theory is visible if it was loaded, and so are all theories on record if
the scope in which the logic was set was not left. -/
theorem visible_of_quiet_bundle (enabled : Bool) {source : Source} {cs : List Command}
    (h : (root (Bundle.setup.withCore enabled) .fresh ⟨source, .script cs⟩).findings = []) :
    let setup := Bundle.setup.withCore enabled
    let ctx := (root setup .fresh ⟨source, .script cs⟩).value
    (ctx.coreLoaded = true →
      ∃ t, setup.theory? coreName = some t ∧ t.VisibleIn ctx.stack) ∧
    (KeepsLogicScope setup source cs →
      ∀ name ∈ ctx.theories, ∃ t, setup.theory? name = some t ∧ t.VisibleIn ctx.stack) :=
  visible_of_quiet (Bundle.plainTheories enabled) h

/-- Load a theory, which may have been read before. -/
def theoryWith (setup : Setup) (given : List (String × (Nat → Parsed Theory))) (n : Node)
    (name : String) (ctx : Context) : Logged Context :=
  match given.lookup name with
  | some read =>
    if ctx.loading.contains (.theory, name) then loadTheory setup n name ctx
    else do
      let ctx ← theoryLoader.checked n name (read ctx.nextSerial) (ctx.startLoad .theory name)
      return ctx.endLoad .theory name
  | none => loadTheory setup n name ctx

/-- Carry out loads with some theories that were read before. -/
def loadsWith (setup : Setup) (given : List (String × (Nat → Parsed Theory))) : Loading
  | .theory => theoryWith setup given
  | .logic => loadVia (fun _ => theoryWith setup given) setup .logic

theorem loadsWith_eq_loads {setup : Setup} {given : List (String × (Nat → Parsed Theory))}
    (h : ∀ x ∈ given, ∀ serial, theoryLoader.fetch setup serial x.1 = .ok (x.2 serial)) :
    loadsWith setup given = loads setup := by
  have htheory : theoryWith setup given = loadTheory setup := by
    funext n name ctx
    unfold theoryWith
    split
    · next read hread =>
      split
      · rfl
      · next hloading =>
        have hnot : (theoryLoader.what, name) ∉ ctx.loading :=
          fun hmem => hloading (List.contains_iff_mem.mpr hmem)
        have hfetch := h (name, read) (mem_of_lookup hread) ctx.nextSerial
        exact (Context.load_of_fetch hnot hfetch).symm
    · rfl
  funext what
  cases what with
  | theory => exact htheory
  | logic => exact loadVia_logic htheory

end Check

namespace Bundle

open Check

/-- A bundled theory that was read. -/
def given (name text : String) (fs : List Form) (t : Theory) : String × (Nat → Parsed Theory) :=
  (name, fun serial => ⟨⟨⟨some (setup.config.path .theory name), serial⟩, text.toList, fs⟩, t⟩)

theorem exists_given {check : List Form → Theory → Bool} {name text : String}
    (hfile : setup.files (setup.config.path .theory name) = .text text)
    (h : isTheory check text.toList = true) : ∃ fs t, check fs t = true ∧
      ∀ serial, theoryLoader.fetch setup serial name = .ok ((given name text fs t).2 serial) := by
  obtain ⟨fs, t, hparse, hcheck⟩ := exists_of_isTheory h .nowhere
  refine ⟨fs, t, hcheck, fun serial => Context.fetch_theory hfile ?_⟩
  obtain ⟨fs', hread, hsource, hroot⟩ := Parsed.ofText_eq_ok.mp hparse
  cases hsource
  exact Parsed.ofText_eq_ok.mpr ⟨fs, hread, rfl, hroot⟩

/-- Run a script with two theories that were read. -/
def runWith (cs : List Command) (fs : List Form) (t : Theory) (fs' : List Form) (t' : Theory) :
    Logged Context :=
  rootVia (loadsWith setup [given "Core" core fs t, given "ArraysEx" arraysEx fs' t']) setup .fresh
    ⟨⟨.nowhere, [], []⟩, .script cs⟩

/-- Set the logic of arrays, and enter a scope. -/
def arraysSet : List Command := [.setLogic "QF_AX", .push 1]

/-- Set the logic of arrays in a scope, and leave the scope. -/
def arraysLeft : List Command := [.push 1, .setLogic "QF_AX", .pop 1]

/-- The attribute in which the theory of arrays declares their sort. -/
def arrayAttribute : TheoryAttribute := .sorts [⟨.simple "Array", 2, []⟩]

theorem isTheory_runWith : isTheory (fun fs t => isTheory (fun fs' t' =>
    let m := runWith arraysSet fs t fs' t'
    let m' := runWith arraysLeft fs t fs' t'
    t'.attributes.contains arrayAttribute &&
      m.findings.isEmpty && m.value.theories == ["Core", "ArraysEx"] &&
      m'.findings.isEmpty && m'.value.theories == ["Core", "ArraysEx"] &&
      (m'.value.stack.sort? "Array").isNone) arraysEx.toList) core.toList = true := by
  rw [core, arraysEx, String.toList_ofList, String.toList_ofList]
  decide +kernel

/-- What the two scripts find and leave behind. -/
theorem runs_arrays :
    let m := root setup .fresh ⟨⟨.nowhere, [], []⟩, .script arraysSet⟩
    let m' := root setup .fresh ⟨⟨.nowhere, [], []⟩, .script arraysLeft⟩
    (∃ t, setup.theory? "ArraysEx" = some t ∧ arrayAttribute ∈ t.attributes) ∧
      m.findings = [] ∧ m.value.theories = ["Core", "ArraysEx"] ∧
      m'.findings = [] ∧ m'.value.theories = ["Core", "ArraysEx"] ∧
      m'.value.stack.sort? "Array" = none := by
  obtain ⟨fs, t, hcheck, hfetch⟩ := exists_given hasCore.file isTheory_runWith
  have hfile : setup.files (setup.config.path .theory "ArraysEx") = .text arraysEx := by rfl
  obtain ⟨fs', t', hcheck', hfetch'⟩ := exists_given hfile hcheck
  have hloads : loadsWith setup [given "Core" core fs t, given "ArraysEx" arraysEx fs' t'] =
      loads setup := by
    refine loadsWith_eq_loads fun x hx => ?_
    rcases List.mem_cons.mp hx with rfl | hx
    · exact hfetch
    · rw [List.mem_singleton.mp hx]
      exact hfetch'
  have hrun (cs : List Command) : runWith cs fs t fs' t' =
      root setup .fresh ⟨⟨.nowhere, [], []⟩, .script cs⟩ := by
    rw [runWith, hloads, rootVia_loads]
  simp only [hrun, Bool.and_eq_true, List.isEmpty_iff, beq_iff_eq, Option.isNone_iff_eq_none,
    and_assoc, List.contains_iff_mem] at hcheck'
  exact ⟨⟨t', Setup.theory?_of_fetch (hfetch' 0), hcheck'.1⟩, hcheck'.2⟩

end Bundle

namespace Check

theorem visible_of_quiet_bundle_arrays :
    let ctx := (root (Bundle.setup.withCore true) .fresh
      ⟨⟨.nowhere, [], []⟩, .script Bundle.arraysSet⟩).value
    ctx.theories = ["Core", "ArraysEx"] ∧ ∀ name ∈ ctx.theories,
      ∃ t, (Bundle.setup.withCore true).theory? name = some t ∧ t.VisibleIn ctx.stack := by
  obtain ⟨-, hfindings, htheories, -⟩ := Bundle.runs_arrays
  rw [← show Bundle.setup.withCore true = Bundle.setup from rfl] at hfindings htheories
  refine ⟨htheories, (visible_of_quiet_bundle true hfindings).2 fun i name hi _ j hij hj => ?_⟩
  match i with
  | 0 =>
    rw [depth_upTo_zero]
    exact Nat.le_add_left 1 _
  | 1 => cases hi
  | i + 2 => cases hi

/-- The theory of arrays is on record, but it was left with the scope in which the logic was set. -/
theorem not_visible_of_left_scope :
    let m := root Bundle.setup .fresh ⟨⟨.nowhere, [], []⟩, .script Bundle.arraysLeft⟩
    m.findings = [] ∧ "ArraysEx" ∈ m.value.theories ∧
      ¬ ∃ t, Bundle.setup.theory? "ArraysEx" = some t ∧ t.VisibleIn m.value.stack := by
  obtain ⟨⟨t, ht, harray⟩, -, -, hfindings, htheories, hnone⟩ := Bundle.runs_arrays
  refine ⟨hfindings, by rw [htheories]; decide, ?_⟩
  rintro ⟨t', ht', hsorts, -⟩
  rw [ht] at ht'
  cases ht'
  have hmem : ⟨.simple "Array", 2, []⟩ ∈ t.sortSymbols :=
    List.mem_flatMap.mpr ⟨Bundle.arrayAttribute, harray, List.mem_cons_self⟩
  obtain ⟨d, hd, -⟩ := hsorts _ hmem
  rw [show Identifier.key _ = "Array" by decide +kernel, hnone] at hd
  cases hd

end Check

end WellSorted
