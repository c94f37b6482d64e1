import WellSorted.Findings.Report
import WellSorted.Proofs.Inference
import WellSorted.Proofs.Steps

/-!
# Nothing fails in silence

A term around an ill-sorted one gives up without a finding of its own, so each failure has to be
explained where it arises. A computation speaks (`Logged.Speaks`) if it gives a value or a finding;
sequences of such computations speak, and of all terms only a match without cases, which the syntax
check turns away, does not (`infer_speaks`). What was recorded before stays in the report, at its
node and in its order, whatever is found later (`Report.recorded_append`).
-/

namespace WellSorted

/-! ### Computations that speak -/

/-- A computation that gives a value, or else a finding. -/
def Logged.Speaks {α : Type} (x : Logged (Option α)) : Prop := x.findings = [] → ∃ a, x.Yields a

namespace Logged

variable {α β : Type}

theorem speaks_some (a : α) : (Pure.pure (some a) : Logged (Option α)).Speaks :=
  fun _ => ⟨a, rfl, rfl⟩

theorem speaks_report (f : Finding) (o : Option α) :
    (do report f; return o : Logged (Option α)).Speaks :=
  fun h => absurd h (List.cons_ne_nil f [])

/-- Only what follows on a value has to speak. -/
theorem Speaks.bind {x : Logged (Option α)} {k : Option α → Logged (Option β)} (hx : x.Speaks)
    (hk : ∀ a, x.Yields a → (k (some a)).Speaks) : (x >>= k).Speaks := by
  intro h
  obtain ⟨hxs, hks⟩ := List.append_eq_nil_iff.mp h
  obtain ⟨a, ha⟩ := hx hxs
  rw [ha.1] at hks
  obtain ⟨b, hb⟩ := hk a ha hks
  refine ⟨b, ?_, h⟩
  rw [value_bind, ha.1, hb.1]

/-- What comes before does not matter. -/
theorem speaks_bind (x : Logged α) {k : α → Logged (Option β)} (hk : ∀ a, (k a).Speaks) :
    (x >>= k).Speaks := by
  intro h
  obtain ⟨hxs, hks⟩ := List.append_eq_nil_iff.mp h
  obtain ⟨b, hb⟩ := hk x.value hks
  exact ⟨b, (yields_bind_of_findings hxs).mpr hb⟩

end Logged

namespace Sorting

open Logged

theorem speaks_fail (n : Node) (p : Problem) : (fail n p).Speaks := speaks_report _ _

theorem speaks_unique (n : Node) (missing : Problem) (several : List SmtSort → Problem) :
    ∀ sorts, (unique n missing several sorts).Speaks
  | [] => speaks_fail n missing
  | [sort] => speaks_some sort
  | _ :: _ :: _ => speaks_fail n _

/-- A sort that was found, or the problem of finding none. -/
theorem speaks_found (n : Node) (p : Problem) (found : Option SmtSort) :
    (match found with
      | some sort => Pure.pure (some sort)
      | none => fail n p : Logged (Option SmtSort)).Speaks := by
  cases found with
  | some sort => exact speaks_some sort
  | none => exact speaks_fail n p

theorem speaks_qualIdentifier (G : Stack) (n : Node) (q : QualIdentifier) :
    (qualIdentifier G n q).Speaks := by
  obtain ⟨i, ascription⟩ := q
  cases ascription with
  | some sort => exact speaks_bind _ fun _ => speaks_found n _ _
  | none =>
    show (identifier G n i).Speaks
    unfold identifier
    split
    · exact speaks_some _
    · exact speaks_unique n _ _ _

theorem speaks_application (G : Stack) (n : Node) (q : QualIdentifier) (args : List SmtSort) :
    (application G n q args).Speaks := by
  obtain ⟨i, ascription⟩ := q
  cases ascription with
  | none => exact speaks_unique n _ _ _
  | some sort => exact speaks_bind _ fun _ => speaks_found n _ _

theorem speaks_caseScope (G : Stack) (n : Node) (sort : SmtSort) (s : Spot) (p : Pattern)
    (isLast : Bool) : (caseScope G n sort s p isLast).Speaks := by
  unfold caseScope
  dsimp only
  split
  · exact speaks_report _ _
  split
  · exact speaks_bind _ fun _ => speaks_some _
  · split
    · exact speaks_bind _ fun _ => speaks_some _
    · exact speaks_report _ _
  · exact speaks_report _ _

/-- Cases without a common sort are told, unless there is none. -/
theorem speaks_commonSort (n : Node) {sorts : List SmtSort} (h : sorts ≠ []) :
    (commonSort n sorts).Speaks := by
  cases sorts with
  | nil => exact absurd rfl h
  | cons sort rest =>
    rw [commonSort]
    split
    · exact speaks_some sort
    · exact speaks_fail n _

theorem speaks_consSort {x : Logged (Option SmtSort)} {y : Logged (Option (List SmtSort))}
    (hx : x.Speaks) (hy : y.Speaks) :
    (do let sort ← x; let sorts ← y; return consSort sort sorts).Speaks :=
  hx.bind fun sort _ => hy.bind fun sorts _ => speaks_some (sort :: sorts)

end Sorting

/-! ### Terms -/

section Terms

open Logged Sorting

mutual

/-- Terms that pass the syntax check have a sort or a finding. -/
theorem infer_speaks : ∀ (G : Stack) (s : Spot) {t : Term}, SyntaxCheck.term s t = [] →
    (infer G s t).Speaks
  | G, s, .constant c, _ => speaks_unique _ _ _ _
  | G, s, .ident q, _ => speaks_qualIdentifier G _ q
  | G, s, .app q args, h => by
    obtain ⟨-, hargs⟩ := List.append_eq_nil_iff.mp h
    exact (inferAll_speaks G s 1 hargs).bind fun sorts _ => speaks_application G _ q sorts
  | G, s, .letIn bindings body, h => by
    obtain ⟨h, hbody⟩ := List.append_eq_nil_iff.mp h
    obtain ⟨-, hbindings⟩ := List.append_eq_nil_iff.mp h
    exact (inferBindings_speaks G (s.item 1) 0 hbindings).bind fun sorts _ =>
      speaks_bind _ fun inner => infer_speaks inner (s.item 2) hbody
  | G, s, .quantified q vars body, h => by
    obtain ⟨-, hbody⟩ := List.append_eq_nil_iff.mp h
    refine speaks_bind _ fun _ => speaks_bind _ fun inner => ?_
    refine (infer_speaks inner (s.item 2) hbody).bind fun sort _ => ?_
    show Speaks (if sort.isBool then _ else _)
    split
    · exact speaks_some sort
    · exact speaks_fail _ _
  | G, s, .matching scrutinee arms, h => by
    obtain ⟨h, harms⟩ := List.append_eq_nil_iff.mp h
    obtain ⟨hsome, hscrutinee⟩ := List.append_eq_nil_iff.mp h
    refine (infer_speaks G (s.item 1) hscrutinee).bind fun sort _ => ?_
    refine (inferArms_speaks G _ sort (s.item 2) 0 harms).bind fun sorts hsorts => ?_
    refine speaks_commonSort _ fun hnil => ?_
    -- There are as many sorts as cases, and the syntax check asks for a case.
    have hlength := length_inferArms hsorts
    have hempty : arms = [] := List.eq_nil_of_length_eq_zero (by rw [← hlength, hnil]; rfl)
    rw [hempty] at hsome
    cases SyntaxCheck.require_eq_nil.mp hsome
  | G, s, .annotated t _, h => by
    obtain ⟨h, -⟩ := List.append_eq_nil_iff.mp h
    obtain ⟨-, ht⟩ := List.append_eq_nil_iff.mp h
    exact infer_speaks G (s.item 1) ht

theorem inferAll_speaks : ∀ (G : Stack) (s : Spot) (i : Nat) {ts : List Term},
    SyntaxCheck.termsFrom s i ts = [] → (inferAll G s i ts).Speaks
  | _, _, _, [], _ => speaks_some []
  | G, s, i, t :: ts, h => by
    obtain ⟨ht, hts⟩ := List.append_eq_nil_iff.mp h
    exact speaks_consSort (infer_speaks G (s.item i) ht) (inferAll_speaks G s (i + 1) hts)

theorem inferBindings_speaks : ∀ (G : Stack) (s : Spot) (i : Nat) {bindings : List (String × Term)},
    SyntaxCheck.bindingsFrom s i bindings = [] → (inferBindings G s i bindings).Speaks
  | _, _, _, [], _ => speaks_some []
  | G, s, i, (x, t) :: bindings, h => by
    obtain ⟨h, hrest⟩ := List.append_eq_nil_iff.mp h
    obtain ⟨-, ht⟩ := List.append_eq_nil_iff.mp h
    exact speaks_consSort (infer_speaks G ((s.item i).item 1) ht)
      (inferBindings_speaks G s (i + 1) hrest)

theorem inferArms_speaks : ∀ (G : Stack) (n : Node) (sort : SmtSort) (s : Spot) (i : Nat)
    {m : Node} {arms : List (Pattern × Term)}, SyntaxCheck.armsFrom m s i arms = [] →
    (inferArms G n sort s i arms).Speaks
  | _, _, _, _, _, _, [], _ => speaks_some []
  | G, n, sort, s, i, m, (p, t) :: arms, h => by
    obtain ⟨h, hrest⟩ := List.append_eq_nil_iff.mp h
    obtain ⟨-, ht⟩ := List.append_eq_nil_iff.mp h
    rw [inferArms_cons]
    refine speaks_consSort ?_ (inferArms_speaks G n sort s (i + 1) hrest)
    exact (speaks_caseScope G n sort _ p _).bind fun inner _ =>
      infer_speaks inner ((s.item i).item 1) ht

end

end Terms

/-! ### What is on record -/

/-- The findings of entries, each with the node it is recorded at. -/
def NodeEntry.records (es : List NodeEntry) : List (Node × Finding) :=
  es.flatMap fun e => e.findings.map (e.node, ·)

namespace FileEntry

def records (files : List FileEntry) : List (Node × Finding) :=
  files.flatMap fun e => NodeEntry.records e.entries

/-- A finding is added to what is on record for a file, and nothing there is moved. -/
theorem records_insertNode (f : Finding) (es : List NodeEntry) :
    (NodeEntry.records es).Sublist (NodeEntry.records (insertNode f es)) ∧
      (NodeEntry.records (insertNode f es)).length = (NodeEntry.records es).length + 1 := by
  induction es with
  | nil => exact ⟨List.nil_sublist _, rfl⟩
  | cons e es ih =>
    rw [insertNode]
    split
    · simp only [NodeEntry.records, List.flatMap_cons, List.map_append, List.length_append]
      exact ⟨(List.sublist_append_left _ _).append (.refl _), Nat.add_right_comm _ _ _⟩
    · simp only [NodeEntry.records, List.flatMap_cons, List.length_append] at ih ⊢
      exact ⟨(List.Sublist.refl _).append ih.1, by rw [ih.2, Nat.add_assoc]⟩

/-- One step of recording. -/
theorem records_insertFile (f : Finding) (files : List FileEntry) :
    (records files).Sublist (records (insertFile f files)) ∧
      (records (insertFile f files)).length = (records files).length + 1 := by
  induction files with
  | nil => exact ⟨List.nil_sublist _, rfl⟩
  | cons e files ih =>
    obtain ⟨hentries, hlength⟩ := records_insertNode f e.entries
    rw [insertFile]
    split
    · simp only [records, List.flatMap_cons, List.length_append]
      exact ⟨hentries.append (.refl _), by rw [hlength, Nat.add_right_comm]⟩
    split
    · exact ⟨List.sublist_append_right _ (records (e :: files)), rfl⟩
    · simp only [records, List.flatMap_cons, List.length_append] at ih ⊢
      exact ⟨(List.Sublist.refl _).append ih.1, by rw [ih.2, Nat.add_assoc]⟩

end FileEntry

namespace Report

/-- All findings in the order of the report, each with the node it is recorded at. -/
def recorded (fs : List Finding) : List (Node × Finding) := FileEntry.records (files fs)

/-- What is on record stays there, and each further finding is added. -/
theorem recorded_append (fs gs : List Finding) :
    (recorded fs).Sublist (recorded (fs ++ gs)) ∧
      (recorded (fs ++ gs)).length = (recorded fs).length + gs.length := by
  induction gs using List.reverseRecOn with
  | nil =>
    rw [List.append_nil]
    exact ⟨.refl _, rfl⟩
  | append_singleton gs g ih =>
    have hstep : files (fs ++ (gs ++ [g])) = FileEntry.insertFile g (files (fs ++ gs)) := by
      rw [files, files, ← List.append_assoc, List.foldl_append]
      rfl
    obtain ⟨hsublist, hlength⟩ := FileEntry.records_insertFile g (files (fs ++ gs))
    rw [← hstep] at hsublist hlength
    refine ⟨ih.1.trans hsublist, hlength.trans ?_⟩
    rw [List.length_append, ← Nat.add_assoc, ← ih.2]
    rfl

end Report

/-- Inference never fails in silence: a term that passes the syntax check has a sort or a finding.
Nor does it touch what was recorded before: all of it stays, at its nodes and in its order, and
each finding is one more record. -/
theorem infer_never_silent (G : Stack) (s : Spot) (t : Term) :
    (SyntaxCheck.term s t = [] → (infer G s t).value = none → (infer G s t).findings ≠ []) ∧
    ∀ before : Logged Unit,
      let after := before >>= fun _ => infer G s t
      (Report.recorded before.findings).Sublist (Report.recorded after.findings) ∧
      (Report.recorded after.findings).length =
        (Report.recorded before.findings).length + (infer G s t).findings.length := by
  refine ⟨fun hchecked hnone hsilent => ?_, fun before => Report.recorded_append _ _⟩
  obtain ⟨sort, hsort, -⟩ := infer_speaks G s hchecked hsilent
  rw [hnone] at hsort
  cases hsort

/-- A match gives up on an unknown constant, which explains itself. -/
theorem infer_never_silent_unknown :
    let G : Stack := ⟨.empty, []⟩
    let s := Spot.top ⟨.nowhere, [], []⟩
    let t := Term.matching (.ident (.simple "u")) [(.symbol "x", .ident (.simple "x"))]
    SyntaxCheck.term s t = [] ∧ (infer G s t).value = none ∧ (infer G s t).findings ≠ [] := by
  intro G s t
  have hchecked : SyntaxCheck.term s t = [] := by decide +kernel
  have hnone : (infer G s t).value = none := by decide +kernel
  exact ⟨hchecked, hnone, (infer_never_silent G s t).1 hchecked hnone⟩

end WellSorted
