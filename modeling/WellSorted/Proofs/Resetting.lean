import WellSorted.Proofs.Likeness.Checks
import WellSorted.Proofs.Loads
import WellSorted.Proofs.WellFormed

/-!
# Resetting

A `reset` takes a context back to the start, whatever was run before: nothing is declared, nothing
is set, and no load is under way. Only the loads that were made are still counted, so what is
loaded later has other serial numbers. From there on the check goes as in a script of its own
(`Check.messages_of_reset`).
-/

namespace WellSorted

open Likeness (anywhere)

/-! ### Declarations without their nodes -/

/-- The same declarations, all made at one node. -/
def Scope.atNode (s : Scope) (n : Node) : Scope where
  sorts := s.sorts.map (·.atNode n)
  funs := s.funs.map (·.atNode n)
  vars := s.vars.map (·.atNode n)

/-- The same declarations in the same scopes, all made at one node. -/
def Stack.atNode (G : Stack) (n : Node) : Stack := ⟨G.top.atNode n, G.outer.map (·.atNode n)⟩

theorem Scope.Like.atNode {s t : Scope} (h : s.Like (anywhere True) t) (n : Node) :
    s.atNode n = t.atNode n := by
  have hsorts := map_eq_of_forall₂ (f := (·.atNode n)) (fun d e ⟨m, _, he⟩ => by rw [he]; rfl)
    h.sorts
  have hfuns := map_eq_of_forall₂ (f := (·.atNode n)) (fun f g ⟨m, _, hg⟩ => by rw [hg]; rfl)
    (h.funs.forall₂ trivial)
  have hvars := map_eq_of_forall₂ (f := (·.atNode n)) (fun v w ⟨m, _, hw⟩ => by rw [hw]; rfl)
    h.vars
  rw [Scope.atNode, Scope.atNode, hsorts, hfuns, hvars]

theorem Stack.Like.atNode {G H : Stack} (h : G.Like (anywhere True) H) (n : Node) :
    G.atNode n = H.atNode n := by
  rw [Stack.atNode, Stack.atNode, h.top.atNode n,
    map_eq_of_forall₂ (fun _ _ hst => hst.atNode n) h.outer]

theorem Likeness.messages_eq {L : Likeness} (ho : L.ordered) {fs gs : List Finding}
    (h : L.Findings fs gs) : fs.map Finding.message = gs.map Finding.message :=
  map_eq_of_forall₂ (fun _ _ hfg => congrArg Problem.message (hfg.problem ho)) h

/-! ### Going on after a reset -/

namespace Check

variable {setup : Setup}

/-- A context that is reset is like a fresh one, if no load is under way. -/
theorem like_reset {ctx : Context} (h : ctx.loading = []) :
    ctx.reset.Like (anywhere True) .fresh :=
  ⟨⟨Scope.like_empty, .nil, .inl trivial⟩, rfl, rfl, rfl, h, trivial⟩

/-- The commands after a reset run as the commands of a script. -/
theorem like_commands_reset {ctx : Context} (h : ctx.loading = []) (s : Spot)
    {cs : List (Spot × Command)} {source : Source} {cs' : List Command}
    (hcs : cs.map (·.2) = cs') :
    (commands setup ctx ((s, .reset) :: cs)).Like (anywhere True) (Context.Like (anywhere True))
      (root setup .fresh ⟨source, .script cs'⟩) := by
  rw [commands_cons]
  exact (like_reset h).root_script setup _ source hcs

/-- A script is run up to a command, and from there on. -/
theorem root_script_split (setup : Setup) (source : Source) (cs : List Command) (n : Nat) :
    root setup .fresh ⟨source, .script cs⟩ = upTo setup source cs n >>= fun ctx =>
      commands setup ctx (((Spot.top source).along 0 cs).drop n) := by
  rw [root_eq]
  simp only [upTo, commands, bind_assoc, ← List.foldlM_append, List.take_append_drop]
  rfl

theorem loading_upTo (source : Source) (cs : List Command) (n : Nat) :
    (upTo setup source cs n).value.loading = [] := by
  obtain ⟨base, h⟩ := (orderly_start setup _).exists_commands _
  exact h.loading

/-- From a `reset` on, a script finds what the rest of it finds as a script of its own, and ends
with the same declarations and the same records. -/
theorem messages_of_reset (setup : Setup) (source source' : Source) (cs₁ cs₂ : List Command) :
    let cs := cs₁ ++ .reset :: cs₂
    let whole := root setup .fresh ⟨source, .script cs⟩
    let before := upTo setup source cs cs₁.length
    let after := commands setup before.value (((Spot.top source).along 0 cs).drop cs₁.length)
    let alone := root setup .fresh ⟨source', .script cs₂⟩
    (whole.findings = before.findings ++ after.findings ∧ whole.value = after.value) ∧
    after.findings.map Finding.message = alone.findings.map Finding.message ∧
    (∀ n, whole.value.stack.atNode n = alone.value.stack.atNode n) ∧
    whole.value.logic = alone.value.logic ∧
    whole.value.theories = alone.value.theories ∧
    whole.value.coreLoaded = alone.value.coreLoaded := by
  intro cs whole before after alone
  have hwhole : whole = before >>= fun ctx =>
      commands setup ctx (((Spot.top source).along 0 cs).drop cs₁.length) :=
    root_script_split setup source cs cs₁.length
  have hvalue : whole.value = after.value := congrArg (·.value) hwhole
  obtain ⟨⟨s, _⟩, rest, hdrop, rfl, hrest⟩ : ∃ item rest,
      ((Spot.top source).along 0 cs).drop cs₁.length = item :: rest ∧ item.2 = .reset ∧
        rest.map (·.2) = cs₂ := by
    rw [← List.map_eq_cons_iff, List.map_drop, Spot.map_snd_along, List.drop_left]
  have hlike : after.Like (anywhere True) (Context.Like (anywhere True)) alone := by
    simp only [after, hdrop]
    exact like_commands_reset (loading_upTo source cs cs₁.length) s hrest
  refine ⟨⟨congrArg (·.findings) hwhole, hvalue⟩, Likeness.messages_eq trivial hlike.findings, ?_⟩
  rw [hvalue]
  exact ⟨fun n => hlike.value.stack.atNode n, hlike.value.logic, hlike.value.theories,
    hlike.value.coreLoaded⟩

end Check

end WellSorted
