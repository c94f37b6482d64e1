import WellSorted.Proofs.Steps

/-!
# Scope discipline

A stack rests on another one (`Stack.RestsOn`) if it holds all scopes of that one, unchanged, below
its innermost scope. Commands other than `reset` keep a stack resting on the one before a `push`, as
long as they do not leave the scopes that were entered. So leaving these scopes gives back the stack
from before, whatever was declared, defined or loaded in them.
-/

namespace WellSorted

namespace Stack

def RestsOn (H G : Stack) : Prop := G.scopes <:+ H.outer

variable {G H K : Stack}

theorem RestsOn.suffix (h : H.RestsOn G) : G.scopes <:+ H.scopes := h.trans (List.suffix_cons _ _)

theorem restsOn_of_suffix (h : G.scopes <:+ H.scopes) (hdepth : G.depth < H.depth) :
    H.RestsOn G := by
  rcases List.suffix_cons_iff.mp h with heq | hsuffix
  · rw [eq_of_scopes_eq (t := H) heq] at hdepth
    exact absurd hdepth (Nat.lt_irrefl _)
  · exact hsuffix

theorem suffix_pushMany (G : Stack) (n : Nat) : G.scopes <:+ (G.pushMany n).scopes := by
  rw [scopes_pushMany]
  exact List.suffix_append _ _

/-- Two stacks within a third one: the deeper one holds the scopes of the other. -/
theorem suffix_pop {n : Nat} (h : G.scopes <:+ H.scopes) (hpop : H.pop? n = some K)
    (hdepth : G.depth ≤ K.depth) : G.scopes <:+ K.scopes := by
  have hK : K.scopes <:+ H.scopes := by
    rw [pop?_eq_some_iff.mp hpop]
    exact List.drop_suffix _ _
  exact List.suffix_of_suffix_length_le h hK hdepth

/-- A step that ends above a stack ends on top of it, if it started there or from the stack
itself. -/
theorem RestsOn.moves {P : Stack → Declaration → Prop} (h : H = G ∨ H.RestsOn G)
    (hmoves : H.Moves P K) (hdepth : G.depth < K.depth) : K.RestsOn G := by
  have hsuffix : G.scopes <:+ H.scopes := by
    rcases h with rfl | h
    · exact List.suffix_rfl
    · exact h.suffix
  cases hmoves with
  | entered hentered =>
    rcases h with rfl | h
    · rw [depth, depth, hentered.outer_eq] at hdepth
      exact absurd hdepth (Nat.lt_irrefl _)
    · rw [RestsOn, hentered.outer_eq]
      exact h
  | pushed n => exact restsOn_of_suffix (hsuffix.trans (H.suffix_pushMany n)) hdepth
  | popped hpop => exact restsOn_of_suffix (suffix_pop hsuffix hpop (Nat.le_of_lt hdepth)) hdepth

/-- Leaving all scopes above a stack gives it back. -/
theorem pop?_of_suffix (h : G.scopes <:+ H.scopes) : H.pop? (H.depth - G.depth) = some G :=
  pop?_eq_some_iff.mpr (List.suffix_iff_eq_drop.mp h)

end Stack

namespace Check

open Stack

theorem findings_pop_eq_nil {G : Stack} {n : Node} {levels : Nat} :
    (pop G n levels).findings = [] ↔ levels < G.depth := by
  rw [← not_iff_not, Nat.not_lt, ← pop?_eq_none_iff, pop]
  cases G.pop? levels with
  | some H => simp
  | none => exact ⟨fun _ => rfl, fun _ => List.cons_ne_nil _ _⟩

theorem value_pop_of_eq_some {G H : Stack} {n : Node} {levels : Nat} (h : G.pop? levels = some H) :
    (pop G n levels).value = H := by
  rw [pop, h]
  rfl

theorem value_pop_of_depth_le {G : Stack} {n : Node} {levels : Nat} (h : G.depth ≤ levels) :
    (pop G n levels).value = G := by
  rw [pop, pop?_eq_none_iff.mpr h]
  rfl

theorem restsOn_push (G : Stack) (n : Node) (levels : Nat) :
    (push G n levels).value = G ∨ (push G n levels).value.RestsOn G := by
  unfold push
  split
  · cases levels with
    | zero => exact .inl rfl
    | succ levels => exact .inr (List.suffix_append _ _)
  · exact .inl rfl

/-- Run commands, each at its spot, one after another. -/
def commands (setup : Setup) (ctx : Context) (cs : List (Spot × Command)) : Logged Context :=
  cs.foldlM (fun ctx (s, c) => command setup ctx s c) ctx

theorem commands_cons (setup : Setup) (ctx : Context) (item : Spot × Command)
    (cs : List (Spot × Command)) : commands setup ctx (item :: cs) =
      command setup ctx item.1 item.2 >>= fun ctx => commands setup ctx cs :=
  List.foldlM_cons

/-- Commands that never leave the scopes above a stack do not touch it. -/
theorem restsOn_commands {setup : Setup} {G : Stack} {cs : List (Spot × Command)} {ctx : Context}
    (h : ctx.stack = G ∨ ctx.stack.RestsOn G) (hreset : ∀ item ∈ cs, item.2 ≠ .reset)
    (hdepth : ∀ past, past <+: cs → past ≠ [] →
      G.depth < (commands setup ctx past).value.stack.depth) :
    let H := (commands setup ctx cs).value.stack
    H = G ∨ H.RestsOn G := by
  induction cs generalizing ctx with
  | nil => exact h
  | cons item cs ih =>
    have hmoves : ctx.Moves setup False (command setup ctx item.1 item.2).value :=
      Context.moves_of_ne_reset (hreset item List.mem_cons_self)
    have hfirst := RestsOn.moves h hmoves.stack
      (hdepth [item] (List.prefix_append [item] cs) (List.cons_ne_nil _ _))
    rw [commands_cons]
    refine ih (.inr hfirst) (fun other hother => hreset other (List.mem_cons_of_mem _ hother)) ?_
    intro past hpast _
    have hlater := hdepth (item :: past) (List.cons_prefix_cons.mpr ⟨rfl, hpast⟩)
      (List.cons_ne_nil _ _)
    rwa [commands_cons] at hlater

end Check

namespace Context

open Check

variable {setup : Setup} {ctx : Context}

theorem findings_command_pop {s : Spot} {m : Nat} :
    (command setup ctx s (.pop m)).findings = [] ↔ m < ctx.stack.depth := by
  rw [← findings_pop_eq_nil (n := s.node (.command (.pop m)))]
  exact List.append_eq_nil_iff.trans (and_iff_left rfl)

/-- What is left by a `pop` of all scopes above a stack is the stack. -/
theorem command_pop_of_restsOn {G : Stack} {s : Spot}
    (h : ctx.stack = G ∨ ctx.stack.RestsOn G) :
    let left := command setup ctx s (.pop (ctx.stack.depth - G.depth))
    left.findings = [] ∧ left.value.stack = G := by
  have hpop : ctx.stack.pop? (ctx.stack.depth - G.depth) = some G := by
    refine Stack.pop?_of_suffix ?_
    rcases h with rfl | h
    · exact List.suffix_rfl
    · exact h.suffix
  refine ⟨findings_command_pop.mpr ?_, value_pop_of_eq_some hpop⟩
  rw [← Nat.not_le, ← Stack.pop?_eq_none_iff, hpop]
  nofun

theorem command_pop_of_depth_le {s : Spot} {m : Nat} (h : ctx.stack.depth ≤ m) :
    (command setup ctx s (.pop m)).value = ctx :=
  congrArg (fun G => { ctx with stack := G }) (value_pop_of_depth_le h)

/-- Entering scopes, running commands that stay within them, and leaving them again gives back the
same stack. The depth is only asked for after each of these commands: if it is too much to enter `n`
scopes at once, the first command has to enter one. A `pop` of any number of levels succeeds if and
only if the bottom scope remains; otherwise it changes nothing. -/
theorem stack_pop_of_push (setup : Setup) (ctx : Context) :
    (∀ (n : Nat) (s s' : Spot) (cs : List (Spot × Command)), (∀ item ∈ cs, item.2 ≠ .reset) →
      let entered := (command setup ctx s (.push n)).value
      (∀ past, past <+: cs → past ≠ [] →
        ctx.stack.depth < (commands setup entered past).value.stack.depth) →
      let inner := (commands setup entered cs).value
      let left := command setup inner s' (.pop (inner.stack.depth - ctx.stack.depth))
      left.findings = [] ∧ left.value.stack = ctx.stack) ∧
    ∀ (s : Spot) (m : Nat),
      ((command setup ctx s (.pop m)).findings = [] ↔ m < ctx.stack.depth) ∧
        (ctx.stack.depth ≤ m → (command setup ctx s (.pop m)).value = ctx) := by
  constructor
  · intro n s s' cs hreset entered hdepth
    have hentered : entered.stack = ctx.stack ∨ entered.stack.RestsOn ctx.stack :=
      restsOn_push ctx.stack _ n
    exact command_pop_of_restsOn (restsOn_commands hentered hreset hdepth)
  · exact fun s m => ⟨findings_command_pop, command_pop_of_depth_le⟩

/-- A sort, a term without a sort, one more scope, and a constant there. -/
def nestedCommands : List (Spot × Command) :=
  (Spot.top ⟨.nowhere, [], []⟩).along 0
    [.declareSort "A" 0, .assert (.ident (.simple "b")), .push 1, .declareConst "c" (.simple "A")]

theorem stack_pop_of_push_nested :
    let s := Spot.top ⟨.nowhere, [], []⟩
    let setup := ⟨⟨"", "", "", "", false⟩, fun _ => .missing⟩
    let inner := (commands setup (command setup fresh s (.push 2)).value nestedCommands).value
    inner.stack.depth = 4 ∧ inner.stack.top.funs.length = 1 ∧
      (command setup inner s (.pop 3)).value.stack = .empty := by
  intro s setup inner
  have hdepth : ∀ past ∈ nestedCommands.inits, past.isEmpty = false → fresh.stack.depth <
      (commands setup (command setup fresh s (.push 2)).value past).value.stack.depth := by
    decide +kernel
  have h := (stack_pop_of_push setup fresh).1 2 s s nestedCommands (by decide)
    (fun past hpast hne => hdepth past ((List.mem_inits _ _).mpr hpast) (by simpa using hne))
  exact ⟨by decide +kernel, by decide +kernel, h.2⟩

end Context

end WellSorted
