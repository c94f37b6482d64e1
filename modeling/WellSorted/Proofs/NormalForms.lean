import WellSorted.Proofs.Transparency

/-!
# Normal forms

Expanding a sort unfolds each alias once, and does not go on in what the definition gives. This is
enough: the definition of an alias is stored resolved, so that only sort symbols and parameters are
left in it (`Stack.AliasesFormed`), and the parameters are replaced by sorts that are expanded
before. As sorts stay what they are while their scope is open, definitions stay so in every later
stack, and a sort that was expanded is in normal form (`Context.expand_normal`).
-/

namespace WellSorted

namespace Stack

variable {G : Stack}

/-! ### Expanding with formed definitions -/

/-- Whether no alias stands in a sort with as many arguments as it takes. -/
inductive Normal (G : Stack) : SmtSort → Prop
  | mk {head : Identifier} {args : List SmtSort} :
    (∀ d, G.sort? head.key = some d → d.definition.isSome = true → d.arity ≠ args.length) →
    (∀ s ∈ args, G.Normal s) → G.Normal (.mk head args)

theorem AliasesFormed.normal_applySort (hG : G.AliasesFormed) {head : Identifier}
    {args : List SmtSort} (hargs : ∀ s ∈ args, G.Normal s) : G.Normal (G.applySort head args) := by
  rw [applySort]
  cases hd : G.sort? head.key with
  | none => exact .mk (fun d hd' => by rw [hd] at hd'; cases hd') hargs
  | some d =>
    have hmk (h : d.definition.isSome = true → d.arity ≠ args.length) : G.Normal (.mk head args) :=
      .mk (fun e he => by rw [hd] at he; cases he; exact h) hargs
    rw [Option.bind_some, SortDecl.definedAs?]
    cases hdef : d.definition with
    | none => exact hmk fun h => by rw [hdef] at h; cases h
    | some s =>
      obtain ⟨hlength, hs⟩ := hG d (has_of_sort? hd) s hdef
      by_cases harity : d.params.length = args.length
      · -- The parameters are replaced by arguments, and everything else is a sort symbol.
        simp only [if_pos harity, Option.getD_some]
        refine hs.replace_ind (fun hd hdef _ hargs => .mk (fun e he h => ?_) hargs)
          (Subst.ofArguments_total harity) fun p t ht => hargs t (Subst.mem_of_ofArguments ht)
        rw [hd] at he
        cases he
        rw [hdef] at h
        cases h
      · simp only [if_neg harity, Option.getD_none]
        exact hmk fun _ => hlength ▸ harity

theorem AliasesFormed.normal_expand (hG : G.AliasesFormed) (s : SmtSort) :
    G.Normal (G.expand s) := by
  induction s using SmtSort.ind with
  | h head args ih =>
    rw [expand_mk]
    exact hG.normal_applySort (List.forall_mem_map.mpr ih)

/-- Expanding leaves normal forms as they are. -/
theorem AliasesFormed.expand_of_normal (hG : G.AliasesFormed) {s : SmtSort} (hs : G.Normal s) :
    G.expand s = s := by
  induction hs with
  | @mk head args hhead _ ih =>
    rw [expand_mk, List.map_congr_left ih, List.map_id', applySort]
    cases hd : G.sort? head.key with
    | none => rfl
    | some d =>
      rw [Option.bind_some, SortDecl.definedAs?]
      cases hdef : d.definition with
      | none => rfl
      | some s =>
        have harity : d.params.length ≠ args.length := by
          rw [(hG d (has_of_sort? hd) s hdef).1]
          exact hhead d hd (by rw [hdef]; rfl)
        simp only [if_neg harity, Option.getD_none]

/-! ### Definitions of a run -/

/-- Whether the parameters of all aliases are written without bars. -/
def PlainAliases (G : Stack) : Prop :=
  ∀ d, G.Has (.sort d) → d.definition.isSome = true → PlainParams d.params

/-- A definition that is entered without a finding is formed if those before it are. -/
theorem AliasesFormed.of_recorded (hG : G.AliasesFormed) {d : SortDecl}
    (hd : (Declaration.sort d).Recorded G)
    (hparams : d.definition.isSome = true → PlainParams d.params) :
    (Declaration.sort d).Formed G := by
  intro s hs
  have hdef : d.definition.isSome = true := by rw [hs]; rfl
  obtain ⟨name, params, body, -, halias, hcheck⟩ := hd hdef
  have hplain := hparams hdef
  generalize d.node = n at halias hcheck
  subst halias
  cases hs
  exact ⟨rfl, hG.formed_resolve hplain hcheck⟩

theorem runInvariant_aliasesFormed : RunInvariant fun G => G.PlainAliases → G.AliasesFormed where
  empty := fun _ d hd => absurd hd (not_has_empty _)
  insert := by
    intro G K d hG hd h hplain e he
    have hold : G.AliasesFormed := hG fun e he => hplain e ((has_of_insert h).mpr (.inl he))
    refine Declaration.Formed.mono (keeps_of_insert h) ?_
    rcases (has_of_insert h).mp he with hold' | rfl
    · exact hold e hold'
    · exact hold.of_recorded hd (hplain e he)
  push := by
    intro G hG hplain e he
    have hold : G.AliasesFormed := hG fun e he hdef => hplain e (has_push.mpr he) hdef
    exact (hold e (has_push.mp he)).mono G.keeps_push

theorem Traced.plainAliases (htraced : G.Traced) (hsound : G.Sound)
    (hplain : ∀ name params body, G.DefinedBy name params body → PlainParams params) :
    G.PlainAliases := by
  intro d hd hdef
  obtain ⟨H, -, hrecorded⟩ := htraced _ hd
  obtain ⟨name, params, body, hnode, halias, -⟩ := hrecorded hdef
  have hname : d.name = quoteSymbol name := by rw [halias]; rfl
  have hparams : d.params = params.map quoteSymbol := by rw [halias]; rfl
  have hp := hplain name params body ⟨d, hname ▸ hsound.sort?_of_has hd, hdef, hnode⟩
  rw [hparams, hp.map_quoteSymbol]
  exact hp

end Stack

namespace Context

/-- In every state that was reached without a finding and whose aliases have parameters written
without bars, no alias is left to unfold in what a sort expands to, and expanding it again changes
nothing. -/
theorem expand_normal {actions : List Action} (hquiet : (runAll actions).findings = [])
    (hplain : ∀ name params body, (runAll actions).value.stack.DefinedBy name params body →
      PlainParams params) (s : SmtSort) :
    let G := (runAll actions).value.stack
    G.Normal (G.expand s) ∧ G.expand (G.expand s) = G.expand s := by
  intro G
  have hsound : G.Sound := by
    rw [show G = (after actions).stack from congrArg stack (value_runAll actions)]
    exact sound_after actions
  have hG : G.AliasesFormed := (throughout_runAll Stack.runInvariant_aliasesFormed hquiet).here
    ((traced_runAll hquiet).here.plainAliases hsound hplain)
  exact ⟨hG.normal_expand s, hG.expand_of_normal (hG.normal_expand s)⟩

/-- A parameter has the name of an alias, in an inner scope. -/
def shadowScript : List Action :=
  [.root Check.bare ⟨⟨.nowhere, [], []⟩, .script
    [.declareSort "A" 0, .declareSort "Pair" 2,
      .defineSort "B" [] (.mk (.simple "Pair") [.simple "A", .simple "A"]), .push 1,
      .defineSort "Twice" ["p"] (.mk (.simple "Pair") [.simple "p", .simple "p"]),
      .defineSort "F" ["B"] (.mk (.simple "Twice") [.mk (.simple "Twice") [.simple "B"]])]⟩]

theorem expand_normal_shadow :
    let G := (runAll shadowScript).value.stack
    (runAll shadowScript).findings = [] ∧
      (∀ name params body, G.DefinedBy name params body → PlainParams params) ∧
      ∀ s, G.Normal (G.expand s) ∧ G.expand (G.expand s) = G.expand s := by
  intro G
  have hquiet : (runAll shadowScript).findings = [] := by decide +kernel
  have hplain (name : String) (params : List String) (body : SmtSort)
      (h : G.DefinedBy name params body) : PlainParams params := by
    obtain ⟨d, hd, -, hnode⟩ := h
    have hmem : d.node.part ∈ G.allSorts.map (·.node.part) :=
      List.mem_map_of_mem (Stack.mem_allSorts.mpr (Stack.has_of_sort? hd))
    have hparts : G.allSorts.map (·.node.part) =
        [.command (.defineSort "Twice" ["p"] (.mk (.simple "Pair") [.simple "p", .simple "p"])),
          .command (.defineSort "F" ["B"]
            (.mk (.simple "Twice") [.mk (.simple "Twice") [.simple "B"]])),
          .command (.declareSort "A" 0), .command (.declareSort "Pair" 2),
          .command (.defineSort "B" [] (.mk (.simple "Pair") [.simple "A", .simple "A"]))] := rfl
    rw [hnode, hparts] at hmem
    simp only [List.mem_cons, List.not_mem_nil, or_false] at hmem
    rcases hmem with h | h | h | h | h <;> cases h <;> decide
  exact ⟨hquiet, hplain, expand_normal hquiet hplain⟩

end Context

end WellSorted
