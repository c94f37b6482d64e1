import WellSorted.Proofs.Likeness.Checks

/-!
# The order of declarations

Functions and constants that are declared one after another can be declared in any order: the later
check finds as many problems (`Check.length_findings_of_perm`). Two declarations that are swapped
leave stacks with the same functions in another order, or with one of two equal functions at another
node, and the check of what follows does not depend on either.
-/

namespace WellSorted

/-- Neither places count nor the order of overloads. -/
abbrev Likeness.unordered : Likeness := .anywhere False

open Likeness (unordered)

/-- Findings that are as many. -/
theorem Likeness.findings_unordered {fs gs : List Finding} (h : fs.length = gs.length) :
    unordered.Findings fs gs := by
  induction fs generalizing gs with
  | nil =>
    rw [List.eq_nil_of_length_eq_zero h.symm]
    exact .nil
  | cons f fs ih =>
    obtain ⟨g, gs, rfl⟩ := List.exists_cons_of_length_eq_add_one h.symm
    exact .cons ⟨trivial, False.elim, False.elim⟩ (ih (Nat.succ.inj h))

theorem Logged.like_unordered {α β : Type} {R : α → β → Prop} {x : Logged α} {y : Logged β}
    (hvalue : R x.value y.value) (hlength : x.findings.length = y.findings.length) :
    x.Like unordered R y :=
  ⟨hvalue, Likeness.findings_unordered hlength⟩

namespace Stack

variable {G : Stack}

theorem like_refl (h : G.allFuns.Pairwise DistinctFuns) : G.Like unordered G :=
  like_anywhere (.inr h)

theorem conflict?_atNode (G : Stack) (f : FunDecl) (n : Node) :
    G.conflict? (.function (f.atNode n)) = G.conflict? (.function f) := by
  have hsame : (f.atNode n).sameSignature = f.sameSignature := by
    funext g
    rfl
  rw [conflict?, conflict?, hsame]
  rfl

/-- The stack with one function more. -/
def withFun (G : Stack) (f : FunDecl) : Stack := { G with top := G.top.put (.function f) }

theorem insert_withFun {f : FunDecl} (h : G.conflict? (.function f) = none) :
    G.insert (.function f) = .ok (G.withFun f) :=
  insert_eq_ok.mpr ⟨h, rfl⟩

theorem conflict?_withFun {f g : FunDecl} (h : G.conflict? (.function f) = none) :
    (G.withFun f).conflict? (.function g) = none ↔
      G.conflict? (.function g) = none ∧ DistinctFuns g f :=
  conflict?_of_insert (insert_withFun h)

theorem declareFun_of_no_conflict {f : FunDecl} (h : G.conflict? (.function f) = none) :
    G.declareFun f = pure (G.withFun f) := by
  rw [declareFun, declare, insert_withFun h]

/-- A function that conflicts is reported. -/
theorem declareFun_of_conflict {f : FunDecl} (h : G.conflict? (.function f) ≠ none) :
    ∃ x, G.declareFun f = do
      Logged.report x
      return G := by
  obtain ⟨p, hp⟩ := Option.ne_none_iff_exists'.mp h
  refine ⟨f.node.conflict (.functionExists f.name) p, ?_⟩
  rw [declareFun, declare, insert, hp]

theorem sort?_declareFun (G : Stack) (f : FunDecl) (name : String) :
    (G.declareFun f).value.sort? name = G.sort? name := by
  by_cases h : G.conflict? (.function f) = none
  · rw [declareFun_of_no_conflict h]
    exact sort?_of_insert_function (insert_withFun h) name
  · obtain ⟨x, hx⟩ := declareFun_of_conflict h
    rw [hx]
    rfl

theorem conflict?_declareFun {f : FunDecl} (h : G.conflict? (.function f) ≠ none) (g : FunDecl) :
    (G.declareFun g).value.conflict? (.function f) ≠ none := by
  by_cases hg : G.conflict? (.function g) = none
  · rw [declareFun_of_no_conflict hg]
    exact fun hnone => h ((conflict?_withFun hg).mp hnone).1
  · obtain ⟨x, hx⟩ := declareFun_of_conflict hg
    rw [hx]
    exact h

/-- A function that conflicts costs one finding, before another one and after it. -/
theorem declareFun_around {f : FunDecl} (h : G.conflict? (.function f) ≠ none) (g : FunDecl) :
    let x := G.declareFun g
    let before := G.declareFun f >>= fun G => G.declareFun g
    let after := x >>= fun G => G.declareFun f
    (before.value = x.value ∧ before.findings.length = x.findings.length + 1) ∧
      after.value = x.value ∧ after.findings.length = x.findings.length + 1 := by
  intro x before after
  obtain ⟨y, hy⟩ := declareFun_of_conflict h
  obtain ⟨z, hz⟩ := declareFun_of_conflict (conflict?_declareFun h g)
  refine ⟨?_, ?_⟩
  · simp only [before, hy]
    exact ⟨rfl, rfl⟩
  · simp only [after, Logged.value_bind, Logged.findings_bind, x, hz]
    exact ⟨rfl, List.length_append⟩

/-- What costs one finding more than like declarations is alike. -/
theorem like_of_one_more {x y x' y' : Logged Stack} (h : x.Like unordered (Stack.Like unordered) y)
    (hx : x'.value = x.value ∧ x'.findings.length = x.findings.length + 1)
    (hy : y'.value = y.value ∧ y'.findings.length = y.findings.length + 1) :
    x'.Like unordered (Stack.Like unordered) y' := by
  refine Logged.like_unordered ?_ ?_
  · rw [hx.1, hy.1]
    exact h.value
  · rw [hx.2, hy.2, h.findings.length_eq]

theorem like_withFun (hG : G.Like unordered G) {f g : FunDecl} (hfg : f.Like unordered g)
    (h : G.conflict? (.function f) = none) : (G.withFun f).Like unordered (G.withFun g) :=
  hG.put (.function hfg) h

/-- Two functions that do not conflict, in either order. -/
theorem like_withFun_swap (hG : G.allFuns.Pairwise DistinctFuns) {f g : FunDecl} (m k : Node)
    (hf : G.conflict? (.function f) = none) (hg : (G.withFun f).conflict? (.function g) = none) :
    ((G.withFun f).withFun g).Like unordered ((G.withFun (g.atNode m)).withFun (f.atNode k)) := by
  have hlast := like_withFun (like_withFun (like_refl hG) ⟨f.node, trivial, rfl⟩ hf)
    ⟨g.node, trivial, rfl⟩ hg
  have hswap : List.Perm (G.top.funs ++ [f] ++ [g]) (G.top.funs ++ [g] ++ [f]) := by
    rw [List.append_assoc, List.append_assoc]
    exact (List.Perm.swap g f []).append_left G.top.funs
  have hfuns : List.Forall₂ (FunDecl.Like unordered) (G.top.funs ++ [g] ++ [f])
      (G.top.funs ++ [g.atNode m] ++ [f.atNode k]) :=
    List.rel_append (List.rel_append (List.forall₂_same.mpr fun f _ => ⟨f.node, trivial, rfl⟩)
      (.cons ⟨m, trivial, rfl⟩ .nil)) (.cons ⟨k, trivial, rfl⟩ .nil)
  exact ⟨⟨hlast.top.sorts, ⟨_, ⟨hswap, False.elim⟩, hfuns⟩, hlast.top.vars⟩, hlast.outer,
    hlast.distinct⟩

/-- Two functions are declared in either order, if they differ in their nodes at most when they
conflict. -/
theorem like_declareFun_swap (hG : G.allFuns.Pairwise DistinctFuns) {f g : FunDecl} (m k : Node)
    (hfg : ¬ DistinctFuns g f → g = f.atNode g.node) :
    (G.declareFun f >>= fun G => G.declareFun g).Like unordered (Stack.Like unordered)
      (G.declareFun (g.atNode m) >>= fun G => G.declareFun (f.atNode k)) := by
  have hrefl := like_refl hG
  have hf' : G.conflict? (.function (f.atNode k)) = G.conflict? (.function f) :=
    G.conflict?_atNode f k
  have hg' : G.conflict? (.function (g.atNode m)) = G.conflict? (.function g) :=
    G.conflict?_atNode g m
  by_cases hf : G.conflict? (.function f) = none
  · by_cases hg : G.conflict? (.function g) = none
    · rw [hf] at hf'
      rw [hg] at hg'
      rw [declareFun_of_no_conflict hf, declareFun_of_no_conflict hg', pure_bind, pure_bind]
      -- Only now can the two functions be in each other's way.
      by_cases hdistinct : DistinctFuns g f
      · have hlast := (conflict?_withFun hf).mpr ⟨hg, hdistinct⟩
        have hlast' := (conflict?_withFun hg').mpr ⟨hf', fun hname =>
          distinctFuns_symm hdistinct hname⟩
        rw [declareFun_of_no_conflict hlast, declareFun_of_no_conflict hlast']
        exact Logged.like_pure (like_withFun_swap hG m k hf hlast)
      · have hlast : (G.withFun f).conflict? (.function g) ≠ none := fun hnone =>
          hdistinct ((conflict?_withFun hf).mp hnone).2
        have hlast' : (G.withFun (g.atNode m)).conflict? (.function (f.atNode k)) ≠ none :=
          fun hnone => hdistinct (distinctFuns_symm ((conflict?_withFun hg').mp hnone).2)
        obtain ⟨x, hx⟩ := declareFun_of_conflict hlast
        obtain ⟨y, hy⟩ := declareFun_of_conflict hlast'
        rw [hx, hy]
        refine Logged.like_unordered (like_withFun hrefl ⟨m, trivial, ?_⟩ hf) rfl
        rw [hfg hdistinct]
        rfl
    · -- The second function is turned away in either order, so the first one decides.
      have hlike := hrefl.declareFun (f := f) (g := f.atNode k) ⟨k, trivial, rfl⟩
      exact like_of_one_more hlike (declareFun_around hg f).2
        (declareFun_around (hg'.symm ▸ hg) (f.atNode k)).1
  · have hlike := hrefl.declareFun (f := g) (g := g.atNode m) ⟨m, trivial, rfl⟩
    exact like_of_one_more hlike (declareFun_around hf g).1
      (declareFun_around (hf'.symm ▸ hf) (g.atNode m)).2

end Stack

namespace Check

variable {G H : Stack}

/-- What is declared depends on the sorts only. -/
theorem function_congr (h : ∀ name, H.sort? name = G.sort? name) (n : Node) (name : String)
    (args : List SmtSort) (result : SmtSort) :
    function H n name args result = function G n name args result := by
  unfold function
  rw [Stack.checkSorts_congr h, Stack.resolveAll_congr h, Stack.resolve_congr h]

/-- Functions without parameters that conflict are the same apart from their nodes. -/
theorem function_eq_atNode {m n : Node} {a b : String} {as bs : List SmtSort} {r q : SmtSort}
    (h : ¬ Stack.DistinctFuns (function G n b bs q).value (function G m a as r).value) :
    (function G n b bs q).value = (function G m a as r).value.atNode n := by
  obtain ⟨hname, hsame⟩ := Classical.not_imp.mp h
  obtain ⟨hargs, hresult⟩ :=
    (FunDecl.sameSignature_of_no_params rfl rfl).mp (Bool.eq_true_of_not_eq_false hsame)
  show FunDecl.symbol _ [] _ _ n = FunDecl.symbol _ [] _ _ n
  congr 1

/-- Declaring two functions is checking both, and entering one after the other. -/
theorem declareFun_twice (G : Stack) (m n : Node) (a b : String) (as bs : List SmtSort)
    (r q : SmtSort) :
    let f := function G m a as r
    let g := function G n b bs q
    let both := declareFun G m a as r >>= fun G => declareFun G n b bs q
    let entered := G.declareFun f.value >>= fun G => G.declareFun g.value
    both.value = entered.value ∧
      both.findings.length = f.findings.length + g.findings.length + entered.findings.length := by
  intro f g both entered
  have hsecond : declareFun (G.declareFun f.value).value n b bs q =
      g >>= (G.declareFun f.value).value.declareFun := by
    rw [declareFun, function_congr (G.sort?_declareFun f.value)]
  refine ⟨congrArg (·.value) hsecond, ?_⟩
  have hfindings : both.findings = f.findings ++ (G.declareFun f.value).findings ++
      (declareFun (G.declareFun f.value).value n b bs q).findings := rfl
  rw [hfindings, hsecond]
  simp only [entered, Logged.findings_bind, List.length_append]
  omega

theorem length_function (hG : G.allFuns.Pairwise Stack.DistinctFuns) (m n : Node) (a : String)
    (as : List SmtSort) (r : SmtSort) :
    (function G m a as r).findings.length = (function G n a as r).findings.length :=
  (like_function (Stack.like_refl hG) trivial a as r).findings.length_eq

/-- Two declarations in either order. -/
theorem like_declareFun_swap (hG : G.allFuns.Pairwise Stack.DistinctFuns) (m n m' n' : Node)
    (a b : String) (as bs : List SmtSort) (r q : SmtSort) :
    (declareFun G m a as r >>= fun G => declareFun G n b bs q).Like unordered
      (Stack.Like unordered) (declareFun G m' b bs q >>= fun G => declareFun G n' a as r) := by
  have hleft := declareFun_twice G m n a b as bs r q
  have hright := declareFun_twice G m' n' b a bs as q r
  have hswap := Stack.like_declareFun_swap hG (f := (function G m a as r).value)
    (g := (function G n b bs q).value) m' n' function_eq_atNode
  refine Logged.like_unordered ?_ ?_
  · rw [hleft.1, hright.1]
    exact hswap.value
  · have hfirst := length_function hG m n' a as r
    have hsecond := length_function hG n m' b bs q
    have hentered := hswap.findings.length_eq
    rw [hleft.2, hright.2]
    exact congrArg₂ (· + ·) (by omega) hentered

end Check

/-- Whether a command declares a function or a constant. -/
def Command.declaresFun : Command → Bool
  | .declareFun _ _ _ => true
  | .declareConst _ _ => true
  | _ => false

namespace Context

open Check

variable {ctx : Context}

theorem like_refl (h : ctx.stack.allFuns.Pairwise Stack.DistinctFuns) :
    ctx.Like unordered ctx :=
  ⟨Stack.like_refl h, rfl, rfl, rfl, rfl, trivial⟩

theorem onStack_bind (ctx : Context) (f g : Stack → Logged Stack) :
    (ctx.onStack f >>= fun ctx => ctx.onStack g) = ctx.onStack fun G => f G >>= g := by
  unfold onStack
  simp only [bind_assoc, pure_bind]

theorem command_of_declaresFun {c : Command} (h : c.declaresFun = true) :
    ∃ name args result, ∀ setup ctx s, command setup ctx s c =
      ctx.onStack fun G => declareFun G (s.node (.command c)) name args result := by
  cases c with
  | declareFun name args result => exact ⟨name, args, result, fun _ _ _ => rfl⟩
  | declareConst name sort => exact ⟨name, [], sort, fun _ _ _ => rfl⟩
  | _ => exact absurd h Bool.false_ne_true

/-- Two commands that declare functions, in either order. -/
theorem like_command_swap (hctx : ctx.stack.allFuns.Pairwise Stack.DistinctFuns)
    (setup : Setup) {c d : Command} (hc : c.declaresFun = true) (hd : d.declaresFun = true)
    (s t : Spot) :
    (command setup ctx s c >>= fun ctx => command setup ctx t d).Like unordered
      (Context.Like unordered) (command setup ctx t d >>= fun ctx => command setup ctx s c) := by
  obtain ⟨a, as, r, hc⟩ := command_of_declaresFun hc
  obtain ⟨b, bs, q, hd⟩ := command_of_declaresFun hd
  simp only [hc, hd, onStack_bind]
  exact (like_refl hctx).onStack (like_declareFun_swap hctx _ _ _ _ a b as bs r q)

/-- Commands find as much after declarations in one order as after them in another. -/
theorem length_commands_perm (setup : Setup) {xs ys : List (Spot × Command)} (h : xs.Perm ys)
    (hxs : ∀ x ∈ xs, x.2.declaresFun = true) (rest : List (Spot × Command))
    (hctx : ctx.stack.Sound) :
    (commands setup ctx (xs ++ rest)).findings.length =
      (commands setup ctx (ys ++ rest)).findings.length := by
  induction h generalizing ctx with
  | nil => rfl
  | cons x _ ih =>
    have hrest := ih (fun y hy => hxs y (List.mem_cons_of_mem x hy))
      (sound_command hctx setup x.1 x.2)
    simp only [List.cons_append, commands_cons, Logged.findings_bind, List.length_append, hrest]
  | swap x y l =>
    have hy := hxs y List.mem_cons_self
    have hx := hxs x (List.mem_cons_of_mem y List.mem_cons_self)
    -- The swapped contexts are only alike, so the rest is run from both.
    have hswap := like_command_swap hctx.funs setup hy hx y.1 x.1
    simp only [List.cons_append, commands_cons, ← bind_assoc]
    exact (hswap.bind fun _ _ h => h.commands (Likeness.items_anywhere rfl)).findings.length_eq
  | trans hxy _ ih ih' =>
    exact (ih hxs hctx).trans (ih' (fun y hy => hxs y (hxy.mem_iff.mpr hy)) hctx)

end Context

namespace Check

/-- A block of declarations of functions and constants may be reordered, whatever was done before
and comes after it: the check of the script accepts as before, and finds as much. -/
theorem length_findings_of_perm (setup : Setup) (actions : List Context.Action)
    (source source' : Source) (before rest : List Command) {block block' : List Command}
    (hperm : block.Perm block') (hblock : ∀ c ∈ block, c.declaresFun = true) :
    let found := (root setup (.after actions) ⟨source, .script (before ++ block ++ rest)⟩).findings
    let found' :=
      (root setup (.after actions) ⟨source', .script (before ++ block' ++ rest)⟩).findings
    (found = [] ↔ found' = []) ∧ found.length = found'.length := by
  intro found found'
  -- Both scripts are run at one spot, so that only the order differs.
  let place : Command → Spot × Command := (Spot.top source, ·)
  let n := (Spot.top source).node (.script [])
  have hplace (cs : List Command) : (cs.map place).map (·.2) = cs := by
    rw [List.map_map]
    exact List.map_id cs
  have hctx := Context.sound_after actions
  have hlike := Context.like_refl hctx.funs
  have hcore : (loadCore setup n (.after actions)).value.stack.Sound := by
    have hgrows : (Context.after actions).Grows setup False (loadCore setup n _).value :=
      Context.grows_loadCore False.elim
    exact hctx.entered hgrows.stack
  have hswap := Context.length_commands_perm setup (hperm.map place)
    (List.forall_mem_map.mpr hblock) (rest.map place)
    (Context.sound_foldlM hcore setup (before.map place))
  have hleft := (hlike.root_script setup n source
    (hplace (before ++ block ++ rest))).findings.length_eq
  have hright := (hlike.root_script setup n source'
    (hplace (before ++ block' ++ rest))).findings.length_eq
  have hlength : found.length = found'.length := by
    rw [← hleft, ← hright]
    simp only [List.append_assoc, List.map_append, commands, List.foldlM_append,
      Logged.findings_bind, List.length_append] at hswap ⊢
    rw [hswap]
  refine ⟨?_, hlength⟩
  rw [← List.length_eq_zero_iff, ← List.length_eq_zero_iff, hlength]

/-- A function, a constant that is declared twice, and one of an unknown sort. -/
def crowdedBlock : List Command :=
  [.declareFun "f" [.simple "A"] (.simple "A"), .declareConst "c" (.simple "A"),
    .declareConst "c" (.simple "A"), .declareConst "d" (.simple "B")]

theorem length_findings_of_perm_reverse :
    let setup := ⟨⟨"", "", "", "", false⟩, fun _ => .missing⟩
    let term := Term.app (.simple "f") [.ident (.simple "c")]
    let check := fun block => root setup .fresh
      ⟨⟨.nowhere, [], []⟩, .script ([.declareSort "A" 0] ++ block ++ [.assert term])⟩
    (check crowdedBlock).findings.length = 3 ∧
      (check crowdedBlock.reverse).findings.length = 3 := by
  intro setup term check
  have hlength := (length_findings_of_perm setup [] ⟨.nowhere, [], []⟩ ⟨.nowhere, [], []⟩
    [.declareSort "A" 0] [.assert term] (List.reverse_perm crowdedBlock).symm (by decide)).2
  have hthree : (check crowdedBlock).findings.length = 3 := by decide +kernel
  exact ⟨hthree, hlength.symm.trans hthree⟩

end Check

end WellSorted
