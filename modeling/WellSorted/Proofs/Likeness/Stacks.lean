import WellSorted.Proofs.Dropped

/-!
# Likeness of stacks

Two checks of one tree can differ in where its nodes stand, in the serial numbers of what is loaded
on the way, and in the order in which overloads were declared. A `Likeness` says which of these
differences count. Stacks are alike (`Stack.Like`) if they hold the same declarations apart from
them; then every lookup gives declarations that are alike, sorts are resolved to the same sorts, and
findings correspond one to one. If the order does not count, no two functions may have the same
signature: the first of them would hide the other one.
-/

namespace WellSorted

/-- The differences between two checks that do not count. -/
structure Likeness where
  /-- Spots for each other, where both checks look at the same part of a tree. -/
  spot : Spot → Spot → Prop
  /-- Nodes for each other, at which declarations and findings are made. -/
  node : Node → Node → Prop
  /-- Serial numbers for each other. -/
  serial : Nat → Nat → Prop
  /-- Whether overloads come in the same order. -/
  ordered : Prop
  item : ∀ {s s' : Spot} (i : Nat), spot s s' → spot (s.item i) (s'.item i)
  next : ∀ {s s' : Spot}, spot s s' → spot s.next s'.next
  at_spot : ∀ {s s' : Spot} (p : Part), spot s s' → node (s.node p) (s'.node p)
  succ : ∀ {m n : Nat}, serial m n → serial (m + 1) (n + 1)
  /-- Texts of one file are for each other. -/
  fetched : ∀ {m n : Nat} (file : Option String) (text : List Char) (forms : List Form),
    serial m n → spot (.top ⟨⟨file, m⟩, text, forms⟩) (.top ⟨⟨file, n⟩, text, forms⟩)

variable {L : Likeness}

/-! ### Declarations and findings -/

/-- The same sort, declared at another node. -/
def SortDecl.atNode (d : SortDecl) (n : Node) : SortDecl := { d with node := n }

/-- The same function, declared at another node. -/
def FunDecl.atNode (f : FunDecl) (n : Node) : FunDecl := { f with node := n }

/-- The same variable, declared at another node. -/
def VarDecl.atNode (v : VarDecl) (n : Node) : VarDecl := { v with node := n }

def SortDecl.Like (L : Likeness) (d e : SortDecl) : Prop := ∃ n, L.node d.node n ∧ e = d.atNode n

def FunDecl.Like (L : Likeness) (f g : FunDecl) : Prop := ∃ n, L.node f.node n ∧ g = f.atNode n

def VarDecl.Like (L : Likeness) (v w : VarDecl) : Prop := ∃ n, L.node v.node n ∧ w = v.atNode n

inductive Declaration.Like (L : Likeness) : Declaration → Declaration → Prop
  | sort {d e : SortDecl} : d.Like L e → Declaration.Like L (.sort d) (.sort e)
  | function {f g : FunDecl} : f.Like L g → Declaration.Like L (.function f) (.function g)
  | var {v w : VarDecl} : v.Like L w → Declaration.Like L (.var v) (.var w)

/-- The order of overloads shows in the problems that are found. -/
structure Finding.Like (L : Likeness) (f g : Finding) : Prop where
  node : L.node f.node g.node
  problem : L.ordered → f.problem = g.problem
  previous : L.ordered → Option.Rel (Declaration.Like L) f.previous g.previous

theorem like_finding {n n' : Node} {p q : Problem} (hn : L.node n n') (hp : L.ordered → p = q) :
    (n.finding p).Like L (n'.finding q) :=
  ⟨hn, hp, fun _ => .none⟩

theorem like_conflict {n n' : Node} {p : Problem} {d e : Declaration} (hn : L.node n n')
    (hd : L.ordered → d.Like L e) : (n.conflict p d).Like L (n'.conflict p e) :=
  ⟨hn, fun _ => rfl, fun ho => .some (hd ho)⟩

/-- Findings that correspond one to one. -/
abbrev Likeness.Findings (L : Likeness) : List Finding → List Finding → Prop :=
  List.Forall₂ (Finding.Like L)

theorem Likeness.Findings.append {fs gs fs' gs' : List Finding} (h : L.Findings fs gs)
    (h' : L.Findings fs' gs') : L.Findings (fs ++ fs') (gs ++ gs') :=
  List.rel_append h h'

/-- A problem at two nodes. -/
theorem Likeness.findings_single {n n' : Node} (hn : L.node n n') (p : Problem) :
    L.Findings [n.finding p] [n'.finding p] :=
  .cons (like_finding hn fun _ => rfl) .nil

theorem map_eq_of_forall₂ {α β : Type} {R : α → α → Prop} {f : α → β}
    (hf : ∀ a b, R a b → f a = f b) {as bs : List α} (h : List.Forall₂ R as bs) :
    as.map f = bs.map f := by
  induction h with
  | nil => rfl
  | cons hab _ ih => rw [List.map_cons, List.map_cons, hf _ _ hab, ih]

/-! ### Logged computations -/

/-- Computations with values in a relation and with findings for each other. -/
structure Logged.Like {α β : Type} (L : Likeness) (R : α → β → Prop) (x : Logged α)
    (y : Logged β) : Prop where
  value : R x.value y.value
  findings : L.Findings x.findings y.findings

namespace Logged

variable {α β γ δ : Type} {R : α → β → Prop} {S : γ → δ → Prop}

theorem like_pure {a : α} {b : β} (h : R a b) :
    Like L R (Pure.pure a : Logged α) (Pure.pure b) := ⟨h, .nil⟩

theorem Like.bind {x : Logged α} {y : Logged β} {k : α → Logged γ} {l : β → Logged δ}
    (hx : x.Like L R y) (hk : ∀ a b, R a b → (k a).Like L S (l b)) :
    (x >>= k).Like L S (y >>= l) := by
  have hrest := hk _ _ hx.value
  exact ⟨hrest.value, hx.findings.append hrest.findings⟩

/-- Computations of the same value. -/
theorem Like.bind_eq {x y : Logged α} {k : α → Logged γ} {l : α → Logged δ} (hx : x.Like L Eq y)
    (hk : ∀ a, (k a).Like L S (l a)) : (x >>= k).Like L S (y >>= l) := by
  refine hx.bind ?_
  rintro a _ rfl
  exact hk a

theorem like_reportAll {fs gs : List Finding} (h : L.Findings fs gs) :
    (reportAll fs).Like L Eq (reportAll gs) := ⟨rfl, h⟩

theorem like_report {f g : Finding} (h : f.Like L g) : (report f).Like L Eq (report g) :=
  ⟨rfl, .cons h .nil⟩

/-- Something is reported, and nothing else is done. -/
theorem like_refuse {f g : Finding} {a : α} {b : β} (hfg : f.Like L g) (h : R a b) :
    Like L R (report f >>= fun _ => Pure.pure a) (report g >>= fun _ => Pure.pure b) :=
  (like_report hfg).bind_eq fun _ => like_pure h

/-- Steps that go along with each other, one after another. -/
theorem like_foldlM {f : γ → α → Logged γ} {g : δ → β → Logged δ}
    (hstep : ∀ c d, S c d → ∀ a b, R a b → (f c a).Like L S (g d b)) {as : List α} {bs : List β}
    (h : List.Forall₂ R as bs) {c : γ} {d : δ} (hc : S c d) :
    (as.foldlM f c).Like L S (bs.foldlM g d) := by
  induction h generalizing c d with
  | nil => exact like_pure hc
  | cons hab _ ih =>
    rw [List.foldlM_cons, List.foldlM_cons]
    exact (hstep c d hc _ _ hab).bind fun _ _ hnext => ih hnext

theorem like_foldlM_same {f : γ → α → Logged γ} {g : δ → α → Logged δ}
    (hstep : ∀ c d, S c d → ∀ a, (f c a).Like L S (g d a)) (as : List α) {c : γ} {d : δ}
    (hc : S c d) : (as.foldlM f c).Like L S (as.foldlM g d) :=
  like_foldlM (R := Eq) (fun c d hc a _ hab => hab ▸ hstep c d hc a)
    (List.forall₂_same.mpr fun _ _ => rfl) hc

theorem like_forM {f : α → Logged Unit} {g : β → Logged Unit}
    (hstep : ∀ a b, R a b → (f a).Like L Eq (g b)) {as : List α} {bs : List β}
    (h : List.Forall₂ R as bs) : (as.forM f).Like L Eq (bs.forM g) := by
  induction h with
  | nil => exact like_pure rfl
  | cons hab _ ih => exact (hstep _ _ hab).bind_eq fun _ => ih

end Logged

/-! ### Parts of a tree at their spots -/

/-- The same part at spots for each other. -/
def Likeness.Item {α : Type} (L : Likeness) (x y : Spot × α) : Prop := L.spot x.1 y.1 ∧ x.2 = y.2

theorem Likeness.spread {α : Type} {s s' : Spot} (h : L.spot s s') (width : α → Nat) (i : Nat)
    (as : List α) : List.Forall₂ L.Item (s.spread width i as) (s'.spread width i as) := by
  induction as generalizing i with
  | nil => exact .nil
  | cons a as ih => exact .cons ⟨L.item i h, rfl⟩ (ih _)

theorem Likeness.along {α : Type} {s s' : Spot} (h : L.spot s s') (i : Nat) (as : List α) :
    List.Forall₂ L.Item (s.along i as) (s'.along i as) :=
  Likeness.spread h _ i as

/-- All places are alike. -/
def Likeness.anywhere (ordered : Prop) : Likeness where
  spot _ _ := True
  node _ _ := True
  serial _ _ := True
  ordered := ordered
  item _ _ := trivial
  next _ := trivial
  at_spot _ _ := trivial
  succ _ := trivial
  fetched _ _ _ _ := trivial

theorem Likeness.items_anywhere {α : Type} {ordered : Prop} {xs ys : List (Spot × α)}
    (h : xs.map (·.2) = ys.map (·.2)) : List.Forall₂ (anywhere ordered).Item xs ys := by
  have heq : List.Forall₂ Eq (xs.map (·.2)) (ys.map (·.2)) := by
    rw [h]
    exact List.forall₂_refl _
  rw [List.forall₂_map_left_iff, List.forall₂_map_right_iff] at heq
  exact heq.imp fun _ _ hxy => ⟨trivial, hxy⟩

/-! ### Lists of functions -/

/-- Lists with the same members, in the same order if it counts. -/
def Likeness.Listed {α : Type} (L : Likeness) (l l' : List α) : Prop :=
  l.Perm l' ∧ (L.ordered → l = l')

/-- Lists of functions that are alike, in the same order if it counts. -/
def Likeness.Funs (L : Likeness) (fs gs : List FunDecl) : Prop :=
  ∃ hs, L.Listed fs hs ∧ List.Forall₂ (FunDecl.Like L) hs gs

namespace Likeness

variable {fs gs fs' gs' : List FunDecl}

theorem funs_of_forall₂ (h : List.Forall₂ (FunDecl.Like L) fs gs) : L.Funs fs gs :=
  ⟨fs, ⟨.refl fs, fun _ => rfl⟩, h⟩

theorem Funs.forall₂ (h : L.Funs fs gs) (ho : L.ordered) :
    List.Forall₂ (FunDecl.Like L) fs gs := by
  obtain ⟨hs, hlisted, hlike⟩ := h
  rwa [hlisted.2 ho]

theorem Funs.append (h : L.Funs fs gs) (h' : L.Funs fs' gs') :
    L.Funs (fs ++ fs') (gs ++ gs') := by
  obtain ⟨hs, hlisted, hlike⟩ := h
  obtain ⟨hs', hlisted', hlike'⟩ := h'
  refine ⟨hs ++ hs', ⟨hlisted.1.append hlisted'.1, fun ho => ?_⟩, List.rel_append hlike hlike'⟩
  rw [hlisted.2 ho, hlisted'.2 ho]

theorem Funs.flatMap {α β : Type} {R : α → β → Prop} {f : α → List FunDecl} {g : β → List FunDecl}
    (hfg : ∀ a b, R a b → L.Funs (f a) (g b)) {as : List α} {bs : List β}
    (h : List.Forall₂ R as bs) : L.Funs (as.flatMap f) (bs.flatMap g) := by
  induction h with
  | nil => exact funs_of_forall₂ .nil
  | cons hab _ ih => exact (hfg _ _ hab).append ih

/-- What is computed from each function without its node. -/
theorem Funs.filterMap {α : Type} {k : FunDecl → Option α}
    (hk : ∀ f n, k (FunDecl.atNode f n) = k f) (h : L.Funs fs gs) :
    L.Listed (fs.filterMap k) (gs.filterMap k) := by
  obtain ⟨hs, hlisted, hlike⟩ := h
  have hsame : hs.filterMap k = gs.filterMap k := by
    clear hlisted
    induction hlike with
    | nil => rfl
    | cons hfg _ ih =>
      obtain ⟨n, -, rfl⟩ := hfg
      rw [List.filterMap_cons, List.filterMap_cons, hk, ih]
  rw [← hsame]
  exact ⟨hlisted.1.filterMap k, fun ho => by rw [hlisted.2 ho]⟩

theorem Funs.filter {p : FunDecl → Bool}
    (hp : ∀ f n, p (FunDecl.atNode f n) = p f) (h : L.Funs fs gs) :
    L.Funs (fs.filter p) (gs.filter p) := by
  obtain ⟨hs, hlisted, hlike⟩ := h
  refine ⟨hs.filter p, ⟨hlisted.1.filter p, fun ho => by rw [hlisted.2 ho]⟩, ?_⟩
  refine List.rel_filter (fun f g hfg => ?_) hlike
  obtain ⟨n, -, rfl⟩ := hfg
  simp only [hp]

theorem Funs.any {p q : FunDecl → Bool} (hpq : ∀ f g, f.Like L g → p f = q g)
    (h : L.Funs fs gs) : fs.any p = gs.any q := by
  obtain ⟨hs, hlisted, hlike⟩ := h
  rw [hlisted.1.any_eq]
  clear hlisted
  induction hlike with
  | nil => rfl
  | cons hfg _ ih => rw [List.any_cons, List.any_cons, hpq _ _ hfg, ih]

/-- Functions that differ pairwise, in whatever order. -/
theorem Funs.pairwise_iff {R : FunDecl → FunDecl → Prop} (hsymm : ∀ {f g}, R f g → R g f)
    (hR : ∀ f g m n, R f g ↔ R (FunDecl.atNode f m) (FunDecl.atNode g n)) (h : L.Funs fs gs) :
    fs.Pairwise R ↔ gs.Pairwise R := by
  obtain ⟨hs, hlisted, hlike⟩ := h
  rw [hlisted.1.pairwise_iff hsymm]
  clear hlisted
  induction hlike with
  | nil => simp
  | cons hfg hrest ih =>
    obtain ⟨m, -, rfl⟩ := hfg
    rw [List.pairwise_cons, List.pairwise_cons, ih]
    refine and_congr_left' (Check.forall_mem_iff_of_forall₂ (fun f g hfg => ?_) hrest)
    obtain ⟨n, -, rfl⟩ := hfg
    exact hR _ f m n

end Likeness

/-! ### Lookups -/

section

variable {α β : Type} {R : α → β → Prop}

theorem rel_find? {p : α → Bool} {q : β → Bool} (hpq : ∀ a b, R a b → p a = q b) {as : List α}
    {bs : List β} (h : List.Forall₂ R as bs) : Option.Rel R (as.find? p) (bs.find? q) := by
  induction h with
  | nil => exact .none
  | @cons a b as bs hab _ ih =>
    rw [List.find?_cons, List.find?_cons, hpq a b hab]
    cases q b with
    | true => exact .some hab
    | false => exact ih

theorem rel_findSome? {γ δ : Type} {S : γ → δ → Prop} {k : α → Option γ} {l : β → Option δ}
    (hkl : ∀ a b, R a b → Option.Rel S (k a) (l b)) {as : List α} {bs : List β}
    (h : List.Forall₂ R as bs) : Option.Rel S (as.findSome? k) (bs.findSome? l) := by
  induction h with
  | nil => exact .none
  | @cons a b as bs hab _ ih =>
    have hab := hkl a b hab
    rw [List.findSome?_cons, List.findSome?_cons]
    generalize k a = o, l b = o' at hab
    cases hab with
    | none => exact ih
    | some hs => exact .some hs

end

structure Scope.Like (L : Likeness) (s t : Scope) : Prop where
  sorts : List.Forall₂ (SortDecl.Like L) s.sorts t.sorts
  funs : L.Funs s.funs t.funs
  vars : List.Forall₂ (VarDecl.Like L) s.vars t.vars

namespace Scope

variable {s t : Scope}

theorem like_empty : Scope.empty.Like L .empty := ⟨.nil, Likeness.funs_of_forall₂ .nil, .nil⟩

theorem like_anywhere {ordered : Prop} (s : Scope) : s.Like (.anywhere ordered) s where
  sorts := List.forall₂_same.mpr fun d _ => ⟨d.node, trivial, rfl⟩
  funs := Likeness.funs_of_forall₂ (List.forall₂_same.mpr fun f _ => ⟨f.node, trivial, rfl⟩)
  vars := List.forall₂_same.mpr fun v _ => ⟨v.node, trivial, rfl⟩

theorem Like.sort? (h : s.Like L t) (name : String) :
    Option.Rel (SortDecl.Like L) (s.sort? name) (t.sort? name) := by
  refine rel_find? (fun d e hde => ?_) h.sorts
  obtain ⟨n, -, rfl⟩ := hde
  rfl

theorem Like.var? (h : s.Like L t) (name : String) :
    Option.Rel (VarDecl.Like L) (s.var? name) (t.var? name) := by
  refine rel_find? (fun v w hvw => ?_) h.vars
  obtain ⟨n, -, rfl⟩ := hvw
  rfl

theorem Like.overloads (h : s.Like L t) (name : String) :
    L.Funs (s.overloads name) (t.overloads name) :=
  h.funs.filter fun _ _ => rfl

theorem Like.put (h : s.Like L t) {d e : Declaration} (hd : d.Like L e) :
    (s.put d).Like L (t.put e) := by
  cases hd with
  | sort hd => exact ⟨List.rel_append h.sorts (.cons hd .nil), h.funs, h.vars⟩
  | function hf =>
    exact ⟨h.sorts, h.funs.append (Likeness.funs_of_forall₂ (.cons hf .nil)), h.vars⟩
  | var hv => exact ⟨h.sorts, h.funs, List.rel_append h.vars (.cons hv .nil)⟩

end Scope

/-! ### Stacks -/

structure Stack.Like (L : Likeness) (G H : Stack) : Prop where
  top : G.top.Like L H.top
  outer : List.Forall₂ (Scope.Like L) G.outer H.outer
  distinct : L.ordered ∨ G.allFuns.Pairwise Stack.DistinctFuns

namespace Stack

variable {G H : Stack}

theorem like_anywhere {ordered : Prop} (h : ordered ∨ G.allFuns.Pairwise DistinctFuns) :
    G.Like (.anywhere ordered) G :=
  ⟨G.top.like_anywhere, List.forall₂_same.mpr fun s _ => s.like_anywhere, h⟩

theorem Like.scopes (h : G.Like L H) : List.Forall₂ (Scope.Like L) G.scopes H.scopes :=
  .cons h.top h.outer

theorem Like.sort? (h : G.Like L H) (name : String) :
    Option.Rel (SortDecl.Like L) (G.sort? name) (H.sort? name) :=
  rel_findSome? (fun _ _ hst => hst.sort? name) h.scopes

theorem Like.var? (h : G.Like L H) (name : String) :
    Option.Rel (VarDecl.Like L) (G.var? name) (H.var? name) :=
  rel_findSome? (fun _ _ hst => hst.var? name) h.scopes

theorem Like.allOverloads (h : G.Like L H) (name : String) :
    L.Funs (G.allOverloads name) (H.allOverloads name) :=
  Likeness.Funs.flatMap (fun _ _ hst => hst.overloads name) (List.rel_reverse h.scopes)

/-- All overloads count if they differ. -/
theorem overloads_of_pairwise {name : String}
    (h : (G.allOverloads name).Pairwise fun f g => g.sameSignature f = false) :
    G.overloads name = G.allOverloads name :=
  foldl_addOverload h

theorem rel_addOverload {fs gs : List FunDecl} (h : List.Forall₂ (FunDecl.Like L) fs gs)
    {f g : FunDecl} (hf : f.Like L g) :
    List.Forall₂ (FunDecl.Like L) (addOverload fs f) (addOverload gs g) := by
  have hany : fs.any f.sameSignature = gs.any g.sameSignature := by
    refine (Likeness.funs_of_forall₂ h).any fun f' g' hf' => ?_
    obtain ⟨n, -, rfl⟩ := hf
    obtain ⟨n', -, rfl⟩ := hf'
    rfl
  rw [addOverload, addOverload, hany]
  split
  · exact h
  · exact List.rel_append h (.cons hf .nil)

/-- Overloads of different signatures are all listed; otherwise the first one of each signature is,
which depends on the order. -/
theorem Like.overloads (h : G.Like L H) (name : String) :
    L.Funs (G.overloads name) (H.overloads name) := by
  rcases h.distinct with ho | hdistinct
  · refine Likeness.funs_of_forall₂ (List.rel_foldl (fun _ _ hfs _ _ hf => ?_) .nil
      ((h.allOverloads name).forall₂ ho))
    exact rel_addOverload hfs hf
  · have hG := pairwise_allOverloads hdistinct name
    have hH := ((h.allOverloads name).pairwise_iff
      (fun {f g} hfg => (FunDecl.sameSignature_comm f g).trans hfg) fun _ _ _ _ => Iff.rfl).mp hG
    rw [overloads_of_pairwise hG, overloads_of_pairwise hH]
    exact h.allOverloads name

/-- What two lookups find; which declaration it is can depend on the order. -/
inductive Found (L : Likeness) : Option Declaration → Option Declaration → Prop
  | none : Found L none none
  | some {p q : Declaration} : (L.ordered → p.Like L q) → Found L (some p) (some q)

theorem found_map {α β : Type} {R : α → β → Prop} {k : α → Declaration} {l : β → Declaration}
    {o : Option α} {o' : Option β} (h : Option.Rel R o o')
    (hkl : ∀ a b, R a b → (k a).Like L (l b)) : Found L (o.map k) (o'.map l) := by
  cases h with
  | none => exact .none
  | some hab => exact .some fun _ => hkl _ _ hab

/-- Whether a function is found does not depend on the order, but which one is. -/
theorem found_function {o o' : Option FunDecl} (hsome : o.isSome = o'.isSome)
    (hrel : L.ordered → Option.Rel (FunDecl.Like L) o o') :
    Found L (o.map .function) (o'.map .function) := by
  cases o with
  | none =>
    cases o' with
    | none => exact .none
    | some g => cases hsome
  | some f =>
    cases o' with
    | none => cases hsome
    | some g =>
      refine .some fun ho => .function ?_
      cases hrel ho with
      | some hfg => exact hfg

theorem Like.conflict? (h : G.Like L H) {d e : Declaration} (hd : d.Like L e) :
    Found L (G.conflict? d) (H.conflict? e) := by
  cases hd with
  | sort hd =>
    obtain ⟨n, -, rfl⟩ := hd
    exact found_map (h.sort? _) fun _ _ => .sort
  | @function f g hf =>
    obtain ⟨n, -, rfl⟩ := hf
    have hsame (f' g' : FunDecl) (hf' : f'.Like L g') :
        f.sameSignature f' = f.sameSignature g' := by
      obtain ⟨n', -, rfl⟩ := hf'
      rfl
    have hall := h.allOverloads f.name
    have hany := hall.any hsame
    rw [← List.isSome_find?, ← List.isSome_find?] at hany
    exact found_function hany fun ho => rel_find? hsame (hall.forall₂ ho)
  | var hv =>
    obtain ⟨n, -, rfl⟩ := hv
    exact found_map (h.top.var? _) fun _ _ => .var

theorem Like.put (h : G.Like L H) {d e : Declaration} (hd : d.Like L e)
    (hnone : G.conflict? d = none) :
    Stack.Like L { G with top := G.top.put d } { H with top := H.top.put e } := by
  refine ⟨h.top.put hd, h.outer, h.distinct.imp_right fun hG => ?_⟩
  cases hd with
  | function _ =>
    exact pairwise_insert distinctFuns_symm hG (distinctFuns_of_no_conflict hnone)
  | sort _ => exact hG
  | var _ => exact hG

/-- A declaration is refused by both stacks or taken by both. -/
theorem Like.insert (h : G.Like L H) {d e : Declaration} (hd : d.Like L e) :
    (∃ p q, G.insert d = .error p ∧ H.insert e = .error q ∧ (L.ordered → p.Like L q)) ∨
      ∃ K M, G.insert d = .ok K ∧ H.insert e = .ok M ∧ K.Like L M := by
  have hfound := h.conflict? hd
  unfold Stack.insert
  cases hG : G.conflict? d with
  | none =>
    rw [hG] at hfound
    generalize H.conflict? e = o at hfound
    cases hfound
    exact .inr ⟨_, _, rfl, rfl, h.put hd hG⟩
  | some p =>
    rw [hG] at hfound
    generalize H.conflict? e = o at hfound
    cases hfound with
    | some hpq => exact .inl ⟨_, _, rfl, rfl, hpq⟩

theorem Like.enter (h : G.Like L H) {d e : Declaration} (hd : d.Like L e) :
    (G.enter d).Like L (Stack.Like L) (H.enter e) := by
  unfold Stack.enter
  rcases h.insert hd with ⟨p, q, hG, hH, -⟩ | ⟨K, M, hG, hH, hK⟩
  · rw [hG, hH]
    exact ⟨h, .nil⟩
  · rw [hG, hH]
    exact Logged.like_pure hK

theorem Like.enterAll (h : G.Like L H) {ds es : List Declaration}
    (hds : List.Forall₂ (Declaration.Like L) ds es) :
    (G.enterAll ds).Like L (Stack.Like L) (H.enterAll es) := by
  induction hds generalizing G H with
  | nil => exact Logged.like_pure h
  | cons hd _ ih => exact (h.enter hd).bind fun _ _ hnext => ih hnext

theorem Like.declare (h : G.Like L H) {n n' : Node} (hn : L.node n n') (p : Problem)
    {d e : Declaration} (hd : d.Like L e) :
    (G.declare n p d).Like L (Stack.Like L) (H.declare n' p e) := by
  unfold Stack.declare
  rcases h.insert hd with ⟨q, q', hG, hH, hq⟩ | ⟨K, M, hG, hH, hK⟩
  · rw [hG, hH]
    exact Logged.like_refuse (like_conflict hn hq) h
  · rw [hG, hH]
    exact Logged.like_pure hK

theorem Like.declareSort (h : G.Like L H) {d e : SortDecl} (hd : d.Like L e) :
    (G.declareSort d).Like L (Stack.Like L) (H.declareSort e) := by
  have hlike := hd
  obtain ⟨n, hn, rfl⟩ := hd
  exact h.declare hn _ (.sort hlike)

theorem Like.declareFun (h : G.Like L H) {f g : FunDecl} (hf : f.Like L g) :
    (G.declareFun f).Like L (Stack.Like L) (H.declareFun g) := by
  have hlike := hf
  obtain ⟨n, hn, rfl⟩ := hf
  exact h.declare hn _ (.function hlike)

/-! ### Scopes that are entered and left -/

theorem Like.pushMany (h : G.Like L H) (n : Nat) : (G.pushMany n).Like L (H.pushMany n) := by
  cases n with
  | zero => exact h
  | succ n =>
    have hempty : List.Forall₂ (Scope.Like L) (List.replicate n .empty) (List.replicate n .empty) :=
      List.forall₂_same.mpr fun s hs => List.eq_of_mem_replicate hs ▸ Scope.like_empty
    refine ⟨Scope.like_empty, List.rel_append hempty h.scopes, h.distinct.imp_right fun hG => ?_⟩
    rwa [allFuns_pushMany]

theorem Like.push (h : G.Like L H) : G.push.Like L H.push := h.pushMany 1

theorem Like.pop? (h : G.Like L H) (n : Nat) :
    Option.Rel (Stack.Like L) (G.pop? n) (H.pop? n) := by
  have hdistinct {K : Stack} (hK : G.pop? n = some K) :
      L.ordered ∨ K.allFuns.Pairwise DistinctFuns :=
    h.distinct.imp_right (pairwise_allFuns_of_pop hK)
  have hdrop := List.forall₂_drop n h.scopes
  unfold Stack.pop? at hdistinct ⊢
  generalize G.scopes.drop n = l, H.scopes.drop n = l' at hdrop hdistinct
  cases hdrop with
  | nil => exact .none
  | cons htop houter => exact .some ⟨htop, houter, hdistinct rfl⟩

theorem Like.bind (h : G.Like L H) {vs ws : List VarDecl}
    (hvs : List.Forall₂ (VarDecl.Like L) vs ws) :
    (G.bind vs).Like L (Stack.Like L) (H.bind ws) :=
  h.push.enterAll (List.rel_map (fun _ _ => .var) hvs)

/-! ### Sorts -/

theorem Like.applySort (h : G.Like L H) (head : Identifier) (args : List SmtSort) :
    G.applySort head args = H.applySort head args := by
  unfold Stack.applySort
  have hsort := h.sort? head.key
  generalize G.sort? head.key = o, H.sort? head.key = o' at hsort
  cases hsort with
  | none => rfl
  | some hd =>
    obtain ⟨n, -, rfl⟩ := hd
    rfl

mutual

theorem Like.resolve (h : G.Like L H) (ps : List String) : ∀ s : SmtSort,
    G.resolve ps s = H.resolve ps s
  | .mk head args => by
    rw [Stack.resolve, Stack.resolve, h.resolveAll ps args, h.applySort]

theorem Like.resolveAll (h : G.Like L H) (ps : List String) : ∀ ss : List SmtSort,
    G.resolveAll ps ss = H.resolveAll ps ss
  | [] => rfl
  | s :: ss => by
    rw [Stack.resolveAll, Stack.resolveAll, h.resolve ps s, h.resolveAll ps ss]

end

section

variable {n n' : Node}

theorem Like.checkHead (h : G.Like L H) (hn : L.node n n') (name : String) (count : Nat) :
    L.Findings (G.checkHead n name count) (H.checkHead n' name count) := by
  unfold Stack.checkHead
  have hsort := h.sort? name
  generalize G.sort? name = o, H.sort? name = o' at hsort
  cases hsort with
  | none => exact L.findings_single hn _
  | @some d e hd =>
    have hlike := hd
    obtain ⟨m, -, rfl⟩ := hd
    have hsame : (d.atNode m).arity = d.arity := rfl
    simp only [hsame]
    split
    · exact .nil
    · exact .cons (like_conflict hn fun _ => .sort hlike) .nil

mutual

theorem Like.checkSort (h : G.Like L H) (hn : L.node n n') (ps : List String) : ∀ s : SmtSort,
    L.Findings (G.checkSort ps n s) (H.checkSort ps n' s)
  | .mk head args => by
    rw [Stack.checkSort, Stack.checkSort]
    split
    · exact .nil
    · exact (h.checkHead hn _ _).append (h.checkSorts hn ps args)

theorem Like.checkSorts (h : G.Like L H) (hn : L.node n n') (ps : List String) :
    ∀ ss : List SmtSort, L.Findings (G.checkSorts ps n ss) (H.checkSorts ps n' ss)
  | [] => .nil
  | s :: ss => (h.checkSort hn ps s).append (h.checkSorts hn ps ss)

end

end

end Stack

end WellSorted
