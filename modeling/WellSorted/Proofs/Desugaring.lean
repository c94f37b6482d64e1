import WellSorted.Proofs.Applications

/-!
# Applications to many arguments

An associative function that is applied to more than two arguments stands for nested applications to
two arguments, and a chainable or pairwise predicate for its applications to neighbours. Its
argument sorts are made up for the number of arguments and matched at once, whereas the nested
applications are matched one after another. An associative function gives the sort of its first or
last argument, on which the other ones are gathered (`FunDecl.Gathers`): in the application to all
of them under one substitution, and in the nested applications under one for each of them. For a
function with parameters the former asks for more. A chainable predicate takes arguments of one sort,
so that neighbours suffice (`Context.infer_nested`).
-/

namespace WellSorted

/-! ### Signatures -/

theorem replicate_length_eq_iff {α : Type} {l : List α} {a : α} :
    List.replicate l.length a = l ↔ ∀ b ∈ l, a = b := by
  rw [eq_comm, List.eq_replicate_iff]
  simp only [true_and, eq_comm]

namespace FunDecl

variable {f : FunDecl} {a b x r : SmtSort} {xs : List SmtSort}

theorem formals_left (hassoc : f.assoc = some .left) (hargs : f.args = [a, b]) {n : Nat}
    (hn : 0 < n) : f.formals (n + 1) = a :: List.replicate n b := by
  have hlt : ¬ n + 1 < 2 := by omega
  simp only [formals, hargs, hassoc, if_neg hlt, Nat.add_sub_cancel]

theorem formals_right (hassoc : f.assoc = some .right) (hargs : f.args = [a, b]) {n : Nat}
    (hn : 0 < n) : f.formals (n + 1) = List.replicate n a ++ [b] := by
  have hlt : ¬ n + 1 < 2 := by omega
  simp only [formals, hargs, hassoc, if_neg hlt, Nat.add_sub_cancel]

theorem formals_chain (hassoc : f.assoc = none) (hchain : f.chain.isSome = true)
    (hargs : f.args = [a, b]) {n : Nat} (hn : 2 ≤ n) : f.formals n = List.replicate n a := by
  obtain ⟨c, hc⟩ := Option.isSome_iff_exists.mp hchain
  have hlt : ¬ n < 2 := by omega
  simp only [formals, hargs, hassoc, hc, if_neg hlt]

/-- Whether a function that gives the sort `x` on an argument of this sort takes the others along
with it, where `b` is the sort of its other argument. -/
def Gathers (f : FunDecl) (b x : SmtSort) (ys : List SmtSort) : Prop :=
  f.Determined [f.result, b] ∧
    ∃ σ : Subst, σ.Total f.params ∧ f.result.replace σ = x ∧ ∀ y ∈ ys, b.replace σ = y

theorem Gathers.single {ys : List SmtSort} (h : f.Gathers b x ys) {y : SmtSort} (hy : y ∈ ys) :
    f.Gathers b x [y] := by
  obtain ⟨hdetermined, σ, hσ, hx, hys⟩ := h
  exact ⟨hdetermined, σ, hσ, hx, List.forall_mem_singleton.mpr (hys y hy)⟩

/-- Without parameters, one substitution is like another. -/
theorem gathers_of_single (hparams : f.params = []) {ys : List SmtSort} (hne : ys ≠ [])
    (h : ∀ y ∈ ys, f.Gathers b x [y]) : f.Gathers b x ys := by
  have hreplace {σ : Subst} (hσ : σ.Total f.params) (s : SmtSort) : s.replace σ = s := by
    have hnone (p : String) : σ.get? p = Subst.get? [] p := by
      rw [hparams] at hσ
      exact Option.not_isSome_iff_eq_none.mp fun hp => List.not_mem_nil ((hσ p).mpr hp)
    rw [SmtSort.replace_congr hnone, SmtSort.replace_nil]
  obtain ⟨y, hy⟩ := List.exists_mem_of_ne_nil ys hne
  obtain ⟨hdetermined, σ, hσ, hx, -⟩ := h y hy
  refine ⟨hdetermined, σ, hσ, hx, fun z hz => ?_⟩
  obtain ⟨-, τ, hτ, -, hall⟩ := h z hz
  rw [hreplace hσ, ← hreplace hτ b]
  exact hall z (List.mem_singleton_self z)

theorem result?_left (hassoc : f.assoc = some .left) (hargs : f.args = [f.result, b])
    (hxs : xs ≠ []) : f.result? (x :: xs) none = some r ↔ r = x ∧ f.Gathers b x xs := by
  have hmem (s : SmtSort) : s ∈ f.result :: List.replicate xs.length b ↔ s ∈ [f.result, b] := by
    simp [List.mem_replicate, hxs]
  rw [result?_none_eq_some, Applies, List.length_cons,
    formals_left hassoc hargs (List.length_pos_iff.mpr hxs), determined_congr hmem]
  simp only [List.map_cons, List.map_replicate, List.cons.injEq, replicate_length_eq_iff]
  constructor
  · rintro ⟨⟨σ, hσ, ⟨hx, hall⟩, rfl⟩, hdetermined⟩
    exact ⟨hx, hdetermined, σ, hσ, hx, hall⟩
  · rintro ⟨rfl, hdetermined, σ, hσ, hx, hall⟩
    exact ⟨⟨σ, hσ, ⟨hx, hall⟩, hx⟩, hdetermined⟩

-- With a parameter, further arguments may have different sorts one after another, but not at once.
example :
    let n : Node := (Spot.top ⟨.nowhere, [], []⟩).node (.word "f")
    let f : FunDecl := { symbol "f" ["p"] [.bool, .simple "p"] .bool n with assoc := some .left }
    f.result? [.bool, .simple "A"] none = some .bool ∧
      f.result? [.bool, .simple "B"] none = some .bool ∧
      f.result? [.bool, .simple "A", .simple "B"] none = none := by
  decide +kernel

theorem result?_right (hassoc : f.assoc = some .right) (hargs : f.args = [b, f.result])
    (hxs : xs ≠ []) : f.result? (xs ++ [x]) none = some r ↔ r = x ∧ f.Gathers b x xs := by
  have hmem (s : SmtSort) : s ∈ List.replicate xs.length b ++ [f.result] ↔ s ∈ [f.result, b] := by
    simp [List.mem_replicate, hxs, or_comm]
  rw [result?_none_eq_some, Applies, List.length_append, List.length_singleton,
    formals_right hassoc hargs (List.length_pos_iff.mpr hxs), determined_congr hmem]
  simp only [List.map_append, List.map_replicate, List.map_singleton]
  constructor
  · rintro ⟨⟨σ, hσ, hformals, rfl⟩, hdetermined⟩
    obtain ⟨hall, hx⟩ := List.append_inj' hformals rfl
    have hx := List.singleton_inj.mp hx
    exact ⟨hx, hdetermined, σ, hσ, hx, replicate_length_eq_iff.mp hall⟩
  · rintro ⟨rfl, hdetermined, σ, hσ, hx, hall⟩
    exact ⟨⟨σ, hσ, by rw [hx, replicate_length_eq_iff.mpr hall], hx⟩, hdetermined⟩

/-- Whether a function with arguments of the sort `a` takes arguments of the sort `x`. -/
def TakesAlike (f : FunDecl) (a x : SmtSort) : Prop :=
  f.Determined [a] ∧ ∃ σ : Subst, σ.Total f.params ∧ a.replace σ = x

theorem exists_result?_chain (hassoc : f.assoc = none) (hchain : f.chain.isSome = true)
    (hargs : f.args = [a, a]) (hxs : 2 ≤ xs.length) :
    (∃ r, f.result? xs none = some r) ↔ ∃ x, f.TakesAlike a x ∧ ∀ y ∈ xs, y = x := by
  have hmem (s : SmtSort) : s ∈ List.replicate xs.length a ↔ s ∈ [a] := by
    rw [List.mem_replicate, List.mem_singleton]
    exact and_iff_right (by omega)
  simp only [result?_none_eq_some, Applies, formals_chain hassoc hchain hargs hxs,
    determined_congr hmem, List.map_replicate, replicate_length_eq_iff]
  constructor
  · rintro ⟨r, ⟨σ, hσ, hall, -⟩, hdetermined⟩
    exact ⟨a.replace σ, ⟨hdetermined, σ, hσ, rfl⟩, fun y hy => (hall y hy).symm⟩
  · rintro ⟨_, ⟨hdetermined, σ, hσ, rfl⟩, hall⟩
    exact ⟨_, ⟨σ, hσ, fun y hy => (hall y hy).symm, rfl⟩, hdetermined⟩

end FunDecl

/-! ### Lists in relation -/

section

variable {α β : Type} {R : α → β → Prop} {as : List α} {bs : List β}

theorem ne_nil_of_forall₂ (h : List.Forall₂ R as bs) (has : as ≠ []) : bs ≠ [] := by
  rintro rfl
  exact has (List.forall₂_nil_right_iff.mp h)

theorem forall₂_concat_left {a : α} (h : List.Forall₂ R (as ++ [a]) bs) :
    ∃ bs' b, bs = bs' ++ [b] ∧ List.Forall₂ R as bs' ∧ R a b := by
  induction as generalizing bs with
  | nil =>
    obtain ⟨b, _, hb, hnil, rfl⟩ := List.forall₂_cons_left_iff.mp h
    cases hnil
    exact ⟨[], b, rfl, .nil, hb⟩
  | cons a' as ih =>
    obtain ⟨b, bs, hb, hbs, rfl⟩ := List.forall₂_cons_left_iff.mp h
    obtain ⟨bs', c, rfl, hbs', hc⟩ := ih hbs
    exact ⟨b :: bs', c, rfl, .cons hb hbs', hc⟩

theorem exists_forall₂_iff {P : β → Prop} :
    (∃ bs, List.Forall₂ R as bs ∧ ∀ b ∈ bs, P b) ↔ ∀ a ∈ as, ∃ b, R a b ∧ P b := by
  induction as with
  | nil => simp
  | cons a as ih =>
    rw [List.forall_mem_cons, ← ih]
    constructor
    · rintro ⟨_, h, hall⟩
      obtain ⟨b, bs, hb, hbs, rfl⟩ := List.forall₂_cons_left_iff.mp h
      obtain ⟨hP, hall⟩ := List.forall_mem_cons.mp hall
      exact ⟨⟨b, hb, hP⟩, bs, hbs, hall⟩
    · rintro ⟨⟨b, hb, hP⟩, bs, hbs, hall⟩
      exact ⟨b :: bs, .cons hb hbs, List.forall_mem_cons.mpr ⟨hP, hall⟩⟩

/-- Neighbours that are related to a common member are all related to one. -/
theorem isChain_common_iff (hR : Relator.RightUnique R) {P : β → Prop} {a a' : α} :
    ((a :: a' :: as).IsChain fun a a' => ∃ b, P b ∧ R a b ∧ R a' b) ↔
      ∃ b, P b ∧ ∀ c ∈ a :: a' :: as, R c b := by
  induction as generalizing a a' with
  | nil => simp
  | cons a'' as ih =>
    rw [List.isChain_cons_cons, ih]
    simp only [List.forall_mem_cons]
    constructor
    · rintro ⟨⟨b, hP, ha, ha'⟩, c, -, hc, hrest⟩
      obtain rfl := hR ha' hc
      exact ⟨b, hP, ha, hc, hrest⟩
    · rintro ⟨b, hP, ha, ha', hrest⟩
      exact ⟨⟨b, hP, ha, ha'⟩, b, hP, ha', hrest⟩

end

/-! ### Nested applications -/

/-- Apply a function to a term and another one, then to the result and a further one, and so on. -/
def leftNested (i : Identifier) (t : Term) (ts : List Term) : Term :=
  ts.foldl (fun t u => .app ⟨i, none⟩ [t, u]) t

/-- Apply a function to terms, each together with what the later ones give. -/
def rightNested (i : Identifier) (ts : List Term) (t : Term) : Term :=
  ts.foldr (fun u t => .app ⟨i, none⟩ [u, t]) t

section

variable {clean : Prop} {G : Stack} {s : Spot} {i : Identifier} {f : FunDecl} {b : SmtSort}
  {t u : Term} {ts : List Term} {r : SmtSort}

theorem returns_app_of_single (hf : G.overloads i.key = [f]) (s' : Spot) :
    (infer G s (.app ⟨i, none⟩ ts)).Returns clean r ↔
      ∃ rs, List.Forall₂ (fun t r => (infer G s' t).Returns clean r) ts rs ∧
        f.result? rs none = some r := by
  rw [returns_app s', hf]
  refine exists_congr fun rs => and_congr_right' ?_
  cases hr : f.result? rs none with
  | none => simp [hr]
  | some r' => simp [hr]

theorem returns_app_pair (hf : G.overloads i.key = [f]) (s' : Spot) :
    (infer G s (.app ⟨i, none⟩ [t, u])).Returns clean r ↔
      ∃ x y, (infer G s' t).Returns clean x ∧ (infer G s' u).Returns clean y ∧
        f.result? [x, y] none = some r := by
  rw [returns_app_of_single hf s']
  constructor
  · rintro ⟨_, hrs, hr⟩
    obtain ⟨x, _, hx, hrest, rfl⟩ := List.forall₂_cons_left_iff.mp hrs
    obtain ⟨y, _, hy, hnil, rfl⟩ := List.forall₂_cons_left_iff.mp hrest
    cases hnil
    exact ⟨x, y, hx, hy, hr⟩
  · rintro ⟨x, y, hx, hy, hr⟩
    exact ⟨[x, y], .cons hx (.cons hy .nil), hr⟩

/-! An associative function applied to all arguments gathers them at once. -/

theorem returns_app_left (hf : G.overloads i.key = [f]) (hassoc : f.assoc = some .left)
    (hargs : f.args = [f.result, b]) (hts : ts ≠ []) (s' : Spot) :
    (infer G s (.app ⟨i, none⟩ (t :: ts))).Returns clean r ↔
      (infer G s' t).Returns clean r ∧
        ∃ ys, List.Forall₂ (fun t r => (infer G s' t).Returns clean r) ts ys ∧
          f.Gathers b r ys := by
  rw [returns_app_of_single hf s']
  constructor
  · rintro ⟨_, hrs, hr⟩
    obtain ⟨x, ys, hx, hys, rfl⟩ := List.forall₂_cons_left_iff.mp hrs
    rw [FunDecl.result?_left hassoc hargs (ne_nil_of_forall₂ hys hts)] at hr
    obtain ⟨rfl, hgathers⟩ := hr
    exact ⟨hx, ys, hys, hgathers⟩
  · rintro ⟨hx, ys, hys, hgathers⟩
    refine ⟨r :: ys, .cons hx hys, ?_⟩
    exact (FunDecl.result?_left hassoc hargs (ne_nil_of_forall₂ hys hts)).mpr ⟨rfl, hgathers⟩

theorem returns_app_right (hf : G.overloads i.key = [f]) (hassoc : f.assoc = some .right)
    (hargs : f.args = [b, f.result]) (hts : ts ≠ []) (s' : Spot) :
    (infer G s (.app ⟨i, none⟩ (ts ++ [t]))).Returns clean r ↔
      (infer G s' t).Returns clean r ∧
        ∃ ys, List.Forall₂ (fun t r => (infer G s' t).Returns clean r) ts ys ∧
          f.Gathers b r ys := by
  rw [returns_app_of_single hf s']
  constructor
  · rintro ⟨_, hrs, hr⟩
    obtain ⟨ys, x, rfl, hys, hx⟩ := forall₂_concat_left hrs
    rw [FunDecl.result?_right hassoc hargs (ne_nil_of_forall₂ hys hts)] at hr
    obtain ⟨rfl, hgathers⟩ := hr
    exact ⟨hx, ys, hys, hgathers⟩
  · rintro ⟨hx, ys, hys, hgathers⟩
    refine ⟨ys ++ [r], List.rel_append hys (.cons hx .nil), ?_⟩
    exact (FunDecl.result?_right hassoc hargs (ne_nil_of_forall₂ hys hts)).mpr ⟨rfl, hgathers⟩

/-! Nested applications gather them one after another. -/

theorem returns_leftNested (hf : G.overloads i.key = [f]) (hassoc : f.assoc = some .left)
    (hargs : f.args = [f.result, b]) (s' : Spot) :
    (infer G s (leftNested i t ts)).Returns clean r ↔
      (infer G s' t).Returns clean r ∧
        ∀ u ∈ ts, ∃ y, (infer G s' u).Returns clean y ∧ f.Gathers b r [y] := by
  induction ts generalizing t with
  | nil => simp [leftNested, returns_infer_iff s s']
  | cons u ts ih =>
    have hpair (x y : SmtSort) : f.result? [x, y] none = some r ↔ r = x ∧ f.Gathers b x [y] :=
      FunDecl.result?_left hassoc hargs (List.cons_ne_nil y [])
    rw [leftNested, List.foldl_cons, ← leftNested, ih, returns_app_pair hf s', List.forall_mem_cons]
    simp only [hpair]
    constructor
    · rintro ⟨⟨_, y, ht, hu, rfl, hy⟩, hts⟩
      exact ⟨ht, ⟨y, hu, hy⟩, hts⟩
    · rintro ⟨ht, ⟨y, hu, hy⟩, hts⟩
      exact ⟨⟨r, y, ht, hu, rfl, hy⟩, hts⟩

theorem returns_rightNested (hf : G.overloads i.key = [f]) (hassoc : f.assoc = some .right)
    (hargs : f.args = [b, f.result]) (s' : Spot) :
    (infer G s (rightNested i ts t)).Returns clean r ↔
      (infer G s' t).Returns clean r ∧
        ∀ u ∈ ts, ∃ y, (infer G s' u).Returns clean y ∧ f.Gathers b r [y] := by
  induction ts generalizing s r with
  | nil => simp [rightNested, returns_infer_iff s s']
  | cons u ts ih =>
    have hpair (y x : SmtSort) : f.result? [y, x] none = some r ↔ r = x ∧ f.Gathers b x [y] :=
      FunDecl.result?_right hassoc hargs (List.cons_ne_nil y [])
    rw [rightNested, List.foldr_cons, ← rightNested, returns_app_pair hf s', List.forall_mem_cons]
    simp only [hpair, ih]
    constructor
    · rintro ⟨y, _, hu, ⟨ht, hts⟩, rfl, hy⟩
      exact ⟨ht, ⟨y, hu, hy⟩, hts⟩
    · rintro ⟨ht, ⟨y, hu, hy⟩, hts⟩
      exact ⟨y, r, hu, ⟨ht, hts⟩, rfl, hy⟩

/-- What is gathered at once is gathered one after another, and the other way round if there are no
parameters. -/
theorem gathers_forall₂ {R : Term → SmtSort → Prop} (hts : ts ≠ []) :
    ((∃ ys, List.Forall₂ R ts ys ∧ f.Gathers b r ys) →
      ∀ u ∈ ts, ∃ y, R u y ∧ f.Gathers b r [y]) ∧
    (f.params = [] → (∀ u ∈ ts, ∃ y, R u y ∧ f.Gathers b r [y]) →
      ∃ ys, List.Forall₂ R ts ys ∧ f.Gathers b r ys) := by
  rw [← exists_forall₂_iff]
  refine ⟨?_, fun hparams => ?_⟩
  · rintro ⟨ys, hys, hgathers⟩
    exact ⟨ys, hys, fun y hy => hgathers.single hy⟩
  · rintro ⟨ys, hys, hall⟩
    exact ⟨ys, hys, FunDecl.gathers_of_single hparams (ne_nil_of_forall₂ hys hts) hall⟩

theorem returns_app_chain {a : SmtSort} (hf : G.overloads i.key = [f]) (hassoc : f.assoc = none)
    (hchain : f.chain.isSome = true) (hargs : f.args = [a, a]) (hts : 2 ≤ ts.length) (s' : Spot) :
    (∃ r, (infer G s (.app ⟨i, none⟩ ts)).Returns clean r) ↔
      ∃ x, f.TakesAlike a x ∧ ∀ t ∈ ts, (infer G s' t).Returns clean x := by
  have hall (x : SmtSort) : (∀ t ∈ ts, (infer G s' t).Returns clean x) ↔
      ∃ rs, List.Forall₂ (fun t r => (infer G s' t).Returns clean r) ts rs ∧ ∀ y ∈ rs, y = x := by
    rw [exists_forall₂_iff]
    simp only [exists_eq_right]
  have hresult {rs : List SmtSort}
      (hrs : List.Forall₂ (fun t r => (infer G s' t).Returns clean r) ts rs) :=
    FunDecl.exists_result?_chain hassoc hchain hargs (hrs.length_eq ▸ hts)
  simp only [returns_app_of_single hf s', hall]
  constructor
  · rintro ⟨r, rs, hrs, hr⟩
    obtain ⟨x, hx, hys⟩ := (hresult hrs).mp ⟨r, hr⟩
    exact ⟨x, hx, rs, hrs, hys⟩
  · rintro ⟨x, hx, rs, hrs, hys⟩
    obtain ⟨r, hr⟩ := (hresult hrs).mpr ⟨x, hx, hys⟩
    exact ⟨r, rs, hrs, hr⟩

/-- As neighbours have one sort, so have all arguments. -/
theorem returns_app_chain_iff {a : SmtSort} (hf : G.overloads i.key = [f])
    (hassoc : f.assoc = none) (hchain : f.chain.isSome = true) (hargs : f.args = [a, a])
    (s' : Spot) :
    (∃ r, (infer G s (.app ⟨i, none⟩ (t :: u :: ts))).Returns clean r) ↔
      (t :: u :: ts).IsChain fun t u =>
        ∃ r, (infer G s' (.app ⟨i, none⟩ [t, u])).Returns clean r := by
  have hunique : Relator.RightUnique fun t r => (infer G s t).Returns clean r :=
    fun _ _ _ => Logged.Returns.unique
  have hpair (t u : Term) : (∃ r, (infer G s' (.app ⟨i, none⟩ [t, u])).Returns clean r) ↔
      ∃ x, f.TakesAlike a x ∧ (infer G s t).Returns clean x ∧ (infer G s u).Returns clean x := by
    rw [returns_app_chain hf hassoc hchain hargs le_rfl s]
    simp
  simp only [hpair]
  rw [isChain_common_iff hunique, returns_app_chain hf hassoc hchain hargs (by simp) s]

end

namespace Context

/-- In every state that is reached, a function with a single declaration can be applied to many
arguments as to two at a time. -/
theorem infer_nested (actions : List Action) {i : Identifier} {f : FunDecl}
    (hf : (after actions).stack.overloads i.key = [f]) (clean : Prop) (s s' : Spot) :
    let G := (after actions).stack
    (f.assoc = some .left → ∀ t ts r, ts ≠ [] →
      ((infer G s (.app ⟨i, none⟩ (t :: ts))).Returns clean r →
        (infer G s' (leftNested i t ts)).Returns clean r) ∧
      (f.params = [] → (infer G s' (leftNested i t ts)).Returns clean r →
        (infer G s (.app ⟨i, none⟩ (t :: ts))).Returns clean r)) ∧
    (f.assoc = some .right → ∀ ts t r, ts ≠ [] →
      ((infer G s (.app ⟨i, none⟩ (ts ++ [t]))).Returns clean r →
        (infer G s' (rightNested i ts t)).Returns clean r) ∧
      (f.params = [] → (infer G s' (rightNested i ts t)).Returns clean r →
        (infer G s (.app ⟨i, none⟩ (ts ++ [t]))).Returns clean r)) ∧
    (f.assoc = none → f.chain.isSome = true → ∀ t u ts,
      ((∃ r, (infer G s (.app ⟨i, none⟩ (t :: u :: ts))).Returns clean r) ↔
        (t :: u :: ts).IsChain fun t u =>
          ∃ r, (infer G s' (.app ⟨i, none⟩ [t, u])).Returns clean r)) := by
  intro G
  have hmem : f ∈ G.overloads i.key := hf ▸ List.mem_singleton_self f
  have hfits : f.Fits := (sound_after actions).fits (.function f) (Stack.has_of_mem_overloads hmem)
  refine ⟨fun hassoc t ts r hts => ?_, fun hassoc ts t r hts => ?_, fun hassoc hchain t u ts => ?_⟩
  · obtain ⟨b, hargs⟩ := hfits.left hassoc
    rw [returns_app_left hf hassoc hargs hts s, returns_leftNested hf hassoc hargs s]
    obtain ⟨hforward, hback⟩ := gathers_forall₂ (b := b) (f := f) (r := r) hts
    exact ⟨And.imp_right hforward, fun hparams => And.imp_right (hback hparams)⟩
  · obtain ⟨b, hargs⟩ := hfits.right hassoc
    rw [returns_app_right hf hassoc hargs hts s, returns_rightNested hf hassoc hargs s]
    obtain ⟨hforward, hback⟩ := gathers_forall₂ (b := b) (f := f) (r := r) hts
    exact ⟨And.imp_right hforward, fun hparams => And.imp_right (hback hparams)⟩
  · obtain ⟨a, hargs, -⟩ := hfits.chain hchain
    exact returns_app_chain_iff hf hassoc hchain hargs s'

/-- A theory with a sum that associates to the left. -/
def sumTheory : List Action :=
  [.root Check.bare ⟨⟨.nowhere, [], []⟩, .theory ⟨"Sums",
    [.sorts [⟨.simple "Int", 0, []⟩],
      .funs [.simple (.simple "x") [] (.simple "Int") [],
        .simple (.simple "+") [.simple "Int", .simple "Int"] (.simple "Int")
          [⟨":left-assoc", none⟩]]]⟩⟩]

theorem infer_nested_sum :
    let G := (after sumTheory).stack
    let s : Spot := .top ⟨.nowhere, [], []⟩
    let x : Term := .ident ⟨.simple "x", none⟩
    let plus : Identifier := .simple "+"
    (infer G s (.app ⟨plus, none⟩ [x, x, x])).Returns True (.simple "Int") ∧
      (infer G s (leftNested plus x [x, x])).Returns True (.simple "Int") ∧
      ∃ f, G.overloads plus.key = [f] ∧ f.assoc = some .left ∧ f.params = [] ∧
        ∀ t ts r, ts ≠ [] → ((infer G s (.app ⟨plus, none⟩ (t :: ts))).Returns True r ↔
          (infer G s (leftNested plus t ts)).Returns True r) := by
  intro G s x plus
  have hmap : (G.overloads plus.key).map (fun f => (f.assoc, f.params)) = [(some .left, [])] := by
    decide +kernel
  obtain ⟨f, hf, hleft⟩ := List.map_eq_singleton_iff.mp hmap
  obtain ⟨hassoc, hparams⟩ := Prod.mk.inj hleft
  have hnested := (infer_nested sumTheory hf True s s).1 hassoc
  have hsum : (infer G s (.app ⟨plus, none⟩ [x, x, x])).Returns True (.simple "Int") :=
    ⟨by decide +kernel, fun _ => by decide +kernel⟩
  exact ⟨hsum, (hnested x [x, x] _ (List.cons_ne_nil _ _)).1 hsum, f, hf, hassoc, hparams,
    fun t ts r hts => ⟨(hnested t ts r hts).1, (hnested t ts r hts).2 hparams⟩⟩

end Context

end WellSorted
