import Mathlib.Data.List.Nodup
import Mathlib.Data.Nat.Basic
import Mathlib.Order.Basic
import ExprSandbox.Proofs.Renaming

/-!
# Matching the identities of two evaluations

Two evaluations of one program may make the same arrays and objects in different orders, so the
same array has one index here and another index there.  A matching pairs the indices that are
known to belong together.  Two values *correspond* under a matching when every renaming that
agrees with it takes the one to the other: further pairs may be added later without looking at
the values again.

The second half is about values that one side has already made and the other side has yet to
make: `Pending` says that making them, whenever that happens, gives a corresponding value.
-/

namespace ExprSandbox

/-- Pairs of indices, no index in two of them. -/
structure Matching where
  pairs : List (Nat × Nat)
  left_nodup : (pairs.map Prod.fst).Nodup
  right_nodup : (pairs.map Prod.snd).Nodup

namespace Matching

/-- A matching is later than another one if it has all its pairs. -/
instance : Preorder Matching where
  le ρ ρ' := ρ.pairs ⊆ ρ'.pairs
  le_refl ρ := List.Subset.refl ρ.pairs
  le_trans _ _ _ h h' := List.Subset.trans h h'

/-- The matching before anything was made. -/
def empty : Matching := ⟨[], .nil, .nil⟩

/-- The matching with one more pair of indices that are both new. -/
def add (ρ : Matching) (i j : Nat) (hi : ∀ p ∈ ρ.pairs, p.1 ≠ i) (hj : ∀ p ∈ ρ.pairs, p.2 ≠ j) :
    Matching where
  pairs := (i, j) :: ρ.pairs
  left_nodup := by
    refine List.nodup_cons.mpr ⟨?_, ρ.left_nodup⟩
    intro hmem
    obtain ⟨p, hp, hpi⟩ := List.mem_map.mp hmem
    exact hi p hp hpi
  right_nodup := by
    refine List.nodup_cons.mpr ⟨?_, ρ.right_nodup⟩
    intro hmem
    obtain ⟨p, hp, hpj⟩ := List.mem_map.mp hmem
    exact hj p hp hpj

/-! ## Bounds -/

/-- The indices on the right are less than `n`. -/
def RightBelow (n : Nat) (ρ : Matching) : Prop :=
  ∀ p ∈ ρ.pairs, p.2 < n

/-- The indices on the left are less than `m`. -/
def LeftBelow (m : Nat) (ρ : Matching) : Prop :=
  ∀ p ∈ ρ.pairs, p.1 < m

/-- A bound on the right may be raised. -/
theorem RightBelow.mono {n n' : Nat} {ρ : Matching} (h : ρ.RightBelow n) (le : n ≤ n') :
    ρ.RightBelow n' :=
  fun p hp => Nat.lt_of_lt_of_le (h p hp) le

/-- A bound on the left may be raised. -/
theorem LeftBelow.mono {m m' : Nat} {ρ : Matching} (h : ρ.LeftBelow m) (le : m ≤ m') :
    ρ.LeftBelow m' :=
  fun p hp => Nat.lt_of_lt_of_le (h p hp) le

/-! ## Growth -/

/-- The matching grows by pairs whose left indices are among the given ones. -/
structure Grows (among : Nat → Prop) (ρ ρ' : Matching) : Prop where
  le : ρ ≤ ρ'
  new : ∀ p ∈ ρ'.pairs, p ∈ ρ.pairs ∨ among p.1

/-- The matching grows by pairs whose left indices are in `[a, b)`. -/
abbrev GrowsWithin (a b : Nat) : Matching → Matching → Prop :=
  Grows fun i => a ≤ i ∧ i < b

/-- The matching grows by pairs whose left indices are not in `[a, b)`. -/
abbrev GrowsOutside (a b : Nat) : Matching → Matching → Prop :=
  Grows fun i => i < a ∨ b ≤ i

/-- A matching that stays the same. -/
theorem Grows.refl {among : Nat → Prop} (ρ : Matching) : Grows among ρ ρ :=
  ⟨le_refl ρ, fun _ hp => .inl hp⟩

/-- Growing twice. -/
theorem Grows.trans {among : Nat → Prop} {ρ₁ ρ₂ ρ₃ : Matching} (h : Grows among ρ₁ ρ₂)
    (h' : Grows among ρ₂ ρ₃) : Grows among ρ₁ ρ₃ := by
  refine ⟨le_trans h.le h'.le, fun p hp => ?_⟩
  rcases h'.new p hp with hp | hp
  · exact h.new p hp
  · exact .inr hp

/-- More indices may be allowed. -/
theorem Grows.mono {among among' : Nat → Prop} {ρ ρ' : Matching} (h : Grows among ρ ρ')
    (hle : ∀ i, among i → among' i) : Grows among' ρ ρ' :=
  ⟨h.le, fun p hp => (h.new p hp).imp_right (hle p.1)⟩

/-- A pair that is added grows the matching by its left index. -/
theorem growsWithin_add {a b j : Nat} {ρ : Matching} (hb : ∀ p ∈ ρ.pairs, p.1 ≠ b)
    (hj : ∀ p ∈ ρ.pairs, p.2 ≠ j) (hab : a ≤ b) : ρ.GrowsWithin a (b + 1) (ρ.add b j hb hj) := by
  refine ⟨fun p hp => List.mem_cons_of_mem _ hp, fun p hp => ?_⟩
  rcases List.mem_cons.mp hp with rfl | hp
  · exact .inr ⟨hab, Nat.lt_succ_self b⟩
  · exact .inl hp

/-- A pair that is added raises the bound on the right by one. -/
theorem RightBelow.add {i n : Nat} {ρ : Matching} (h : ρ.RightBelow n)
    (hi : ∀ p ∈ ρ.pairs, p.1 ≠ i) (hn : ∀ p ∈ ρ.pairs, p.2 ≠ n) :
    (ρ.add i n hi hn).RightBelow (n + 1) := by
  intro p hp
  rcases List.mem_cons.mp hp with rfl | hp
  · exact Nat.lt_succ_self n
  · exact Nat.lt_succ_of_lt (h p hp)

/-- Growth in an interval is growth in a larger one. -/
theorem GrowsWithin.widen {a b a' b' : Nat} {ρ ρ' : Matching} (h : GrowsWithin a b ρ ρ')
    (ha : a' ≤ a) (hb : b ≤ b') : GrowsWithin a' b' ρ ρ' :=
  h.mono fun _ hi => ⟨le_trans ha hi.1, lt_of_lt_of_le hi.2 hb⟩

/-- Growth outside of an interval is growth outside of a smaller one. -/
theorem GrowsOutside.narrow {a b a' b' : Nat} {ρ ρ' : Matching} (h : GrowsOutside a b ρ ρ')
    (ha : a ≤ a') (hb : b' ≤ b) : GrowsOutside a' b' ρ ρ' :=
  h.mono fun _ hi => hi.imp (lt_of_lt_of_le · ha) (le_trans hb)

/-- Growth in an interval is growth outside of any interval before it. -/
theorem GrowsWithin.outside_before {a b c d : Nat} {ρ ρ' : Matching} (h : GrowsWithin c d ρ ρ')
    (hbc : b ≤ c) : GrowsOutside a b ρ ρ' :=
  h.mono fun _ hi => .inr (le_trans hbc hi.1)

/-- Growth in an interval is growth outside of any interval after it. -/
theorem GrowsWithin.outside_after {a b c d : Nat} {ρ ρ' : Matching} (h : GrowsWithin a b ρ ρ')
    (hbc : b ≤ c) : GrowsOutside c d ρ ρ' :=
  h.mono fun _ hi => .inl (lt_of_lt_of_le hi.2 hbc)

/-- Growth in an interval keeps left indices below its end. -/
theorem GrowsWithin.leftBelow {a b m : Nat} {ρ ρ' : Matching} (h : GrowsWithin a b ρ ρ')
    (hρ : ρ.LeftBelow m) (hm : m ≤ b) : ρ'.LeftBelow b := by
  intro p hp
  rcases h.new p hp with hp | hp
  · exact lt_of_lt_of_le (hρ p hp) hm
  · exact hp.2

end Matching

/-! ## Renamings that agree with a matching -/

/-- The renaming takes the left index of every pair to the right one and moves nothing outside
of the run. -/
structure Renaming.Agrees (run : Nat) (ρ : Matching) (π : Renaming) : Prop where
  within : π.Within run
  pairs : ∀ p ∈ ρ.pairs, π ⟨run, p.1⟩ = ⟨run, p.2⟩

/-- What agrees with a later matching agrees with an earlier one. -/
theorem Renaming.Agrees.mono {run : Nat} {ρ ρ' : Matching} {π : Renaming} (h : π.Agrees run ρ')
    (le : ρ ≤ ρ') : π.Agrees run ρ :=
  ⟨h.within, fun p hp => h.pairs p (le hp)⟩

/-- Nothing leaves a run outside of which nothing is moved, because renamings are one for one. -/
theorem Renaming.Within.run_apply {run : Nat} {π : Renaming} (h : π.Within run) (i : Nat) :
    (π ⟨run, i⟩).run = run := by
  by_contra hne
  have hfix : π (π ⟨run, i⟩) = π ⟨run, i⟩ := h _ hne
  exact hne (congrArg Identity.run (π.injective hfix))

/-- Two identities of the run may be exchanged afterwards. -/
theorem Renaming.Within.trans_swap {run : Nat} {π : Renaming} (h : π.Within run) {x y : Identity}
    (hx : x.run = run) (hy : y.run = run) : Renaming.Within (π.trans (Equiv.swap x y)) run := by
  intro i hi
  rw [Equiv.trans_apply, h i hi]
  refine Equiv.swap_apply_of_ne_of_ne ?_ ?_
  · rintro rfl
    exact hi hx
  · rintro rfl
    exact hi hy

/-- **Some renaming agrees with a matching.**  Each pair is put right by an exchange after the
renaming for the other pairs, which the exchange does not disturb: the index it brings to its
place and the index it drives away are both in no other pair. -/
theorem Matching.exists_agrees (run : Nat) (ρ : Matching) : ∃ π : Renaming, π.Agrees run ρ := by
  obtain ⟨pairs, left_nodup, right_nodup⟩ := ρ
  induction pairs with
  | nil => exact ⟨Equiv.refl _, fun _ _ => rfl, fun _ hp => nomatch hp⟩
  | cons p rest ih =>
    obtain ⟨hleft, left_nodup'⟩ := List.nodup_cons.mp left_nodup
    obtain ⟨hright, right_nodup'⟩ := List.nodup_cons.mp right_nodup
    obtain ⟨π, hwithin, hpairs⟩ := ih left_nodup' right_nodup'
    refine ⟨π.trans (Equiv.swap (π ⟨run, p.1⟩) ⟨run, p.2⟩),
      hwithin.trans_swap (hwithin.run_apply p.1) rfl, fun q hq => ?_⟩
    rw [Equiv.trans_apply]
    rcases List.mem_cons.mp hq with rfl | hq
    · exact Equiv.swap_apply_left _ _
    · have hqp : q.1 ≠ p.1 := fun h => hleft (h ▸ List.mem_map_of_mem hq)
      have hqp' : q.2 ≠ p.2 := fun h => hright (h ▸ List.mem_map_of_mem hq)
      rw [hpairs q hq]
      -- the indices of another pair are neither of the two that are exchanged
      refine Equiv.swap_apply_of_ne_of_ne ?_ ?_
      · intro h
        rw [← hpairs q hq] at h
        exact hqp (congrArg Identity.index (π.injective h))
      · intro h
        exact hqp' (congrArg Identity.index h)

/-! ## Correspondence -/

section Corresponds

variable {α β : Type} [Renamable α] [Renamable β] {run : Nat} {ρ ρ' : Matching}

/-- Every renaming that agrees with the matching takes `a` to `a'`. -/
def Corresponds (run : Nat) (ρ : Matching) (a a' : α) : Prop :=
  ∀ π : Renaming, π.Agrees run ρ → rename π a = a'

/-- What corresponds still does when pairs are added. -/
theorem Corresponds.mono {a a' : α} (h : Corresponds run ρ a a') (le : ρ ≤ ρ') :
    Corresponds run ρ' a a' :=
  fun π hπ => h π (hπ.mono le)

/-- What holds no identity of the run corresponds to itself. -/
theorem Fresh.corresponds {a : α} (h : Fresh run a) : Corresponds run ρ a a :=
  fun π hπ => h π hπ.within

/-- Parts that correspond make up pairs that correspond. -/
theorem Corresponds.pair {a a' : α} {b b' : β} (ha : Corresponds run ρ a a')
    (hb : Corresponds run ρ b b') : Corresponds run ρ (a, b) (a', b') :=
  fun π hπ => by rw [rename_pair, ha π hπ, hb π hπ]

/-- Functions that commute with renaming keep correspondence. -/
theorem Corresponds.map {f : α → β} (hf : ∀ π a, rename π (f a) = f (rename π a)) {a a' : α}
    (h : Corresponds run ρ a a') : Corresponds run ρ (f a) (f a') :=
  fun π hπ => by rw [hf, h π hπ]

/-- Some renaming takes a value to one that it corresponds to. -/
theorem Corresponds.exists_rename {a a' : α} (h : Corresponds run ρ a a') :
    ∃ π : Renaming, π.Agrees run ρ ∧ rename π a = a' := by
  obtain ⟨π, hπ⟩ := ρ.exists_agrees run
  exact ⟨π, hπ, h π hπ⟩

/-- Lists correspond when their items do. -/
theorem Corresponds.of_forall₂ {as as' : List α} (h : List.Forall₂ (Corresponds run ρ) as as') :
    Corresponds run ρ as as' := by
  intro π hπ
  induction h with
  | nil => rfl
  | cons head _ ih => rw [rename_cons, head π hπ, ih]

/-- The items of lists that correspond do so too. -/
theorem Corresponds.forall₂ {as as' : List α} (h : Corresponds run ρ as as') :
    List.Forall₂ (Corresponds run ρ) as as' := by
  obtain ⟨π₀, hπ₀⟩ := ρ.exists_agrees run
  induction as generalizing as' with
  | nil =>
    rw [← h π₀ hπ₀]
    exact .nil
  | cons a as ih =>
    rw [← h π₀ hπ₀, rename_cons]
    have hcons : ∀ π, π.Agrees run ρ → rename π a :: rename π as = rename π₀ a :: rename π₀ as :=
      fun π hπ => (h π hπ).trans (h π₀ hπ₀).symm
    refine .cons (fun π hπ => (List.cons.inj (hcons π hπ)).1) (ih ?_)
    exact fun π hπ => (List.cons.inj (hcons π hπ)).2

end Corresponds

namespace Corresponds

variable {run : Nat} {ρ : Matching} {v v' : Value}

/-- Values that correspond coerce alike. -/
theorem coercesLike (h : Corresponds run ρ v v') : Value.CoercesLike v' v := by
  obtain ⟨π, -, rfl⟩ := h.exists_rename
  exact v.coercesLike_rename π

/-- A function corresponds to itself only. -/
theorem eq_function {f : Function} (h : Corresponds run ρ (.function f) v') :
    v' = .function f := by
  obtain ⟨π, -, rfl⟩ := h.exists_rename
  rfl

/-- What corresponds to a value that is no function is none. -/
theorem ne_function (h : Corresponds run ρ v v') (hv : ∀ f, v ≠ .function f) (f : Function) :
    v' ≠ .function f := by
  obtain ⟨π, -, rfl⟩ := h.exists_rename
  intro heq
  cases v with
  | function g => exact hv g rfl
  | _ => cases heq

end Corresponds

/-! ## Values still to be made -/

section Pending

variable {α β : Type} [Renamable α] [Renamable β] {run : Nat} {ρ : Matching} {a b c : Nat}

/-- One side has made `v`, and its indices that are not matched yet are in `[a, b)`; the other
side makes it with `make`, which counts from the number of what was made before.  Whenever that
happens, what is made corresponds to `v` once some of these indices are matched. -/
def Pending (run : Nat) (ρ : Matching) (a b : Nat) (make : Nat → α × Nat) (v : α) : Prop :=
  ∀ (ρ' : Matching) (n : Nat), ρ.GrowsOutside a b ρ' → ρ'.RightBelow n →
    n ≤ (make n).2 ∧ ∃ ρ'' : Matching, ρ'.GrowsWithin a b ρ'' ∧ ρ''.RightBelow (make n).2 ∧
      Corresponds run ρ'' v (make n).1

namespace Pending

variable {make : Nat → α × Nat} {v v' : α}

/-- A value that is there already. -/
theorem of_corresponds (hmake : ∀ n, make n = (v', n)) (h : Corresponds run ρ v v') :
    Pending run ρ a b make v := by
  intro ρ' n hρ' hn
  rw [hmake n]
  exact ⟨le_refl n, ρ', .refl ρ', hn, h.mono hρ'.le⟩

/-- Other indices may be matched in the meantime. -/
theorem later {ρ₁ : Matching} (h : Pending run ρ a b make v) (hρ₁ : ρ.GrowsOutside a b ρ₁) :
    Pending run ρ₁ a b make v :=
  fun ρ' n hρ' hn => h ρ' n (hρ₁.trans hρ') hn

/-- The indices may be taken from a larger interval. -/
theorem widen {a' b' : Nat} (h : Pending run ρ a b make v) (ha : a' ≤ a) (hb : b ≤ b') :
    Pending run ρ a' b' make v := by
  intro ρ' n hρ' hn
  obtain ⟨hle, ρ₁, hgrow, hbelow, hv⟩ := h ρ' n (hρ'.narrow ha hb) hn
  exact ⟨hle, ρ₁, hgrow.widen ha hb, hbelow, hv⟩

/-- Two values that are made one after the other. -/
theorem pair {make' : Nat → β × Nat} {u : β} (hab : a ≤ b) (hbc : b ≤ c)
    (h : Pending run ρ a b make v) (h' : Pending run ρ b c make' u) :
    Pending run ρ a c
      (fun n => (((make n).1, (make' (make n).2).1), (make' (make n).2).2)) (v, u) := by
  intro ρ' n hρ' hn
  obtain ⟨hle, ρ₁, hgrow, hbelow, hv⟩ := h ρ' n (hρ'.narrow (le_refl a) hbc) hn
  -- what the first value has matched lies before what the second one may match
  have hrest : ρ.GrowsOutside b c ρ₁ :=
    (hρ'.narrow hab (le_refl c)).trans (hgrow.outside_after (le_refl b))
  obtain ⟨hle', ρ₂, hgrow', hbelow', hu⟩ := h' ρ₁ (make n).2 hrest hbelow
  refine ⟨le_trans hle hle', ρ₂, ?_, hbelow', (hv.mono hgrow'.le).pair hu⟩
  exact (hgrow.widen (le_refl a) hbc).trans (hgrow'.widen hab (le_refl c))

/-- A function of a value that is made, if it commutes with renaming. -/
theorem map {f : α → β} (hf : ∀ π a, rename π (f a) = f (rename π a))
    (h : Pending run ρ a b make v) :
    Pending run ρ a b (fun n => (f (make n).1, (make n).2)) (f v) := by
  intro ρ' n hρ' hn
  obtain ⟨hle, ρ₁, hgrow, hbelow, hv⟩ := h ρ' n hρ' hn
  exact ⟨hle, ρ₁, hgrow, hbelow, hv.map hf⟩

/-- A value with an identity of its own, which is handed out after its parts were made. -/
theorem build {f : Identity → α → Value}
    (hf : ∀ π i a, rename π (f i a) = f (π i) (rename π a)) (hab : a ≤ b) (hρ : ρ.LeftBelow b)
    (h : Pending run ρ a b make v) :
    Pending run ρ a (b + 1) (fun n => (f ⟨run, (make n).2⟩ (make n).1, (make n).2 + 1))
      (f ⟨run, b⟩ v) := by
  intro ρ' n hρ' hn
  obtain ⟨hle, ρ₁, hgrow, hbelow, hv⟩ := h ρ' n (hρ'.narrow (le_refl a) (Nat.le_succ b)) hn
  have hleft : ∀ p ∈ ρ₁.pairs, p.1 ≠ b := by
    intro p hp
    rcases hgrow.new p hp with hp | hp
    · rcases hρ'.new p hp with hp | hp
      · exact (hρ p hp).ne
      · omega
    · omega
  have hright : ∀ p ∈ ρ₁.pairs, p.2 ≠ (make n).2 := fun p hp => (hbelow p hp).ne
  -- the identity of the whole is matched last
  have hadd : ρ₁.GrowsWithin a (b + 1) (ρ₁.add b (make n).2 hleft hright) :=
    Matching.growsWithin_add hleft hright hab
  refine ⟨Nat.le_succ_of_le hle, ρ₁.add b (make n).2 hleft hright,
    (hgrow.widen (le_refl a) (Nat.le_succ b)).trans hadd, hbelow.add hleft hright, ?_⟩
  intro π hπ
  rw [hf, hπ.pairs (b, (make n).2) List.mem_cons_self, hv π (hπ.mono hadd.le)]

end Pending

end Pending

end ExprSandbox
