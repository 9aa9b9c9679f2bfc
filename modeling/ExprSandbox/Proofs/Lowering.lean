import ExprSandbox.Expression.Evaluation
import ExprSandbox.Proofs.Matching
import ExprSandbox.Proofs.Running
import ExprSandbox.Routine.Lowering

/-!
# What lowered code simulates

Lowering takes an expression apart into statements, which are run at once, and an operand, which
is evaluated wherever it ends up.  `Simulates` states what makes up for the delay.  After the
statements the value of the expression is pending in the operand; the operand reads temporaries
of its own code only, and the code touches no other temporaries, so code that runs in between
does not disturb it.

The theorems below are the building blocks of `Simulates`: code in sequence, a function of a
value, a value with a new identity, a value put into a temporary, and two blocks of which one is
run.
-/

namespace ExprSandbox

/-! ## Temporaries -/

/-- Two scopes are the same but for temporaries outside of `U`. -/
structure Scope.Agrees (U : Nat → Prop) (s s' : Scope) : Prop where
  context : s'.context = s.context
  run : s'.run = s.run
  size : s'.temps.size = s.temps.size
  temps : ∀ i, U i → s'.temps.getD i .undefined = s.temps.getD i .undefined

/-- The temporaries outside of `[i, k)`. -/
def outside (i k x : Nat) : Prop := x < i ∨ k ≤ x

/-- What is outside of an interval is outside of a smaller one. -/
theorem outside_mono {i k i₀ k₀ x : Nat} (hi : i₀ ≤ i) (hk : k ≤ k₀) (hx : outside i₀ k₀ x) :
    outside i k x := by
  unfold outside at hx ⊢
  omega

/-- The temporaries before `k`. -/
def below (k x : Nat) : Prop := x < k

namespace Scope.Agrees

variable {U U' : Nat → Prop} {s s₁ s₂ : Scope}

/-- A scope agrees with itself. -/
theorem refl (U : Nat → Prop) (s : Scope) : s.Agrees U s := ⟨rfl, rfl, rfl, fun _ _ => rfl⟩

/-- Agreement is transitive. -/
theorem trans (h : s.Agrees U s₁) (h' : s₁.Agrees U s₂) : s.Agrees U s₂ :=
  ⟨h'.context.trans h.context, h'.run.trans h.run, h'.size.trans h.size,
    fun i hi => (h'.temps i hi).trans (h.temps i hi)⟩

/-- Scopes that agree on more temporaries agree on fewer. -/
theorem mono (h : s.Agrees U s₁) (hU : ∀ i, U' i → U i) : s.Agrees U' s₁ :=
  ⟨h.context, h.run, h.size, fun i hi => h.temps i (hU i hi)⟩

end Scope.Agrees

namespace Frame

/-- A temporary holds what was put into it, however far the frame has counted. -/
theorem getD_withMade_set (f : Frame) {t : Nat} (ht : t < f.temps.size) (n : Nat) (v : Value) :
    ((f.withMade n).set t v).temps.getD t .undefined = v :=
  (f.withMade n).getD_set ht v

/-- Putting a value into a temporary of `[i, k)` changes nothing outside. -/
theorem agrees_set (f : Frame) {i t k : Nat} (hi : i ≤ t) (hk : t < k) (v : Value) :
    f.toScope.Agrees (outside i k) (f.set t v).toScope where
  context := rfl
  run := rfl
  size := f.size_temps_set t v
  temps x hx := by
    have hne : x ≠ t := by
      unfold outside at hx
      omega
    exact f.getD_set_of_ne hne v

end Frame

/-- What an operand evaluates to, wherever that happens. -/
abbrev Operand.later (o : Operand) : Scope → Nat → Value × Nat := fun s n => o.eval s n

/-- The evaluation gives the same in all scopes that agree with `s` on `U`. -/
def Stable {γ : Type} (U : Nat → Prop) (s : Scope) (eval : Scope → γ) : Prop :=
  ∀ s', s.Agrees U s' → eval s' = eval s

/-- What is stable stays so in another scope that agrees. -/
theorem Stable.of_agrees {γ : Type} {U U' : Nat → Prop} {s s' : Scope} {eval : Scope → γ}
    (h : Stable U s eval) (hs : s.Agrees U s') (hU : ∀ i, U i → U' i) : Stable U' s' eval := by
  intro s'' hs''
  rw [h s' hs, h s'' (hs.trans (hs''.mono hU))]

/-! ## Before and after -/

section Simulates

variable {α β : Type} [Renamable α] [Renamable β]

/-- A frame in which code may start that uses the temporaries `[j, k)`, after `m` arrays and
objects were made on the other side. -/
structure Ready (s : Setting) (j k : Nat) (ρ : Matching) (m : Nat) (f : Frame) : Prop where
  context : f.context = s.context
  run : f.run = s.run
  clean : ∀ i, j ≤ i → i < k → f.temps.getD i .undefined = .undefined
  room : k ≤ f.temps.size
  left : ρ.LeftBelow m
  right : ρ.RightBelow f.made

/-- What has changed after code that touches the temporaries `[i, k)`, while the other side has
come from `a` to `m'` in making arrays and objects. -/
structure Advanced (i k a : Nat) (ρ : Matching) (f : Frame) (ρ' : Matching) (m' : Nat)
    (f' : Frame) : Prop where
  le : a ≤ m'
  grows : ρ.GrowsWithin a m' ρ'
  left : ρ'.LeftBelow m'
  right : ρ'.RightBelow f'.made
  keeps : f.toScope.Agrees (outside i k) f'.toScope

/-- After the code, the value `r.1` is pending in what `eval` evaluates. -/
structure Reached (run i k a : Nat) (ρ : Matching) (f : Frame) (eval : Scope → Nat → α × Nat)
    (ρ' : Matching) (r : α × Nat) (f' : Frame) : Prop extends Advanced i k a ρ f ρ' r.2 f' where
  stable : Stable (below k) f'.toScope eval
  pending : Pending run ρ' a r.2 (eval f'.toScope) r.1

/-- The code asks for the same as the process `p` and leaves its value pending in `eval`.  It
needs `[j, k)` to be fresh and touches `[i, k)` only. -/
structure Simulates (s : Setting) (i j k : Nat) (p : Nat → Process (α × Nat))
    (code : List Statement) (eval : Scope → Nat → α × Nat) : Prop where
  le : i ≤ j
  le' : j ≤ k
  related : ∀ ρ m f, Ready s j k ρ m f →
    Process.Related (Corresponds s.run) (Reached s.run i k m ρ f eval) ρ (p m)
      (Statement.runAll code f)

/-- Code goes on where other code has ended. -/
theorem Ready.after {s : Setting} {i j k l a m m' : Nat} {ρ ρ' : Matching} {f f' : Frame}
    (h : Ready s j l ρ m f) (h' : Advanced i k a ρ f ρ' m' f') (hj : j ≤ k) :
    Ready s k l ρ' m' f' where
  context := h'.keeps.context.trans h.context
  run := h'.keeps.run.trans h.run
  clean x hx hl := (h'.keeps.temps x (.inr hx)).trans (h.clean x (le_trans hj hx) hl)
  room := h'.keeps.size ▸ h.room
  left := h'.left
  right := h'.right

/-- The temporaries before those that other code has touched are still fresh. -/
theorem Ready.before {s : Setting} {j k l l' a m m' : Nat} {ρ ρ' : Matching} {f f' : Frame}
    (h : Ready s j k ρ m f) (h' : Advanced l l' a ρ f ρ' m' f') (hl : l ≤ k) :
    Ready s j l ρ' m' f' where
  context := h'.keeps.context.trans h.context
  run := h'.keeps.run.trans h.run
  clean x hx hx' := (h'.keeps.temps x (.inl hx')).trans (h.clean x hx (lt_of_lt_of_le hx' hl))
  room := h'.keeps.size ▸ le_trans hl h.room
  left := h'.left
  right := h'.right

/-- Code may start with fewer temporaries than there are. -/
theorem Ready.narrow {s : Setting} {j k j' k' m : Nat} {ρ : Matching} {f : Frame}
    (h : Ready s j k ρ m f) (hj : j ≤ j') (hk : k' ≤ k) : Ready s j' k' ρ m f :=
  ⟨h.context, h.run, fun x hx hx' => h.clean x (le_trans hj hx) (lt_of_lt_of_le hx' hk),
    le_trans hk h.room, h.left, h.right⟩

/-- The frame may count further on its own. -/
theorem Ready.withMade {s : Setting} {j k m n : Nat} {ρ ρ' : Matching} {f : Frame}
    (h : Ready s j k ρ m f) (hρ : ρ'.LeftBelow m) (hn : ρ'.RightBelow n) :
    Ready s j k ρ' m (f.withMade n) :=
  ⟨h.context, h.run, h.clean, h.room, hρ, hn⟩

/-- Two stretches of code, one after the other. -/
theorem Advanced.trans {i k i' k' i₀ k₀ a a' m₁ m₂ : Nat} {ρ ρ₁ ρ₂ : Matching} {f f₁ f₂ : Frame}
    (h : Advanced i k a ρ f ρ₁ m₁ f₁) (h' : Advanced i' k' a' ρ₁ f₁ ρ₂ m₂ f₂)
    (ha : a ≤ a') (hi : i₀ ≤ i) (hi' : i₀ ≤ i') (hk : k ≤ k₀) (hk' : k' ≤ k₀) :
    Advanced i₀ k₀ a ρ f ρ₂ m₂ f₂ where
  le := le_trans ha h'.le
  grows := by
    -- a new pair is new in one of the stretches, and the first one ends where the second starts
    refine ⟨le_trans h.grows.le h'.grows.le, fun p hp => ?_⟩
    rcases h'.grows.new p hp with hp₁ | hp₁
    · rcases h.grows.new p hp₁ with hp₀ | hp₀
      · exact .inl hp₀
      · exact .inr ⟨hp₀.1, h'.left p hp⟩
    · exact .inr ⟨le_trans ha hp₁.1, hp₁.2⟩
  left := h'.left
  right := h'.right
  keeps := by
    refine (h.keeps.mono ?_).trans (h'.keeps.mono ?_)
    · exact fun _ => outside_mono hi hk
    · exact fun _ => outside_mono hi' hk'

/-- Touching fewer temporaries is touching no others. -/
theorem Advanced.widen {i k i₀ k₀ a m' : Nat} {ρ ρ' : Matching} {f f' : Frame}
    (h : Advanced i k a ρ f ρ' m' f') (hi : i₀ ≤ i) (hk : k ≤ k₀) :
    Advanced i₀ k₀ a ρ f ρ' m' f' where
  le := h.le
  grows := h.grows
  left := h.left
  right := h.right
  keeps := h.keeps.mono fun _ => outside_mono hi hk

/-- A value in a temporary is there already. -/
theorem Reached.temp {run i k a t : Nat} {ρ ρ' : Matching} {f f' : Frame} {r : Value × Nat}
    (h : Advanced i k a ρ f ρ' r.2 f') (ht : t < k)
    (hv : Corresponds run ρ' r.1 (f'.temps.getD t .undefined)) :
    Reached run i k a ρ f (Operand.temp t).later ρ' r f' where
  toAdvanced := h
  stable s hs := by
    funext n
    show (s.temps.getD t .undefined, n) = _
    rw [hs.temps t ht]
    rfl
  pending := .of_corresponds (fun _ => rfl) hv

/-- What is reached from a later frame is reached from an earlier one. -/
theorem Advanced.reached {run i k l a m₁ : Nat} {ρ ρ₁ ρ' : Matching} {f f₁ f₁' f' : Frame}
    {eval : Scope → Nat → α × Nat} {r : α × Nat} (h : Advanced i k a ρ f ρ₁ m₁ f₁)
    (h' : Reached run i l m₁ ρ₁ f₁' eval ρ' r f') (hf₁ : f₁'.toScope = f₁.toScope) (hk : k ≤ l) :
    Reached run i l a ρ f eval ρ' r f' := by
  have hkeeps : f₁.toScope.Agrees (outside i l) f'.toScope := hf₁ ▸ h'.keeps
  have h'' : Advanced i l m₁ ρ₁ f₁ ρ' r.2 f' := ⟨h'.le, h'.grows, h'.left, h'.right, hkeeps⟩
  exact ⟨h.trans h'' h.le (le_refl i) (le_refl i) hk (le_refl l), h'.stable,
    h'.pending.widen h.le (le_refl r.2)⟩

/-! ## Code in sequence -/

/-- Evaluations in sequence. -/
def inOrder (eval : Scope → Nat → α × Nat) (eval' : Scope → Nat → β × Nat) (s : Scope) (n : Nat) :
    (α × β) × Nat :=
  (((eval s n).1, (eval' s (eval s n).2).1), (eval' s (eval s n).2).2)

namespace Simulates

variable {s : Setting} {i j k l : Nat} {p p' : Nat → Process (α × Nat)}
variable {q : Nat → Process (β × Nat)} {code code' : List Statement}
variable {eval : Scope → Nat → α × Nat} {eval' : Scope → Nat → β × Nat}

/-- Processes and evaluations that are equal simulate the same. -/
theorem congr {e' : Scope → Nat → α × Nat} (h : Simulates s i j k p code eval)
    (hp : ∀ m, p' m = p m) (he : ∀ sc n, e' sc n = eval sc n) : Simulates s i j k p' code e' := by
  obtain rfl : p' = p := funext hp
  obtain rfl : e' = eval := funext fun sc => funext fun n => he sc n
  exact h

/-- Code may be said to use more temporaries. -/
theorem widen {i' k' : Nat} (h : Simulates s i j k p code eval) (hi : i' ≤ i) (hk : k ≤ k') :
    Simulates s i' j k' p code eval := by
  refine ⟨le_trans hi h.le, le_trans h.le' hk, fun ρ m f hf => ?_⟩
  refine (h.related ρ m f (hf.narrow (le_refl j) hk)).imp fun ρ' r f' _ hr => ?_
  exact ⟨hr.toAdvanced.widen hi hk,
    hr.stable.of_agrees (.refl _ _) fun x hx => lt_of_lt_of_le hx hk, hr.pending⟩

/-- Code may be said to start with more fresh temporaries. -/
theorem start {j' : Nat} (h : Simulates s i j k p code eval) (hi : i ≤ j') (hj : j' ≤ j) :
    Simulates s i j' k p code eval :=
  ⟨hi, le_trans hj h.le', fun ρ m f hf => h.related ρ m f (hf.narrow hj (le_refl k))⟩

/-- A value that needs no code and is the same in all scopes of the setting. -/
theorem pure {v : α} (next : Nat) (hv : ∀ ρ sc, sc.context = s.context → sc.run = s.run →
      ∀ n, ∃ v', eval sc n = (v', n) ∧ Corresponds s.run ρ v v')
    (hs : ∀ sc sc' : Scope, sc'.context = sc.context → eval sc' = eval sc) :
    Simulates s next next next (fun m => .done (v, m)) [] eval := by
  refine ⟨le_refl _, le_refl _, fun ρ m f hf => ?_⟩
  rw [Statement.runAll_nil]
  refine .done (le_refl ρ) ⟨⟨le_refl m, .refl ρ, hf.left, hf.right, .refl _ _⟩, ?_, ?_⟩
  · exact fun sc hsc => hs _ _ hsc.context
  · intro ρ' n hρ' hn
    obtain ⟨v', hv', hcorr⟩ := hv ρ' f.toScope hf.context hf.run n
    rw [hv']
    exact ⟨le_refl n, ρ', .refl ρ', hn, hcorr⟩

/-- No values, which need no code. -/
theorem nil (next : Nat) :
    Simulates s next next next (fun m => .done (([] : List α), m)) [] fun _ n => ([], n) :=
  .pure next (fun _ _ _ _ _ => ⟨[], rfl, fun _ _ => rfl⟩) fun _ _ _ => rfl

/-- **Code in sequence.**  The first value is pending while the second code runs: that code makes
and matches other indices and touches other temporaries. -/
theorem seq (h : Simulates s i j k p code eval) (h' : Simulates s k k l q code' eval') :
    Simulates s i j l
      (fun m => (p m).bind fun a => (q a.2).map fun b => ((a.1, b.1), b.2))
      (code ++ code') (inOrder eval eval') := by
  refine ⟨h.le, le_trans h.le' h'.le', fun ρ m f hf => ?_⟩
  rw [Statement.runAll_append]
  refine (h.related ρ m f (hf.narrow (le_refl j) h'.le')).bind fun ρ₁ a f₁ _ ha => ?_
  have hf₁ : Ready s k l ρ₁ a.2 f₁ := hf.after ha.toAdvanced h.le'
  refine (h'.related ρ₁ a.2 f₁ hf₁).mapLeft fun ρ₂ b f₂ _ hb => ?_
  have hkeeps : f₁.toScope.Agrees (below k) f₂.toScope := hb.keeps.mono fun x hx => .inl hx
  -- the second code has matched indices that were made after the first value
  have hpending : Pending s.run ρ₂ m a.2 (eval f₂.toScope) a.1 := by
    rw [ha.stable f₂.toScope hkeeps]
    exact ha.pending.later (hb.grows.outside_before (le_refl a.2))
  refine ⟨ha.toAdvanced.trans hb.toAdvanced ha.le (le_refl i) (le_trans h.le h.le') h'.le'
    (le_refl l), ?_, hpending.pair ha.le hb.le hb.pending⟩
  have hstable : Stable (below l) f₂.toScope eval :=
    ha.stable.of_agrees hkeeps fun x hx => lt_of_lt_of_le hx h'.le'
  intro sc hsc
  funext n
  rw [inOrder, inOrder, hstable sc hsc, hb.stable sc hsc]

/-- A function of a value, if it commutes with renaming. -/
theorem map {g : α → β} (hg : ∀ π a, rename π (g a) = g (rename π a))
    (h : Simulates s i j k p code eval) :
    Simulates s i j k (fun m => (p m).map fun a => (g a.1, a.2)) code
      (fun sc n => (g (eval sc n).1, (eval sc n).2)) := by
  refine ⟨h.le, h.le', fun ρ m f hf => ?_⟩
  refine (h.related ρ m f hf).mapLeft fun ρ' r f' _ hr => ?_
  refine ⟨hr.toAdvanced, fun sc hsc => ?_, hr.pending.map hg⟩
  rw [hr.stable sc hsc]

/-- A value with an identity of its own, made of parts. -/
theorem build {g : Identity → α → Value}
    (hg : ∀ π i a, rename π (g i a) = g (π i) (rename π a))
    (h : Simulates s i j k p code eval) :
    Simulates s i j k (fun m => (p m).map fun a => (g ⟨s.run, a.2⟩ a.1, a.2 + 1)) code
      (fun sc n => (g ⟨sc.run, (eval sc n).2⟩ (eval sc n).1, (eval sc n).2 + 1)) := by
  refine ⟨h.le, h.le', fun ρ m f hf => ?_⟩
  refine (h.related ρ m f hf).mapLeft fun ρ' r f' _ hr => ?_
  have hrun : f'.run = s.run := hr.keeps.run.trans hf.run
  -- the identity is handed out here on one side, and wherever the operand ends up on the other
  refine ⟨⟨Nat.le_succ_of_le hr.le, ?_, hr.left.mono (Nat.le_succ _), hr.right, hr.keeps⟩, ?_, ?_⟩
  · exact hr.grows.widen (le_refl m) (Nat.le_succ _)
  · intro sc hsc
    simp only [hr.stable sc hsc, hsc.run]
  · rw [hrun]
    exact hr.pending.build hg hr.le hr.left

/-- A function of two values that are evaluated one after the other. -/
theorem combine {γ : Type} [Renamable γ] {g : α → β → γ}
    (hg : ∀ π a b, rename π (g a b) = g (rename π a) (rename π b))
    (h : Simulates s i j k p code eval) (h' : Simulates s k k l q code' eval') :
    Simulates s i j l (fun m => (p m).bind fun a => (q a.2).map fun b => (g a.1 b.1, b.2))
      (code ++ code')
      (fun sc n => (g (eval sc n).1 (eval' sc (eval sc n).2).1, (eval' sc (eval sc n).2).2)) := by
  refine ((h.seq h').map (g := fun x : α × β => g x.1 x.2) fun π x => hg π x.1 x.2).congr
    (fun m => ?_) fun sc n => rfl
  rw [Process.bind_map]
  congr 1
  funext a
  show _ = ((q a.2).map fun b => ((a.1, b.1), b.2)).bind _
  rw [Process.map_bind]
  rfl

/-- Code whose value is dropped. -/
theorem drop (h : Simulates s i j k p code eval) (h' : Simulates s k k l q code' eval') :
    Simulates s i j l (fun m => (p m).bind fun a => q a.2) (code ++ code') eval' := by
  refine ⟨h.le, le_trans h.le' h'.le', fun ρ m f hf => ?_⟩
  rw [Statement.runAll_append]
  refine (h.related ρ m f (hf.narrow (le_refl j) h'.le')).bind fun ρ₁ r f₁ _ hr => ?_
  have hf₁ : Ready s k l ρ₁ r.2 f₁ := hf.after hr.toAdvanced h.le'
  have hwide : Simulates s i k l q code' eval' := h'.widen (le_trans h.le h.le') (le_refl l)
  exact (hwide.related ρ₁ r.2 f₁ hf₁).imp fun ρ₂ r' f₂ _ hr' =>
    hr.toAdvanced.reached hr' rfl h'.le'

/-! ## Temporaries and blocks -/

variable {o : Operand} {t : Nat} {u u' : Nat → Process (Value × Nat)}

/-- The value of an operand is put into a temporary, which may lie before those of its code. -/
theorem assign {i' k' : Nat} (h : Simulates s i j k u code o.later) (hi : i' ≤ i) (hit : i' ≤ t)
    (hk : k ≤ k') (htk : t < k') :
    Simulates s i' j k' u (code ++ [.assign t o]) (Operand.temp t).later := by
  refine ⟨le_trans hi h.le, le_trans h.le' hk, fun ρ m f hf => ?_⟩
  rw [Statement.runAll_append]
  refine (h.related ρ m f (hf.narrow (le_refl j) hk)).bindRight fun ρ₁ r f₁ _ hr => ?_
  rw [Statement.runAll_singleton, Statement.run_assign]
  -- what was pending is made now, and the temporary holds it from here on
  obtain ⟨-, ρ₂, hgrow, hbelow, hv⟩ := hr.pending ρ₁ f₁.made (.refl ρ₁) hr.right
  have hroom : t < f₁.temps.size := lt_of_lt_of_le htk (hr.keeps.size ▸ hf.room)
  refine .done hgrow.le (.temp ⟨hr.le, hr.grows.trans hgrow, ?_, hbelow, ?_⟩ htk ?_)
  · exact hgrow.leftBelow hr.left (le_refl r.2)
  · exact (hr.toAdvanced.widen hi hk).keeps.trans
      ((f₁.withMade (o.eval f₁.toScope f₁.made).2).agrees_set hit htk _)
  · rw [f₁.getD_withMade_set hroom]
    exact hv

/-- One of two blocks, as the test decides. -/
theorem branch {code₁ code₂ : List Statement} (h : Simulates s i j k u code o.later)
    (h₁ : Simulates s i k l p code₁ eval) (h₂ : Simulates s i k l p' code₂ eval) :
    Simulates s i j l (fun m => (u m).bind fun a => if a.1.isTruthy then p a.2 else p' a.2)
      (code ++ [.branch o code₁ code₂]) eval := by
  refine ⟨h.le, le_trans h.le' h₁.le', fun ρ m f hf => ?_⟩
  rw [Statement.runAll_append]
  refine (h.related ρ m f (hf.narrow (le_refl j) h₁.le')).bind fun ρ₁ r f₁ _ hr => ?_
  rw [Statement.runAll_singleton, Statement.run_branch]
  -- the test is looked at and thrown away, so that its identities need no partners
  obtain ⟨hle, ρ₂, -, -, hv⟩ := hr.pending ρ₁ f₁.made (.refl ρ₁) hr.right
  have hf₁ : Ready s k l ρ₁ r.2 (f₁.withMade (o.eval f₁.toScope f₁.made).2) :=
    (hf.after hr.toAdvanced h.le').withMade hr.left (hr.right.mono hle)
  rw [hv.coercesLike.isTruthy]
  split
  · exact (h₁.related ρ₁ r.2 _ hf₁).imp fun ρ₃ r' f₃ _ hr' =>
      hr.toAdvanced.reached hr' rfl h₁.le'
  · exact (h₂.related ρ₁ r.2 _ hf₁).imp fun ρ₃ r' f₃ _ hr' =>
      hr.toAdvanced.reached hr' rfl h₂.le'

/-- The right operand of a logical operator, if the left one in the temporary `t` leaves the value
open; it is put into `t` as well. -/
theorem logical {code₁ : List Statement} (operator : LogicalOp)
    (h : Simulates s i j k u code (Operand.temp t).later)
    (h₁ : Simulates s i k l u' code₁ (Operand.temp t).later) :
    Simulates s i j l
      (fun m => (u m).bind fun a => if Expression.decides operator a.1 then .done a else u' a.2)
      (code ++ [.branch (Lowered.logicalTest operator (.temp t)) code₁ []])
      (Operand.temp t).later := by
  refine ⟨h.le, le_trans h.le' h₁.le', fun ρ m f hf => ?_⟩
  rw [Statement.runAll_append]
  refine (h.related ρ m f (hf.narrow (le_refl j) h₁.le')).bind fun ρ₁ r f₁ _ hr => ?_
  rw [Statement.runAll_singleton, Statement.run_branch]
  obtain ⟨-, ρ₂, hgrow, hbelow, hv⟩ := hr.pending ρ₁ f₁.made (.refl ρ₁) hr.right
  -- the test makes nothing and is true when the left operand does not decide
  have htest : ∃ b, (Lowered.logicalTest operator (.temp t)).eval f₁.toScope f₁.made = (b, f₁.made)
      ∧ b.isTruthy = !Expression.decides operator r.1 := by
    have htruth : (f₁.temps.getD t .undefined).isTruthy = r.1.isTruthy := hv.coercesLike.isTruthy
    cases operator with
    | and =>
      refine ⟨f₁.temps.getD t .undefined, rfl, ?_⟩
      rw [htruth, Expression.decides, Bool.not_not]
    | or =>
      refine ⟨.bool !(f₁.temps.getD t .undefined).isTruthy, rfl, ?_⟩
      rw [Value.isTruthy, htruth, Expression.decides]
  obtain ⟨b, hb, htruth⟩ := htest
  rw [hb, htruth]
  have hf₁ : Ready s k l ρ₁ r.2 (f₁.withMade f₁.made) := hf.after hr.toAdvanced h.le'
  cases Expression.decides operator r.1 with
  | false =>
    exact (h₁.related ρ₁ r.2 _ hf₁).imp fun ρ₃ r' f₃ _ hr' =>
      hr.toAdvanced.reached hr' rfl h₁.le'
  | true =>
    show Process.Related _ _ ρ₁ (.done r) (Statement.runAll [] f₁)
    rw [Statement.runAll_nil]
    refine .done (le_refl ρ₁) ⟨hr.toAdvanced.widen (le_refl i) h₁.le', ?_, hr.pending⟩
    exact hr.stable.of_agrees (.refl _ _) fun x hx => lt_of_lt_of_le hx h₁.le'

end Simulates

end Simulates

end ExprSandbox
