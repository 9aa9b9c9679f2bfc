import ExprSandbox.Proofs.Lowering

/-!
# Lowered reads of members

A lowered read asks for the member that the direct evaluation asks for, of a corresponding value,
or both ask for nothing.  Behind the test of the base the key is evaluated in both, or in neither.

A base that the test and the read both use, and a receiver that the read and the call both use,
is kept in an operand that makes nothing (`Settled`).
-/

namespace ExprSandbox

/-! ## Operands that may be used twice -/

/-- The operand has one value, which corresponds to `v`, in all scopes that agree with `sc` on
`U`, and makes nothing. -/
def Settled (run : Nat) (U : Nat → Prop) (ρ : Matching) (sc : Scope) (o : Operand) (v : Value) :
    Prop :=
  ∃ v', Corresponds run ρ v v' ∧ ∀ sc', sc.Agrees U sc' → ∀ n, o.eval sc' n = (v', n)

namespace Settled

variable {run a b : Nat} {U U' : Nat → Prop} {ρ ρ' : Matching} {sc sc' : Scope} {o : Operand}
variable {v : Value}

/-- What is settled stays so. -/
theorem later (h : Settled run U ρ sc o v) (hρ : ρ ≤ ρ') (hsc : sc.Agrees U sc')
    (hU : ∀ x, U x → U' x) : Settled run U' ρ' sc' o v := by
  obtain ⟨v', hv, heval⟩ := h
  exact ⟨v', hv.mono hρ, fun sc'' hsc'' => heval sc'' (hsc.trans (hsc''.mono hU))⟩

/-- A settled value is a pending one. -/
theorem pending (h : Settled run U ρ sc o v) : Pending run ρ a b (o.later sc) v := by
  obtain ⟨v', hv, heval⟩ := h
  exact .of_corresponds (heval sc (.refl U sc)) hv

/-- A settled operand is stable. -/
theorem stable (h : Settled run U ρ sc o v) : Stable U sc o.later := by
  obtain ⟨v', -, heval⟩ := h
  intro sc' hsc'
  funext n
  rw [Operand.later, Operand.later, heval sc' hsc' n, heval sc (.refl U sc) n]

end Settled

/-- Lowered code that runs to its end without a request, touches temporaries from `l` on only, and
leaves `v` settled. -/
def Settles (run a m l : Nat) (U : Nat → Prop) (ρ : Matching) (f : Frame) (e : Lowered Operand)
    (v : Value) : Prop :=
  ∃ ρ₁ f₁, Statement.runAll e.code f = .done f₁ ∧ ρ.GrowsWithin a m ρ₁ ∧ ρ₁.RightBelow f₁.made ∧
    f.toScope.Agrees (outside l e.next) f₁.toScope ∧ Settled run U ρ₁ f₁.toScope e.value v

section Settles

variable {run a m k l : Nat} {U : Nat → Prop} {ρ : Matching} {f : Frame} {o : Operand} {v : Value}

/-- An operand that makes nothing is settled as it is. -/
theorem Settles.pure (hp : Pending run ρ a m (o.later f.toScope) v) (hright : ρ.RightBelow f.made)
    (hs : Stable U f.toScope o.later) (hmake : ∃ v', ∀ n, o.eval f.toScope n = (v', n)) :
    Settles run a m l U ρ f (.pure o l) v := by
  obtain ⟨v', hmake⟩ := hmake
  obtain ⟨-, ρ₁, hgrow, hbelow, hv⟩ := hp ρ f.made (.refl ρ) hright
  rw [Operand.later, hmake] at hbelow hv
  refine ⟨ρ₁, f, by rw [Lowered.pure, Statement.runAll_nil], hgrow, hbelow, .refl _ _, v', hv, ?_⟩
  intro sc' hsc' n
  rw [← hmake n]
  exact congrFun (hs sc' hsc') n

/-- The value of an operand is settled once it is in a temporary. -/
theorem Settles.emit (hp : Pending run ρ a m (o.later f.toScope) v) (hright : ρ.RightBelow f.made)
    (hroom : l < f.temps.size) (hl : U l) :
    Settles run a m l U ρ f (.emit [] l (.assign l o)) v := by
  obtain ⟨-, ρ₁, hgrow, hbelow, hv⟩ := hp ρ f.made (.refl ρ) hright
  refine ⟨ρ₁, (f.withMade (o.eval f.toScope f.made).2).set l (o.eval f.toScope f.made).1,
    ?_, hgrow, hbelow, Frame.agrees_set _ (le_refl l) (Nat.lt_succ_self l) _,
    (o.eval f.toScope f.made).1, hv, ?_⟩
  · rw [Lowered.emit, List.nil_append, Statement.runAll_singleton, Statement.run_assign]
  · intro sc' hsc' n
    show (sc'.temps.getD l .undefined, n) = _
    rw [hsc'.temps l hl, f.getD_withMade_set hroom]

/-- **An operand that is copied is settled**: compound ones are put into a temporary first. -/
theorem settles_materialize (hp : Pending run ρ a m (o.later f.toScope) v)
    (hright : ρ.RightBelow f.made) (hs : Stable (below k) f.toScope o.later)
    (hroom : (Lowered.materialize o l).next ≤ f.temps.size) (hU : ∀ x, x < k → U x)
    (hl : l < (Lowered.materialize o l).next → U l) :
    Settles run a m l U ρ f (Lowered.materialize o l) v := by
  have hs' : Stable U f.toScope o.later := hs.of_agrees (.refl _ _) hU
  cases o with
  | literal c => exact .pure hp hright hs' ⟨_, fun _ => rfl⟩
  | temp i => exact .pure hp hright hs' ⟨_, fun _ => rfl⟩
  | context => exact .pure hp hright hs' ⟨_, fun _ => rfl⟩
  | array slots => exact .emit hp hright hroom (hl (Nat.lt_succ_self l))
  | object entries => exact .emit hp hright hroom (hl (Nat.lt_succ_self l))
  | unary operator argument => exact .emit hp hright hroom (hl (Nat.lt_succ_self l))
  | binary operator left right => exact .emit hp hright hroom (hl (Nat.lt_succ_self l))

end Settles

/-! ## Single reads -/

section Read

variable {s : Setting} {a m m' i j l t : Nat} {ρ ρ₀ : Matching} {f f₀ : Frame} {o : Operand}
variable {v : Value} {key : Key} {name : String}

/-- A temporary that nothing was put into holds `undefined`, which corresponds to itself. -/
theorem Reached.undefined {run k : Nat} {ρ' : Matching} {f' : Frame}
    (h : Advanced i k a ρ f ρ' m f') (ht : t < k)
    (hclean : f'.temps.getD t .undefined = .undefined) :
    Reached run i k a ρ f (Operand.temp t).later ρ' (.undefined, m) f' := by
  refine .temp h ht ?_
  rw [hclean]
  exact fun _ _ => rfl

/-- Both sides leave the members of a missing value alone. -/
theorem related_read_nullish (h₀ : Advanced i l a ρ₀ f₀ ρ m f)
    (hp : Pending s.run ρ a m (o.later f.toScope) v) (hv : v.isNullish = true) (ht : t < l)
    (hclean : f.temps.getD t .undefined = .undefined) :
    Process.Related (Corresponds s.run)
      (Reached s.run i l a ρ₀ f₀ (Operand.temp t).later) ρ (.done (.undefined, m))
      ((Statement.readMember t o key).run f) := by
  obtain ⟨hle, ρ₁, hgrow, hbelow, hcorr⟩ := hp ρ f.made (.refl ρ) h₀.right
  have hnull : (o.eval f.toScope f.made).1.isNullish = true := by
    rw [hcorr.coercesLike.isNullish, hv]
  rw [Statement.run_readMember_of_nullish hnull]
  exact .done (le_refl ρ) (.undefined ⟨h₀.le, h₀.grows, h₀.left, h₀.right.mono hle, h₀.keeps⟩ ht
    hclean)

/-- Both sides read the same member of a value that is not missing.  The base was made in
`[a, m)` and the key in `[m, m')`. -/
theorem related_read_present (h₀ : Advanced i l a ρ₀ f₀ ρ m' f) (ha : a ≤ m) (hm : m ≤ m')
    (hp : Pending s.run ρ a m (o.later f.toScope) v)
    (hkey : Pending s.run ρ m m' (key.eval f.toScope) name) (hv : v.isNullish = false)
    (hi : i ≤ t) (ht : t < l) (hroom : t < f.temps.size) :
    Process.Related (Corresponds s.run)
      (Reached s.run i l a ρ₀ f₀ (Operand.temp t).later) ρ
      (.read v name fun u => .done (u, m')) ((Statement.readMember t o key).run f) := by
  obtain ⟨-, ρ₁, hgrow, hbelow, hcorr⟩ :=
    hp.pair ha hm hkey ρ f.made (.refl ρ) h₀.right
  have hbase : Corresponds s.run ρ₁ v (o.eval f.toScope f.made).1 :=
    fun π hπ => congrArg Prod.fst (hcorr π hπ)
  have hname : (key.eval f.toScope (o.eval f.toScope f.made).2).1 = name := by
    obtain ⟨π, hπ⟩ := ρ₁.exists_agrees s.run
    exact (congrArg Prod.snd (hcorr π hπ)).symm
  have hnull : (o.eval f.toScope f.made).1.isNullish = false := by
    rw [hbase.coercesLike.isNullish, hv]
  rw [Statement.run_readMember_of_present hnull, hname]
  refine .read hgrow.le hbase fun u u' hu => .done (le_refl ρ₁) (.temp ?_ ht ?_)
  · refine ⟨h₀.le, h₀.grows.trans hgrow, hgrow.leftBelow h₀.left (le_refl m'), hbelow, ?_⟩
    exact h₀.keeps.trans (Frame.agrees_set (f.withMade _) hi ht _)
  · rw [f.getD_withMade_set hroom]
    exact hu

end Read

/-! ## Reads with their keys -/

section Member

variable {s : Setting} {a i m k : Nat} {ρ ρ₀ : Matching} {f f₀ : Frame} {o : Operand} {v : Value}

/-- Evaluating the key of a member on its own: it is known, or its value gives it. -/
def evaluateKey (name? : Option String) (p : Nat → Process (Value × Nat)) (made : Nat) :
    Process (String × Nat) :=
  match name? with
  | some name => .done (name, made)
  | none => (p made).map fun k => (k.1.key, k.2)

/-- The name that a pending key addresses. -/
theorem Pending.key {run b c : Nat} {ok : Operand} {kv : Value} {sc : Scope}
    (h : Pending run ρ b c (ok.later sc) kv) :
    Pending run ρ b c ((Key.computed ok).eval sc) kv.key :=
  h.map fun π u => (u.text_rename π).symm

/-- A name that is known is pending without making anything. -/
theorem Pending.named {run b c : Nat} {sc : Scope} (name : String) :
    Pending run ρ b c ((Key.named name).eval sc) name :=
  .of_corresponds (fun _ => rfl) fun _ _ => rfl

/-- Reading under a name that is known. -/
theorem related_readNamed (name : String) (hf : Ready s k (k + 1) ρ m f)
    (h₀ : Advanced i k a ρ₀ f₀ ρ m f) (hi : i ≤ k)
    (hp : Pending s.run ρ a m (o.later f.toScope) v) (p : Nat → Process (Value × Nat)) :
    Process.Related (Corresponds s.run)
      (Reached s.run i (k + 1) a ρ₀ f₀ (Operand.temp k).later) ρ
      (Expression.readKey v m (evaluateKey (some name) p))
      (Statement.runAll (Lowered.readNamed o name k).code f) := by
  have h₁ : Advanced i (k + 1) a ρ₀ f₀ ρ m f := h₀.widen (le_refl i) (Nat.le_succ k)
  rw [Lowered.readNamed, Lowered.emit, List.nil_append, Statement.runAll_singleton,
    Expression.readKey]
  cases hv : v.isNullish with
  | true =>
    exact related_read_nullish h₁ hp hv (Nat.lt_succ_self k)
      (hf.clean k (le_refl k) (Nat.lt_succ_self k))
  | false =>
    exact related_read_present h₁ h₀.le (le_refl m) hp (.named name) hv hi
      (Nat.lt_succ_self k) (lt_of_lt_of_le (Nat.lt_succ_self k) hf.room)

variable {l : Nat} {p : Nat → Process (Value × Nat)} {key : Lowered Operand}

/-- Reading under a key whose code is empty: the base and the key are both pending at the read. -/
theorem related_readComputed_pure (hf : Ready s k (key.next + 1) ρ m f)
    (h₀ : Advanced i k a ρ₀ f₀ ρ m f) (hi : i ≤ k)
    (hs : Stable (below k) f.toScope o.later)
    (hp : Pending s.run ρ a m (o.later f.toScope) v)
    (hkey : Simulates s k k key.next p key.code key.value.later) (hcode : key.code = []) :
    Process.Related (Corresponds s.run)
      (Reached s.run i (key.next + 1) a ρ₀ f₀ (Operand.temp key.next).later) ρ
      (Expression.readKey v m (evaluateKey none p))
      ((Statement.readMember key.next o (.computed key.value)).run f) := by
  have hlt : key.next < key.next + 1 := Nat.lt_succ_self _
  rw [Expression.readKey]
  cases hv : v.isNullish with
  | true =>
    have h₁ : Advanced i (key.next + 1) a ρ₀ f₀ ρ m f :=
      h₀.widen (le_refl i) (le_trans hkey.le' hlt.le)
    exact related_read_nullish h₁ hp hv hlt (hf.clean key.next hkey.le' hlt)
  | false =>
    rw [if_neg Bool.false_ne_true, evaluateKey, Process.map_bind]
    -- the empty code of the key runs before the read
    have hrun : (Statement.readMember key.next o (.computed key.value)).run f
        = (Statement.runAll key.code f).bind
            (Statement.readMember key.next o (.computed key.value)).run := by
      rw [hcode, Statement.runAll_nil, Process.done_bind]
    rw [hrun]
    refine (hkey.related ρ m f (hf.narrow (le_refl k) (Nat.le_succ _))).bind
      fun ρ₁ r f₁ _ hr => ?_
    have hkeeps : f.toScope.Agrees (below k) f₁.toScope := hr.keeps.mono fun x hx => .inl hx
    have hp₁ : Pending s.run ρ₁ a m (o.later f₁.toScope) v := by
      rw [hs f₁.toScope hkeeps]
      exact hp.later (hr.grows.outside_before (le_refl m))
    have h₁ : Advanced i (key.next + 1) a ρ₀ f₀ ρ₁ r.2 f₁ :=
      h₀.trans hr.toAdvanced h₀.le (le_refl i) hi (le_trans hkey.le' hlt.le) hlt.le
    exact related_read_present h₁ h₀.le hr.le hp₁ hr.pending.key hv (le_trans hi hkey.le') hlt
      (hr.keeps.size ▸ lt_of_lt_of_le hlt hf.room)

/-- The test of the base asks whether its value can have members. -/
theorem Lowered.eval_present {sc : Scope} {n : Nat} {v' : Value} (h : o.eval sc n = (v', n)) :
    (Lowered.present o).eval sc n = (.bool !v'.isNullish, n) := by
  show (Value.bool !((o.eval sc n).1.looseEq .null), (o.eval sc n).2) = _
  rw [h, Value.looseEq]
  cases v' <;> rfl

/-- Making an operand copyable uses one temporary or none. -/
theorem Lowered.le_materialize (o : Operand) (next : Nat) :
    next ≤ (Lowered.materialize o next).next := by
  cases o <;> first | exact le_refl next | exact Nat.le_succ next

/-- The code of a key and the read behind it, for a base that is settled and not missing. -/
theorem related_readSettled {t : Nat} (hf : Ready s k key.next ρ m f)
    (h₀ : Advanced i t a ρ₀ f₀ ρ m f) (hi : i ≤ k) (ht : key.next ≤ t) (hroom : t < f.temps.size)
    (hset : Settled s.run (outside k key.next) ρ f.toScope o v) (hv : v.isNullish = false)
    (hkey : Simulates s k k key.next p key.code key.value.later) :
    Process.Related (Corresponds s.run)
      (Reached s.run i (t + 1) a ρ₀ f₀ (Operand.temp t).later) ρ
      ((evaluateKey none p m).bind fun r => .read v r.1 fun u => .done (u, r.2))
      (Statement.runAll (key.code ++ [.readMember t o (.computed key.value)]) f) := by
  have hlt : t < t + 1 := Nat.lt_succ_self t
  rw [evaluateKey, Process.map_bind, Statement.runAll_append]
  refine (hkey.related ρ m f hf).bind fun ρ₁ r f₁ _ hr => ?_
  rw [Statement.runAll_singleton]
  -- the key has left the base as it was
  have hset₁ : Settled s.run (outside k key.next) ρ₁ f₁.toScope o v :=
    hset.later hr.grows.le hr.keeps fun _ hx => hx
  have h₁ : Advanced i (t + 1) a ρ₀ f₀ ρ₁ r.2 f₁ :=
    h₀.trans hr.toAdvanced h₀.le (le_refl i) hi hlt.le (le_trans ht hlt.le)
  have hroom₁ : t < f₁.temps.size := hr.keeps.size ▸ hroom
  exact related_read_present h₁ h₀.le hr.le hset₁.pending hr.pending.key hv
    (le_trans hi (le_trans hkey.le' ht)) hlt hroom₁

/-- Reading under a key with code of its own, which runs behind the test of the base. -/
theorem related_readComputed_branch
    (hf : Ready s k ((Lowered.materialize o key.next).next + 1) ρ m f)
    (h₀ : Advanced i k a ρ₀ f₀ ρ m f) (hi : i ≤ k)
    (hs : Stable (below k) f.toScope o.later)
    (hp : Pending s.run ρ a m (o.later f.toScope) v)
    (hkey : Simulates s k k key.next p key.code key.value.later) :
    let base := Lowered.materialize o key.next
    Process.Related (Corresponds s.run)
      (Reached s.run i (base.next + 1) a ρ₀ f₀ (Operand.temp base.next).later) ρ
      (Expression.readKey v m (evaluateKey none p))
      (Statement.runAll (base.code ++ [.branch (Lowered.present base.value)
        (key.code ++ [.readMember base.next base.value (.computed key.value)]) []]) f) := by
  intro base
  have hle : key.next ≤ base.next := Lowered.le_materialize o key.next
  have hlt : base.next < base.next + 1 := Nat.lt_succ_self _
  -- the base is settled before the test, outside of the temporaries of the key
  obtain ⟨ρ₁, f₁, hrun, hgrow, hright, hkeeps, hset⟩ :=
    settles_materialize (U := outside k key.next) hp hf.right hs
      (le_trans (Nat.le_succ _) hf.room) (fun x hx => .inl hx) fun _ => .inr (le_refl key.next)
  have hbase : Advanced key.next base.next a ρ f ρ₁ m f₁ :=
    ⟨h₀.le, hgrow, hgrow.leftBelow hf.left (le_refl m), hright, hkeeps⟩
  have h₁ : Advanced i base.next a ρ₀ f₀ ρ₁ m f₁ :=
    h₀.trans hbase (le_refl a) (le_refl i) (le_trans hi hkey.le')
      (le_trans hkey.le' hle) (le_refl _)
  rw [Statement.runAll_append, hrun, Process.done_bind, Statement.runAll_singleton,
    Statement.run_branch, Expression.readKey]
  obtain ⟨v', hv', heval⟩ := hset
  rw [Lowered.eval_present (heval f₁.toScope (.refl _ _) f₁.made), hv'.coercesLike.isNullish]
  cases hv : v.isNullish with
  | true =>
    -- no code runs for a missing base, and the target still holds `undefined`
    show Process.Related _ _ ρ (.done (Value.undefined, m)) (Statement.runAll [] f₁)
    rw [Statement.runAll_nil]
    refine .done hgrow.le (.undefined (h₁.widen (le_refl i) hlt.le) hlt ?_)
    rw [hkeeps.temps base.next (.inr (le_refl _))]
    exact hf.clean base.next (le_trans hkey.le' hle) hlt
  | false =>
    rw [if_neg Bool.false_ne_true]
    show Process.Related _ _ ρ _ (Statement.runAll _ f₁)
    -- the temporaries of the key lie before those of the base
    have hf₁ : Ready s k key.next ρ₁ m f₁ := hf.before hbase (le_trans hle hlt.le)
    have hroom : base.next < f₁.temps.size := by
      rw [hkeeps.size]
      exact lt_of_lt_of_le hlt hf.room
    exact Process.Related.weaken hgrow.le
      (related_readSettled hf₁ h₁ hi hle hroom ⟨v', hv', heval⟩ hv hkey)

/-- **A lowered read of a member** asks for what the direct evaluation asks for. -/
theorem related_readMember (name? : Option String) (key : Nat → Lowered Operand)
    (hf : Ready s k (Lowered.readMember o name? key k).next ρ m f)
    (h₀ : Advanced i k a ρ₀ f₀ ρ m f) (hi : i ≤ k)
    (hs : Stable (below k) f.toScope o.later)
    (hp : Pending s.run ρ a m (o.later f.toScope) v)
    (hkey : Simulates s k k (key k).next p (key k).code (key k).value.later) :
    let e := Lowered.readMember o name? key k
    Process.Related (Corresponds s.run) (Reached s.run i e.next a ρ₀ f₀ e.value.later) ρ
      (Expression.readKey v m (evaluateKey name? p)) (Statement.runAll e.code f) := by
  intro e
  cases name? with
  | some name => exact related_readNamed name hf h₀ hi hp p
  | none =>
    have he : e = Lowered.readComputed o (key k) := rfl
    rw [Lowered.readMember] at hf
    rw [Lowered.readComputed] at hf he
    cases hcode : (key k).code with
    | nil =>
      rw [hcode, List.isEmpty_nil, if_pos rfl] at hf he
      rw [he, Lowered.emit, List.nil_append, Statement.runAll_singleton]
      exact related_readComputed_pure hf h₀ hi hs hp hkey hcode
    | cons first rest =>
      rw [hcode, List.isEmpty_cons, if_neg Bool.false_ne_true, ← hcode] at hf he
      rw [he]
      exact related_readComputed_branch hf h₀ hi hs hp hkey

/-- A lowered read uses temporaries from where it starts. -/
theorem Lowered.le_readMember (o : Operand) (name? : Option String) {key : Nat → Lowered Operand}
    (hkey : k ≤ (key k).next) : k ≤ (Lowered.readMember o name? key k).next := by
  cases name? with
  | some name => exact Nat.le_succ k
  | none =>
    rw [readMember, readComputed]
    split
    · exact le_trans hkey (Nat.le_succ _)
    · exact le_trans (le_trans hkey (le_materialize o _)) (Nat.le_succ _)

/-- **The member of a lowered base** under a key that is lowered behind it. -/
theorem Simulates.readMember {j : Nat} {u : Nat → Process (Value × Nat)} {code : List Statement}
    (name? : Option String) (key : Nat → Lowered Operand)
    (h : Simulates s i j k u code o.later)
    (hkey : Simulates s k k (key k).next p (key k).code (key k).value.later) :
    let e := Lowered.readMember o name? key k
    Simulates s i j e.next
      (fun m => (u m).bind fun b => Expression.readKey b.1 b.2 (evaluateKey name? p))
      (code ++ e.code) e.value.later := by
  intro e
  have hle : k ≤ e.next := Lowered.le_readMember o name? hkey.le'
  refine ⟨h.le, le_trans h.le' hle, fun ρ m f hf => ?_⟩
  rw [Statement.runAll_append]
  refine (h.related ρ m f (hf.narrow (le_refl j) hle)).bind fun ρ₁ b f₁ _ hr => ?_
  have hf₁ : Ready s k e.next ρ₁ b.2 f₁ := hf.after hr.toAdvanced h.le'
  exact related_readMember name? key hf₁ hr.toAdvanced (le_trans h.le h.le') hr.stable hr.pending
    hkey

end Member

end ExprSandbox
