import ExprSandbox.Proofs.Reads

/-!
# Lowered calls

A call evaluates its callee with a receiver, then its arguments, and is made if the callee turns
out to be a function.  Its lowered code leaves all three pending up to the call itself.
-/

namespace ExprSandbox

namespace Operand

mutual
/-- Evaluating an operand takes back no identity. -/
theorem le_eval (sc : Scope) (o : Operand) (n : Nat) : n ≤ (o.eval sc n).2 := by
  match o with
  | .literal value => rw [eval]
  | .temp index => rw [eval]
  | .context => rw [eval]
  | .array slots =>
    rw [eval]
    exact Nat.le_succ_of_le (le_evalSlots sc slots n)
  | .object entries =>
    rw [eval]
    exact Nat.le_succ_of_le (le_evalEntries sc entries n)
  | .unary operator argument =>
    rw [eval]
    exact le_eval sc argument n
  | .binary operator left right =>
    rw [eval]
    exact le_trans (le_eval sc left n) (le_eval sc right _)

/-- Evaluating the slots of an array takes back no identity. -/
theorem le_evalSlots (sc : Scope) (slots : List (Option Operand)) (n : Nat) :
    n ≤ (evalSlots sc slots n).2 := by
  match slots with
  | [] => rw [evalSlots]
  | none :: rest =>
    rw [evalSlots]
    exact le_evalSlots sc rest n
  | some o :: rest =>
    rw [evalSlots]
    exact le_trans (le_eval sc o n) (le_evalSlots sc rest _)

/-- Evaluating the entries of an object takes back no identity. -/
theorem le_evalEntries (sc : Scope) (entries : List (String × Operand)) (n : Nat) :
    n ≤ (evalEntries sc entries n).2 := by
  match entries with
  | [] => rw [evalEntries]
  | (key, o) :: rest =>
    rw [evalEntries]
    exact le_trans (le_eval sc o n) (le_evalEntries sc rest _)
end

end Operand

/-! ## Callees -/

open Expression in
instance : Renamable Callee := ⟨fun π c => ⟨rename π c.value, rename π c.receiver⟩⟩

/-- What a callee and its receiver evaluate to, wherever that happens. -/
def Lowered.Target.later (t : Lowered.Target) (sc : Scope) (n : Nat) : Expression.Callee × Nat :=
  (⟨(t.callee.eval sc n).1, (t.receiver.eval sc (t.callee.eval sc n).2).1⟩,
    (t.receiver.eval sc (t.callee.eval sc n).2).2)

/-- A pending callee with a settled receiver. -/
theorem Reached.callee {run i k a : Nat} {ρ ρ' : Matching} {f f' : Frame} {o o' : Operand}
    {r : Value × Nat} {u : Value} (h : Reached run i k a ρ f o.later ρ' r f')
    (h' : Settled run (below k) ρ' f'.toScope o' u) :
    Reached run i k a ρ f (Lowered.Target.later ⟨o, o'⟩) ρ' (⟨r.1, u⟩, r.2) f' := by
  refine ⟨h.toAdvanced, fun sc hsc => ?_, ?_⟩
  · have hcallee : ∀ n, o.eval sc n = o.eval f'.toScope n := congrFun (h.stable sc hsc)
    have hreceiver : ∀ n, o'.eval sc n = o'.eval f'.toScope n := congrFun (h'.stable sc hsc)
    funext n
    simp only [Lowered.Target.later, hcallee, hreceiver]
  · have hpair := h.pending.pair h.le (le_refl r.2) h'.pending
    exact hpair.map (f := fun p : Value × Value => (⟨p.1, p.2⟩ : Expression.Callee))
      fun π p => rfl

/-- **A lowered method with its receiver.**  The base is made copyable, because both the read and
the call use it. -/
theorem Simulates.readMethod {s : Setting} {i j k : Nat} {code : List Statement} {o : Operand}
    {u p : Nat → Process (Value × Nat)} (name? : Option String) (key : Nat → Lowered Operand)
    (h : Simulates s i j k u code o.later)
    (hkey : ∀ n, Simulates s n n (key n).next p (key n).code (key n).value.later) :
    let base := Lowered.materialize o k
    let e := Lowered.readMember base.value name? key base.next
    Simulates s i j e.next
      (fun m => (u m).bind fun b =>
        (Expression.readKey b.1 b.2 (evaluateKey name? p)).map fun r => (⟨r.1, b.1⟩, r.2))
      (code ++ base.code ++ e.code) (Lowered.Target.later ⟨e.value, base.value⟩) := by
  intro base e
  have hbase : k ≤ base.next := Lowered.le_materialize o k
  have he : base.next ≤ e.next := Lowered.le_readMember base.value name? (hkey base.next).le'
  refine ⟨h.le, le_trans h.le' (le_trans hbase he), fun ρ m f hf => ?_⟩
  rw [List.append_assoc, Statement.runAll_append]
  refine (h.related ρ m f (hf.narrow (le_refl j) (le_trans hbase he))).bind fun ρ₁ b f₁ _ hr => ?_
  have hf₁ : Ready s k e.next ρ₁ b.2 f₁ := hf.after hr.toAdvanced h.le'
  -- the base is settled for the read and for the call
  obtain ⟨ρ₂, f₂, hrun, hgrow, hright, hkeeps, hset⟩ :=
    settles_materialize (l := k) (U := below base.next) hr.pending hf₁.right hr.stable
      (le_trans he hf₁.room) (fun x hx => lt_of_lt_of_le hx hbase) fun hl => hl
  rw [Statement.runAll_append, hrun, Process.done_bind]
  have h₂ : Advanced k base.next m ρ₁ f₁ ρ₂ b.2 f₂ :=
    ⟨hr.le, hgrow, hgrow.leftBelow hf₁.left (le_refl b.2), hright, hkeeps⟩
  have hf₂ : Ready s base.next e.next ρ₂ b.2 f₂ := hf₁.after h₂ hbase
  have h₂' : Advanced base.next base.next m ρ₂ f₂ ρ₂ b.2 f₂ :=
    ⟨hr.le, .refl ρ₂, h₂.left, hright, .refl _ _⟩
  refine Process.Related.weaken hgrow.le ((related_readMember name? key hf₂ h₂' (le_refl _)
    hset.stable hset.pending (hkey base.next)).mapLeft fun ρ₃ r f₃ _ hr₃ => ?_)
  -- the read puts nothing where the base is kept
  have hset₃ : Settled s.run (below e.next) ρ₃ f₃.toScope base.value b.1 :=
    hset.later hr₃.grows.le (hr₃.keeps.mono fun x hx => .inl hx) fun x hx => lt_of_lt_of_le hx he
  have h₁₂ : Advanced i base.next m ρ f ρ₂ b.2 f₂ :=
    hr.toAdvanced.trans h₂ (le_refl m) (le_refl i) (le_trans h.le h.le') hbase (le_refl _)
  have h₁₃ : Advanced i e.next m ρ f ρ₃ r.2 f₃ :=
    h₁₂.trans hr₃.toAdvanced (le_refl m) (le_refl i)
      (le_trans h.le (le_trans h.le' hbase)) he (le_refl _)
  have hvalue : Reached s.run i e.next m ρ f e.value.later ρ₃ r f₃ :=
    ⟨h₁₃, hr₃.stable, hr₃.pending⟩
  exact hvalue.callee hset₃

/-- **A callee that is neither a name nor a member** has no receiver. -/
theorem Simulates.function {s : Setting} {i j k : Nat} {code : List Statement} {o : Operand}
    {u : Nat → Process (Value × Nat)} (h : Simulates s i j k u code o.later) :
    Simulates s i j k
      (fun m => (u m).map fun c => ((⟨c.1, .undefined⟩ : Expression.Callee), c.2))
      code (Lowered.Target.later ⟨o, .literal .undefined⟩) := by
  refine ⟨h.le, h.le', fun ρ m f hf => ?_⟩
  refine (h.related ρ m f hf).mapLeft fun ρ₁ r f₁ _ hr => hr.callee ?_
  exact ⟨.undefined, fun _ _ => rfl, fun _ _ _ => rfl⟩

/-! ## Calls -/

/-- **A lowered call** is made when the direct evaluation makes it, of the same function with a
corresponding receiver and corresponding arguments. -/
theorem Simulates.call {s : Setting} {i j k : Nat} {code : List Statement}
    {p : Nat → Process ((Expression.Callee × List Value) × Nat)} {t : Lowered.Target}
    {arguments : List Operand}
    (h : Simulates s i j k p code
      (inOrder t.later fun sc n => Operand.evalAll sc arguments n)) :
    Simulates s i j (k + 1)
      (fun m => (p m).bind fun x => (Expression.callValue x.1.1 x.1.2).map (·, x.2))
      (code ++ [.call k t.callee t.receiver arguments]) (Operand.temp k).later := by
  have hlt : k < k + 1 := Nat.lt_succ_self k
  refine ⟨h.le, le_trans h.le' hlt.le, fun ρ m f hf => ?_⟩
  rw [Statement.runAll_append]
  refine (h.related ρ m f (hf.narrow (le_refl j) hlt.le)).bind fun ρ₁ r f₁ _ hr => ?_
  rw [Statement.runAll_singleton]
  obtain ⟨-, ρ₂, hgrow, hbelow, hcorr⟩ := hr.pending ρ₁ f₁.made (.refl ρ₁) hr.right
  have hcallee : Corresponds s.run ρ₂ r.1.1.value (t.callee.eval f₁.toScope f₁.made).1 :=
    fun π hπ => congrArg (fun x => x.1.value) (hcorr π hπ)
  obtain ⟨⟨⟨callee, receiver⟩, args⟩, m'⟩ := r
  rw [Expression.callValue]
  cases callee with
  | function g =>
    have hreceiver : Corresponds s.run ρ₂ receiver _ :=
      fun π hπ => congrArg (fun x => x.1.receiver) (hcorr π hπ)
    have hargs : Corresponds s.run ρ₂ args _ := fun π hπ => congrArg Prod.snd (hcorr π hπ)
    rw [Statement.run_call_of_function hcallee.eq_function]
    refine .call hgrow.le hreceiver hargs.forall₂ fun v v' hv => ?_
    refine .done (le_refl ρ₂) (.temp ⟨hr.le, hr.grows.trans hgrow, ?_, hbelow, ?_⟩ hlt ?_)
    · exact hgrow.leftBelow hr.left (le_refl m')
    · exact (hr.toAdvanced.widen (le_refl i) hlt.le).keeps.trans
        (Frame.agrees_set (f₁.withMade _) (le_trans h.le h.le') hlt _)
    · rw [f₁.getD_withMade_set (lt_of_lt_of_le hlt (hr.keeps.size ▸ hf.room))]
      exact hv
  | _ =>
    -- neither side calls anything, and the temporary stays as it is
    rw [Statement.run_call_of_not_function (hcallee.ne_function fun g hg => nomatch hg)]
    refine .done (le_refl ρ₁) (.undefined ⟨hr.le, hr.grows, hr.left,
      hr.right.mono (Operand.le_eval _ _ _), ?_⟩ hlt ?_)
    · exact (hr.toAdvanced.widen (le_refl i) hlt.le).keeps
    · rw [Frame.withMade, hr.keeps.temps k (.inr (le_refl k))]
      exact hf.clean k h.le' hlt

end ExprSandbox
