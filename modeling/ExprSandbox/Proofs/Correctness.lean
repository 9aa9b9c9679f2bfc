import ExprSandbox.Evaluator
import ExprSandbox.Proofs.Compilation

/-!
# Compiled programs mean what their trees mean

A compiled program and the direct evaluation of its tree ask for the same members and the same
calls, in the same order.  They do not hand out identities in the same order: an array that only
occurs as an argument is made when the call is made, which the direct evaluation has done long
before.  A host that uses identities only to compare them cannot see that, and so both come to
the same outcome, with the same events and the same state of the host, up to one renaming of the
identities of the run (`evaluate_ofProgram_eq_rename`).
-/

namespace ExprSandbox

/-! ## Programs -/

/-- The code of expressions in order simulates their evaluation.  The value of an expression that
is not the last one is dropped on both sides, and so is `result`. -/
theorem lowerAll_simulates {s : Setting} (hcontext : Fresh s.run s.context) (v : Value)
    (result : Operand) (e : Expression) (p : Program) (next : Nat) :
    Simulates s next next (Routine.lowerAll result next (e :: p)).next
      (Expression.evaluateAll s v (e :: p)) (Routine.lowerAll result next (e :: p)).code
      (Routine.lowerAll result next (e :: p)).value.later := by
  induction p generalizing v result e next with
  | nil =>
    rw [Routine.lowerAll, Routine.lowerAll, Lowered.pure, List.append_nil]
    refine ((lower_simulates hcontext e).1 next).congr (fun m => ?_) fun _ _ => rfl
    have hdone : (fun v : Value × Nat => Expression.evaluateAll s v.1 [] v.2) = .done := by
      funext v
      rw [Expression.evaluateAll]
    rw [Expression.evaluateAll, hdone, Process.bind_done]
  | cons e' rest ih =>
    rw [Routine.lowerAll]
    have hfirst := (lower_simulates hcontext e).1 next
    have hrest := ih .undefined (e.lower next).value e' (e.lower next).next
    refine (hfirst.drop hrest).congr (fun m => ?_) fun _ _ => rfl
    rw [Expression.evaluateAll]
    congr 1

/-- A program without expressions gives `undefined` at once. -/
theorem lowerAll_nil_simulates (s : Setting) :
    Simulates s 0 0 0 (Expression.evaluateAll s .undefined []) []
      (Operand.literal .undefined).later := by
  have heval : ∀ sc n, (Operand.literal .undefined).later sc n = (Value.undefined, n) := by
    intro sc n
    rw [Operand.later, Operand.eval, Value.ofConstant]
  refine (Simulates.pure 0 (v := Value.undefined) ?_ ?_).congr (fun m => ?_) fun _ _ => rfl
  · exact fun ρ sc _ _ n => ⟨.undefined, heval sc n, fun _ _ => rfl⟩
  · intro sc sc' _
    funext n
    exact (heval sc' n).trans (heval sc n).symm
  · rw [Expression.evaluateAll]

/-- **A compiled program asks for what its tree asks for**, and both end in values that correspond
once the identities that they have handed out are matched. -/
theorem related_ofProgram {context : Value} {run : Nat} (hcontext : Fresh run context)
    (p : Program) :
    Process.Related (Corresponds run) (Corresponds run) Matching.empty (p.evaluate context run)
      ((Routine.ofProgram p).run context run) := by
  have hsim : Simulates ⟨context, run⟩ 0 0
      (Routine.lowerAll (.literal .undefined) 0 p).next
      (Expression.evaluateAll ⟨context, run⟩ .undefined p)
      (Routine.lowerAll (.literal .undefined) 0 p).code
      (Routine.lowerAll (.literal .undefined) 0 p).value.later := by
    cases p with
    | nil => exact lowerAll_nil_simulates ⟨context, run⟩
    | cons e rest => exact lowerAll_simulates hcontext .undefined _ e rest 0
  have hstart : Ready ⟨context, run⟩ 0 (Routine.lowerAll (.literal .undefined) 0 p).next
      Matching.empty 0 (.start context run (Routine.ofProgram p).declared.length) := by
    refine ⟨rfl, rfl, ?_, ?_, nofun, nofun⟩
    · intro i _ hi
      simp [Frame.start, Array.getD_eq_getD_getElem?, Routine.ofProgram, hi]
    · simp [Frame.start, Routine.ofProgram]
  rw [Program.evaluate, Routine.run]
  refine (hsim.related _ 0 _ hstart).bind fun ρ r f _ hr => ?_
  -- the result is made last, so that what is pending in it is matched only now
  obtain ⟨-, ρ', hgrow, -, hv⟩ := hr.pending ρ f.made (.refl ρ) hr.right
  exact .done hgrow.le hv

/-! ## Executions -/

section Executions

variable {σ α : Type} [Renamable σ] [Renamable α] {run : Nat} {ρ : Matching}

/-- Outcomes that correspond are the same error, or results that correspond. -/
theorem Corresponds.outcomeRelated {x y : Except EvalError α} (h : Corresponds run ρ x y) :
    OutcomeRelated (Corresponds run ρ) x y := by
  obtain ⟨π₀, -, rfl⟩ := h.exists_rename
  cases x with
  | error e => exact .error e
  | ok a => exact .ok fun π hπ => Except.ok.inj (h π hπ)

/-- Related outcomes correspond. -/
theorem OutcomeRelated.corresponds {x y : Except EvalError α}
    (h : OutcomeRelated (Corresponds run ρ) x y) : Corresponds run ρ x y := by
  intro π hπ
  cases h with
  | error e => rfl
  | ok hv => exact congrArg Except.ok (hv π hπ)

/-- Related calls correspond. -/
theorem CallRelated.corresponds {c c' : Call} (h : CallRelated (Corresponds run ρ) c c') :
    Corresponds run ρ c c' := by
  obtain ⟨f, receiver, arguments⟩ := c
  obtain ⟨f', receiver', arguments'⟩ := c'
  obtain ⟨hf, hreceiver, hitems⟩ := h
  intro π hπ
  show (⟨f, rename π receiver, rename π arguments⟩ : Call) = ⟨f', receiver', arguments'⟩
  rw [hreceiver π hπ, Corresponds.of_forall₂ hitems π hπ, show f = f' from hf]

/-- Related events correspond. -/
theorem EventRelated.corresponds {e e' : Event} (h : EventRelated (Corresponds run ρ) e e') :
    Corresponds run ρ e e' := by
  intro π hπ
  cases h with
  | read name hbase => exact congrArg (Event.read · name) (hbase π hπ)
  | call hcall => exact congrArg Event.call (hcall.corresponds π hπ)

/-- Executions that are related through a matching are the same up to every renaming that agrees
with it. -/
theorem ExecutionRelated.eq_rename {x y : Execution σ α} {π : Renaming}
    (h : ExecutionRelated (Corresponds run ρ) (Corresponds run ρ) (Corresponds run ρ) x y)
    (hπ : π.Agrees run ρ) : y = rename π x := by
  have hevents : rename π x.events = y.events :=
    Corresponds.of_forall₂ (h.events.imp fun _ _ he => he.corresponds) π hπ
  show y = ⟨rename π x.outcome, rename π x.events, rename π x.host⟩
  rw [h.outcome.corresponds π hπ, hevents, h.host π hπ]

/-- **Compilation is correct.**  Evaluating a compiled program has the outcome, the events and the
effect on the host of the direct evaluation of its tree, up to one renaming of the identities
that the run hands out. -/
theorem evaluate_ofProgram_eq_rename (host : Host σ) (denied : DenyList) (p : Program)
    (context : Option Value) (s : σ) (hhost : host.RespectsRenaming run)
    (hcontext : Fresh run context) (hs : Fresh run s) :
    ∃ π : Renaming, π.Within run ∧
      (Evaluator.ofProgram denied p).evaluate host context run s =
        rename π ((p.evaluate (context.getD .undefined) run).execute denied host s) := by
  have hfresh : Fresh run (context.getD .undefined) := by
    intro π hπ
    cases context with
    | none => rfl
    | some v => exact Option.some.inj (hcontext π hπ)
  have hcalls : ∀ (ρ : Matching) (c c' : Call) (t t' : σ),
      CallRelated (Corresponds run ρ) c c' → Corresponds run ρ t t' →
        OutcomeRelated (Corresponds run ρ) (host.call c t).1 (host.call c' t').1 ∧
          Corresponds run ρ (host.call c t).2 (host.call c' t').2 := by
    intro ρ c c' t t' hc ht
    have hanswer : Corresponds run ρ (host.call c t) (host.call c' t') := by
      intro π hπ
      rw [← hhost π hπ.within, hc.corresponds π hπ, ht π hπ]
    have houtcome : Corresponds run ρ (host.call c t).1 (host.call c' t').1 :=
      fun π hπ => congrArg Prod.fst (hanswer π hπ)
    exact ⟨houtcome.outcomeRelated, fun π hπ => congrArg Prod.snd (hanswer π hπ)⟩
  have hexecute : ∃ ρ : Matching, Matching.empty ≤ ρ ∧
      ExecutionRelated (Corresponds run ρ) (Corresponds run ρ) (Corresponds run ρ)
        ((p.evaluate (context.getD .undefined) run).execute denied host s)
        ((Evaluator.ofProgram denied p).evaluate host context run s) :=
    (related_ofProgram hfresh p).execute (S := fun ρ => Corresponds run ρ)
      (fun _ _ _ _ le hv => hv.mono le) (fun _ _ _ _ le hst => hst.mono le)
      (fun _ v _ name hv _ => hv.map fun π v => (v.get_rename π name).symm) hcalls s s
      hs.corresponds
  obtain ⟨ρ, -, hrelated⟩ := hexecute
  obtain ⟨π, hπ⟩ := ρ.exists_agrees run
  exact ⟨π, hπ.within, hrelated.eq_rename hπ⟩

end Executions

/-! ## A host that records -/

/-- The host that records calls uses no identity at all. -/
theorem Host.recording_respectsRenaming (run : Nat) : Host.recording.RespectsRenaming run := by
  intro π _ c calls
  have hanswer : (rename π c.arguments).head? = rename π c.arguments.head? := List.head?_map
  have hcalls : rename π (calls ++ [c]) = rename π calls ++ [rename π c] := List.map_append
  refine Prod.ext ?_ hcalls.symm
  show Option.elim (rename π c.arguments).head? _ _ = rename π (Option.elim c.arguments.head? _ _)
  rw [hanswer]
  cases c.arguments.head? <;> rfl

/-- `f([true], [f([null])])`: the direct evaluation makes the array of `true` first, and the
compiled program that of `null`. -/
def Program.crossing : Program :=
  let call (arguments : List Expression) := Expression.call (.identifier "f") arguments
  [call [.array [some (.literal (.bool true))],
    .array [some (call [.array [some (.literal .null)]])]]]

/-- A context in which `f` is a function. -/
def Value.contextWith (f : Function) : Value :=
  .object ⟨1, 0⟩ [(f.name, .function f)]

/-- The crossing program on the host that records. -/
theorem evaluate_crossing :
    ∃ π : Renaming, π.Within 0 ∧
      (Evaluator.ofProgram .standard .crossing).evaluate Host.recording
          (some (.contextWith ⟨0, "f", false⟩)) 0 [] =
        rename π ((Program.crossing.evaluate (.contextWith ⟨0, "f", false⟩) 0).execute .standard
          Host.recording []) := by
  have hcontext : Fresh 0 (some (Value.contextWith ⟨0, "f", false⟩)) := by
    intro π hπ
    rw [rename_some, Value.contextWith, Value.rename_object, hπ ⟨1, 0⟩ (by decide)]
    rfl
  exact evaluate_ofProgram_eq_rename Host.recording .standard .crossing _ []
    (Host.recording_respectsRenaming 0) hcontext fun _ _ => rfl

end ExprSandbox
