import ExprSandbox.Evaluator
import ExprSandbox.Proofs.Machine

/-!
# The sandbox

What an evaluation does is what the machine of its routine does.  So the evaluation reads no
denied name and calls no function that builds code, whatever the routine, the context and the
host are, and it fails exactly when the machine meets a fault, after which nothing happens any
more (`evaluate_sandboxed`).
-/

namespace ExprSandbox

variable {σ α β : Type}

/-! ## Executions -/

namespace Execution

/-- The same execution with events before its events. -/
def afterAll (events : List Event) (x : Execution σ α) : Execution σ α :=
  { x with events := events ++ x.events }

/-- The same execution with a changed result. -/
def map (f : α → β) (x : Execution σ α) : Execution σ β :=
  ⟨x.outcome.map f, x.events, x.host⟩

end Execution

/-- Changing the result of a process changes the result of its execution. -/
theorem Process.execute_map (denied : DenyList) (host : Host σ) (f : α → β) (p : Process α) :
    ∀ s, (p.map f).execute denied host s = (p.execute denied host s).map f := by
  induction p with
  | done a => exact fun s => rfl
  | read base name next ih =>
    intro s
    show Process.execute denied host (.read base name fun v => (next v).map f) s = _
    rw [execute, execute]
    split
    · rfl
    · rw [ih]
      rfl
  | call g receiver arguments next ih =>
    intro s
    show Process.execute denied host (.call g receiver arguments fun v => (next v).map f) s = _
    rw [execute, execute]
    split
    · rfl
    · rcases host.call ⟨g, receiver, arguments⟩ s with ⟨e | v, s'⟩
      · rfl
      · show Execution.after _ ((Process.map f (next v)).execute denied host s') = _
        rw [ih]
        rfl

/-- What a state of the machine executes. -/
def State.execution (denied : DenyList) (host : Host σ) (st : State σ) : Execution σ Frame :=
  (Statement.runAll st.code st.frame).execute denied host st.host

/-- What a state executes begins with its first statement. -/
theorem State.execution_cons (denied : DenyList) (host : Host σ) (first : Statement)
    (rest : List Statement) (f : Frame) (s : σ) :
    State.execution denied host ⟨first :: rest, f, s⟩ =
      ((first.run f).bind (Statement.runAll rest)).execute denied host s := by
  rw [execution, Statement.runAll_cons]

section Machine

variable {denied : DenyList} {host : Host σ} {st st' : State σ} {es : List Event} {fault : Fault}
variable {s' : σ}

/-- A read that is not denied is the beginning of an execution. -/
theorem Process.execute_read {base : Value} {name : String} {next : Value → Process α} {s : σ}
    (h : denied.denies name = false) :
    (Process.read base name next).execute denied host s =
      ((next (base.get name)).execute denied host s).afterAll [.read base name] := by
  rw [execute, h, if_neg Bool.false_ne_true]
  rfl

/-- A call that is answered is the beginning of an execution. -/
theorem Process.execute_call {c : Call} {next : Value → Process α} {s : σ} {v : Value}
    (h : c.function.constructsCode = false) (answer : host.call c s = (.ok v, s')) :
    (Process.call c.function c.receiver c.arguments next).execute denied host s =
      ((next v).execute denied host s').afterAll [.call c] := by
  rw [execute, h, if_neg Bool.false_ne_true, answer]
  rfl

/-- **A step is the beginning of an execution**, which goes on from the next state. -/
theorem Step.execution_eq (h : Step denied host st es st') :
    st.execution denied host = (st'.execution denied host).afterAll es := by
  cases h with
  | assign value =>
    rw [State.execution_cons, Statement.run_assign, value]
    rfl
  | readContext truthy allowed =>
    rw [State.execution_cons, Statement.run_readContext_of_truthy truthy]
    exact Process.execute_read allowed
  | skipContext falsy =>
    rw [State.execution_cons, Statement.run_readContext_of_falsy falsy]
    rfl
  | readMember base present key_eval allowed =>
    rw [State.execution_cons, Statement.run_readMember_of_present (by rw [base]; exact present),
      base, key_eval]
    exact Process.execute_read allowed
  | skipMember base missing =>
    rw [State.execution_cons, Statement.run_readMember_of_nullish (by rw [base]; exact missing),
      base]
    rfl
  | call callee receiver_eval arguments_eval allowed answer =>
    rw [State.execution_cons, Statement.run_call_of_function (by rw [callee]), callee]
    simp only [receiver_eval, arguments_eval]
    exact Process.execute_call allowed answer
  | skipCall callee uncallable =>
    rw [State.execution_cons,
      Statement.run_call_of_not_function (by rw [callee]; exact uncallable), callee]
    rfl
  | @branch n o a b rest f s v test =>
    rw [State.execution_cons, Statement.run_branch, test]
    show Process.execute denied host
        ((if v.isTruthy then Statement.runAll a (f.withMade n)
          else Statement.runAll b (f.withMade n)).bind (Statement.runAll rest)) s
      = (Statement.runAll ((if v.isTruthy then a else b) ++ rest) (f.withMade n)).execute
          denied host s
    rw [Statement.runAll_append]
    split <;> rfl

/-- **An execution that meets a fault ends there.** -/
theorem Meets.execution_eq (h : Meets denied host st fault s') :
    st.execution denied host = ⟨.error fault.error, fault.events, s'⟩ := by
  cases h with
  | readContext truthy refused =>
    rw [State.execution_cons, Statement.run_readContext_of_truthy truthy]
    exact if_pos refused
  | readMember base present key_eval refused =>
    rw [State.execution_cons, Statement.run_readMember_of_present (by rw [base]; exact present),
      base, key_eval]
    exact if_pos refused
  | flagged callee refused =>
    rw [State.execution_cons, Statement.run_call_of_function (by rw [callee])]
    simp only [Process.bind]
    rw [Process.execute, if_pos refused]
    rfl
  | failed callee receiver_eval arguments_eval allowed answer =>
    rw [State.execution_cons, Statement.run_call_of_function (by rw [callee]), callee]
    simp only [receiver_eval, arguments_eval, Process.bind]
    rw [Process.execute, allowed, if_neg Bool.false_ne_true, answer]
    rfl

/-- **A run is the beginning of an execution.** -/
theorem Runs.execution_eq (h : Runs denied host st es st') :
    st.execution denied host = (st'.execution denied host).afterAll es := by
  induction h with
  | refl st => rfl
  | @step st st₁ st₂ es es' first _ ih =>
    rw [first.execution_eq, ih]
    show Execution.mk _ (es ++ (es' ++ _)) _ = Execution.mk _ (es ++ es' ++ _) _
    rw [List.append_assoc]
    rfl

end Machine

/-! ## Evaluations -/

/-- The state in which the machine of an evaluation starts. -/
def Evaluator.start (ev : Evaluator) (context : Option Value) (run : Nat) (s : σ) : State σ :=
  ⟨ev.routine.body, .start (context.getD .undefined) run ev.routine.declared.length, s⟩

/-- An evaluation is what its machine executes, with the result at the end. -/
theorem Evaluator.evaluate_eq (ev : Evaluator) (host : Host σ) (context : Option Value) (run : Nat)
    (s : σ) :
    ev.evaluate host context run s =
      ((ev.start context run s).execution ev.denied host).map fun f =>
        (ev.routine.result.eval f.toScope f.made).1 := by
  rw [evaluate, Routine.run, Process.execute_map]
  rfl

/-- The execution `x` is that of a machine from the state `start` which keeps what is denied out
of reach. -/
structure Sandboxed (denied : DenyList) (host : Host σ) (start : State σ) (x : Execution σ α) :
    Prop where
  /-- No value is read under a denied name. -/
  reads : ∀ base name, .read base name ∈ x.events → denied.denies name = false
  /-- No function is called that builds code. -/
  calls : ∀ c, .call c ∈ x.events → c.function.constructsCode = false
  /-- It fails exactly when the machine meets a fault. -/
  error_iff : ∀ e, x.outcome = .error e ↔
    ∃ es st fault s', Runs denied host start es st ∧ Meets denied host st fault s' ∧
      fault.error = e
  /-- After the fault nothing is done, no statement is run, and the host stays as it is. -/
  stops : ∀ es st fault s', Runs denied host start es st → Meets denied host st fault s' →
    x.events = es ++ fault.events ∧ x.host = s' ∧ ∀ es' st', ¬ Step denied host st es' st'
  /-- Without a fault it has a result. -/
  ok_iff : (∃ a, x.outcome = .ok a) ↔
    ∀ es st, Runs denied host start es st → ∀ fault s', ¬ Meets denied host st fault s'

section Machine

variable {denied : DenyList} {host : Host σ} {start st : State σ} {es : List Event} {fault : Fault}
variable {s' : σ}

/-- What is executed when a run meets a fault. -/
theorem Runs.execution_of_meets (h : Runs denied host start es st)
    (h' : Meets denied host st fault s') :
    start.execution denied host = ⟨.error fault.error, es ++ fault.events, s'⟩ := by
  rw [h.execution_eq, h'.execution_eq]
  rfl

/-- What is executed when a run uses up its code. -/
theorem Runs.execution_of_end (h : Runs denied host start es st) (hend : st.code = []) :
    start.execution denied host = ⟨.ok st.frame, es, st.host⟩ := by
  rw [h.execution_eq, State.execution, hend, Statement.runAll_nil, Process.execute,
    Execution.afterAll, List.append_nil]

/-- **The machine keeps what is denied out of reach**, whatever is made of its last frame. -/
theorem State.sandboxed (denied : DenyList) (host : Host σ) (start : State σ) (g : Frame → α) :
    Sandboxed denied host start ((start.execution denied host).map g) := by
  obtain ⟨es, st, hruns, hend⟩ := start.exists_runs denied host
  -- the events of the one run there is are those of the execution
  have hallowed : ∀ event ∈ (start.execution denied host).events, event.Allowed denied := by
    rcases hend with hend | ⟨fault, s', hmeets⟩
    · rw [hruns.execution_of_end hend]
      exact hruns.allowed
    · rw [hruns.execution_of_meets hmeets]
      intro event hevent
      rcases List.mem_append.mp hevent with hevent | hevent
      · exact hruns.allowed event hevent
      · exact hmeets.allowed event hevent
  have hfault : ∀ es st fault s', Runs denied host start es st → Meets denied host st fault s' →
      (start.execution denied host).map g = ⟨.error fault.error, es ++ fault.events, s'⟩ := by
    intro es st fault s' hruns hmeets
    rw [hruns.execution_of_meets hmeets]
    rfl
  refine ⟨fun base name h => hallowed _ h, fun c h => hallowed _ h, fun e => ?_, ?_, ?_⟩
  · constructor
    · intro he
      rcases hend with hend | ⟨fault, s', hmeets⟩
      · rw [hruns.execution_of_end hend] at he
        cases he
      · rw [hfault es st fault s' hruns hmeets] at he
        exact ⟨es, st, fault, s', hruns, hmeets, Except.error.inj he⟩
    · rintro ⟨es, st, fault, s', hruns, hmeets, rfl⟩
      rw [hfault es st fault s' hruns hmeets]
  · intro es st fault s' hruns hmeets
    rw [hfault es st fault s' hruns hmeets]
    exact ⟨rfl, rfl, fun es' st' => hmeets.not_step⟩
  · constructor
    · rintro ⟨a, ha⟩ es st hruns fault s' hmeets
      rw [hfault es st fault s' hruns hmeets] at ha
      cases ha
    · intro hnone
      rcases hend with hend | ⟨fault, s', hmeets⟩
      · rw [hruns.execution_of_end hend]
        exact ⟨g st.frame, rfl⟩
      · exact absurd hmeets (hnone es st hruns fault s')

end Machine

/-- **Evaluations are sandboxed**: no denied name is read and no function that builds code is
called, and an evaluation fails at the first fault that its machine meets, and only there. -/
theorem evaluate_sandboxed (ev : Evaluator) (host : Host σ) (context : Option Value) (run : Nat)
    (s : σ) :
    Sandboxed ev.denied host (ev.start context run s) (ev.evaluate host context run s) := by
  rw [ev.evaluate_eq]
  exact (ev.start context run s).sandboxed ev.denied host _

end ExprSandbox
