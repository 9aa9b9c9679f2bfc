import ExprSandbox.Error
import ExprSandbox.Options
import ExprSandbox.Value.Member

/-!
# Processes

What an evaluation asks of its surroundings is a tree of requests: reads of members and calls of
functions, each with the process that goes on from the answer.  The tree knows neither which
names are denied nor what functions do; both come in when it is executed.  The first request that
is refused, and the first call that fails, end an execution, and nothing is asked after that.
-/

namespace ExprSandbox

/-! ## Requests -/

/-- A computation that asks for members and calls and ends with an `α`. -/
inductive Process (α : Type) where
  | done (a : α)
  | read (base : Value) (name : String) (next : Value → Process α)
  | call (f : Function) (receiver : Value) (arguments : List Value) (next : Value → Process α)

namespace Process

variable {α β : Type}

/-- Goes on with another process from the result of a first one. -/
def bind : Process α → (α → Process β) → Process β
  | .done a, k => k a
  | .read base name next, k => .read base name fun v => (next v).bind k
  | .call f receiver arguments next, k => .call f receiver arguments fun v => (next v).bind k

/-- Changes the result of a process. -/
def map (f : α → β) (p : Process α) : Process β :=
  p.bind fun a => .done (f a)

end Process

/-! ## Hosts -/

/-- A call of a function, as its host sees it. -/
structure Call where
  function : Function
  receiver : Value
  arguments : List Value

/-- What functions do when they are called: a result or an error, and a new state. -/
structure Host (σ : Type) where
  call : Call → σ → Except EvalError Value × σ

/-! ## Executions -/

/-- What an execution has done: a member that it read, or a call that it made. -/
inductive Event where
  | read (base : Value) (name : String)
  | call (c : Call)

/-- How an execution ended, what it did in order, and the state in which it left the host. -/
structure Execution (σ α : Type) where
  outcome : Except EvalError α
  events : List Event
  host : σ

namespace Execution

variable {σ α : Type}

/-- The same execution with an event before its events. -/
def after (e : Event) (x : Execution σ α) : Execution σ α :=
  { x with events := e :: x.events }

/-- The calls that an execution made, in order. -/
def calls (x : Execution σ α) : List Call :=
  x.events.filterMap fun
    | .call c => some c
    | .read _ _ => none

end Execution

/-- Executes a process: a read of a denied name and a call of a function that builds code are
refused, every other request is answered. -/
def Process.execute {σ α : Type} (denied : DenyList) (host : Host σ) :
    Process α → σ → Execution σ α
  | .done a, s => ⟨.ok a, [], s⟩
  | .read base name next, s =>
    if denied.denies name then ⟨.error (.forbidden name), [], s⟩
    else ((next (base.get name)).execute denied host s).after (.read base name)
  | .call f receiver arguments next, s =>
    if f.constructsCode then ⟨.error (.forbidden f.name), [], s⟩
    else
      match host.call ⟨f, receiver, arguments⟩ s with
      | (.ok v, s) => ((next v).execute denied host s).after (.call ⟨f, receiver, arguments⟩)
      | (.error e, s) => ⟨.error e, [.call ⟨f, receiver, arguments⟩], s⟩

/-! ## Going on to a call -/

/-- How far a process comes without its host: to its outcome, or to a call. -/
inductive Advance (α : Type) where
  | ended (outcome : Except EvalError α)
  | calling (c : Call) (next : Value → Process α)

/-- Runs a process to its first call.  Reads are answered on the way, and what an execution
refuses ends it here too. -/
def Process.advance {α : Type} (denied : DenyList) : Process α → Advance α
  | .done a => .ended (.ok a)
  | .read base name next =>
    if denied.denies name then .ended (.error (.forbidden name))
    else (next (base.get name)).advance denied
  | .call f receiver arguments next =>
    if f.constructsCode then .ended (.error (.forbidden f.name))
    else .calling ⟨f, receiver, arguments⟩ next

/-- An execution that goes from call to call comes to the same end. -/
theorem Process.execute_eq_advance {σ α : Type} (denied : DenyList) (host : Host σ)
    (p : Process α) (s : σ) :
    ((p.execute denied host s).outcome, (p.execute denied host s).host) =
      match p.advance denied with
      | .ended outcome => (outcome, s)
      | .calling c next =>
        match host.call c s with
        | (.ok v, s) =>
          (((next v).execute denied host s).outcome, ((next v).execute denied host s).host)
        | (.error e, s) => (.error e, s) := by
  induction p with
  | done a => rfl
  | read base name next ih =>
    by_cases h : denied.denies name
    · simp [execute, advance, h]
    · simpa [execute, advance, h, Execution.after] using ih (base.get name)
  | call f receiver arguments next _ =>
    by_cases h : f.constructsCode
    · simp [execute, advance, h]
    · simp only [execute, advance, h, Bool.false_eq_true, if_false]
      cases host.call ⟨f, receiver, arguments⟩ s with
      | mk answer s => cases answer <;> rfl

end ExprSandbox
