import ExprSandbox.Evaluator
import ExprSandbox.Value.Conversion

/-!
# A registry of functions

A host whose functions are of a few fixed kinds.  The registry knows what each function does,
counts the calls of counters, keeps a log of calls, and hands out identities: every evaluation
and every value that is made outside of one gets a number of its own.

A function may call functions in turn, and an evaluator may reach itself through its context.
The evaluations that wait for a call are kept in a list, so calls may be nested as deeply as the
list may grow.  An evaluator that always calls itself never ends, so the number of answers that
one call takes is bounded, and a call that needs more fails.
-/

namespace ExprSandbox

/-! ## Kinds of functions -/

/-- What a function does when it is called. -/
inductive Behavior where
  /-- Gives the same value each time. -/
  | const (value : Value)
  /-- Gives its first argument. -/
  | first
  /-- Gives a new array of its arguments. -/
  | arguments
  /-- Gives its receiver. -/
  | receiver
  /-- Gives a member of its receiver. -/
  | receiverMember (name : String)
  /-- Adds those of its arguments that are numbers. -/
  | sum
  /-- Counts its calls. -/
  | counter (calls : Nat)
  /-- Fails with an error. -/
  | fail (error : EvalError)
  /-- Calls its first argument with its own receiver and the other arguments. -/
  | apply
  /-- Compiles the text of its first argument and gives a function that evaluates it. -/
  | constructor
  /-- Evaluates a compiled program in its first argument. -/
  | compiled (evaluator : Evaluator)

namespace Behavior

/-- Whether calls of such a function are logged. -/
def isLogged : Behavior → Bool
  | .constructor => false
  | .compiled _ => false
  | _ => true

/-- Whether calling such a function builds new code. -/
def constructsCode : Behavior → Bool
  | .constructor => true
  | _ => false

end Behavior

/-! ## The registry -/

/-- The state of the host: what each function does, in the order of their numbers, the log of
calls, and the next number for an evaluation or a value. -/
structure Registry where
  behaviors : Array Behavior
  log : Array Call
  nextRun : Nat

namespace Registry

/-- The registry before anything was made. -/
def empty : Registry := ⟨#[], #[], 0⟩

/-- A number for an evaluation or a value. -/
def newRun (r : Registry) : Nat × Registry :=
  (r.nextRun, { r with nextRun := r.nextRun + 1 })

/-- An identity for a value made outside of an evaluation. -/
def newIdentity (r : Registry) : Identity × Registry :=
  (⟨r.nextRun, 0⟩, { r with nextRun := r.nextRun + 1 })

/-- A new function. -/
def newFunction (r : Registry) (name : String) (b : Behavior) : Function × Registry :=
  (⟨r.behaviors.size, name, b.constructsCode⟩, { r with behaviors := r.behaviors.push b })

/-- The name of every function that builds code. -/
def constructorName : String := "Function"

/-- A new function that builds code. -/
def newConstructor (r : Registry) : Function × Registry :=
  r.newFunction constructorName .constructor

/-- The name of every function that is made from an evaluator. -/
def evaluatorName : String := "anonymous"

/-- A new function that evaluates in its first argument. -/
def newEvaluatorFunction (r : Registry) (e : Evaluator) : Function × Registry :=
  r.newFunction evaluatorName (.compiled e)

/-- Sets what a function does from now on. -/
def update (r : Registry) (f : Function) (b : Behavior) : Registry :=
  { r with behaviors := r.behaviors.setIfInBounds f.id b }

/-- The registry with a call added to its log. -/
def logCall (r : Registry) (c : Call) : Registry :=
  { r with log := r.log.push c }

/-- The log of calls, and the registry with an empty one. -/
def takeLog (r : Registry) : List Call × Registry :=
  (r.log.toList, { r with log := #[] })

/-! ## Calls -/

/-- The sum of those of some values that are numbers. -/
def sumNumbers (vs : List Value) : Float :=
  (vs.filterMap Value.asNumber?).foldl (· + ·) Number.zero

/-- Compiles the text of the first argument, with the standard options. -/
def construct (r : Registry) (arguments : List Value) : Except EvalError Value × Registry :=
  match Evaluator.ofSource {} ((arguments.head?.map Value.text).getD "") with
  | .error e => (.error (.host e.message), r)
  | .ok e =>
    let f := r.newEvaluatorFunction e
    (.ok (.function f.1), f.2)

/-- What answering a call begins with: it has an outcome, another call stands in for it, or an
evaluator evaluates in a context. -/
inductive Reply where
  | outcome (outcome : Except EvalError Value)
  | forward (c : Call)
  | evaluate (evaluator : Evaluator) (context : Value)

/-- Begins to answer a call. -/
def reply (r : Registry) (c : Call) : Reply × Registry :=
  match r.behaviors[c.function.id]? with
  | none => (.outcome (.ok .undefined), r)
  | some b =>
    let r := if b.isLogged then r.logCall c else r
    match b with
    | .const value => (.outcome (.ok value), r)
    | .first => (.outcome (.ok (c.arguments.head?.getD .undefined)), r)
    | .arguments =>
      let id := r.newIdentity
      (.outcome (.ok (.ofItems id.1 c.arguments)), id.2)
    | .receiver => (.outcome (.ok c.receiver), r)
    | .receiverMember name => (.outcome (.ok (c.receiver.get name)), r)
    | .sum => (.outcome (.ok (.number (sumNumbers c.arguments))), r)
    | .counter calls =>
      (.outcome (.ok (.number (Number.ofNat (calls + 1)))),
        r.update c.function (.counter (calls + 1)))
    | .fail e => (.outcome (.error e), r)
    | .apply =>
      match c.arguments with
      | .function f :: rest => (.forward ⟨f, c.receiver, rest⟩, r)
      | _ => (.outcome (.ok .undefined), r)
    | .constructor =>
      let f := r.construct c.arguments
      (.outcome f.1, f.2)
    | .compiled e => (.evaluate e (c.arguments.head?.getD .undefined), r)

/-! ## Calls within calls -/

/-- An evaluation that waits for a value: the names that it refuses to read, and how it goes
on. -/
structure Waiting where
  denied : DenyList
  next : Value → Process Value

/-- An evaluation that waits for its context. -/
def Waiting.ofEvaluator (e : Evaluator) (run : Nat) : Waiting :=
  ⟨e.denied, fun context => e.routine.run context run⟩

/-- How far a call is settled: it has its outcome, or a call is to be answered for which
evaluations wait, the innermost one first. -/
inductive Progress where
  | settled (outcome : Except EvalError Value)
  | calling (c : Call) (waiting : List Waiting)

/-- Hands an outcome to the evaluations that wait for it.  A value lets the innermost one go on
to its next call or to its own outcome; an error ends them all. -/
def resume : Except EvalError Value → List Waiting → Progress
  | .error e, _ => .settled (.error e)
  | .ok v, [] => .settled (.ok v)
  | .ok v, w :: waiting =>
    match (w.next v).advance w.denied with
    | .ended outcome => resume outcome waiting
    | .calling c next => .calling c (⟨w.denied, next⟩ :: waiting)

/-- Answers the call for which evaluations wait. -/
def proceed (r : Registry) (c : Call) (waiting : List Waiting) : Progress × Registry :=
  match r.reply c with
  | (.outcome outcome, r) => (resume outcome waiting, r)
  | (.forward c, r) => (.calling c waiting, r)
  | (.evaluate e context, r) =>
    let run := r.newRun
    (resume (.ok context) (.ofEvaluator e run.1 :: waiting), run.2)

/-- Why a call fails that comes to too many calls. -/
def tooManyCalls : EvalError :=
  .host "too many calls"

/-- Settles a call with at most `n` answers. -/
def settle (n : Nat) (p : Progress) (r : Registry) : Except EvalError Value × Registry :=
  match n, p with
  | _, .settled outcome => (outcome, r)
  | 0, .calling _ _ => (.error tooManyCalls, r)
  | n + 1, .calling c waiting =>
    let next := r.proceed c waiting
    settle n next.1 next.2

/-- How many answers a call may take, those to the calls within it included.  The bound gives
every call an outcome, also one that would go on without end. -/
def maxAnswers : Nat := 1000000000000

/-- The host that the registry is the state of. -/
def host : Host Registry :=
  ⟨fun c r => settle maxAnswers (.calling c []) r⟩

/-- Calls a function directly, without the checks of an evaluation. -/
def call (r : Registry) (c : Call) : Except EvalError Value × Registry :=
  host.call c r

/-- Evaluates in a context, under a new number. -/
def evaluate (r : Registry) (e : Evaluator) (context : Option Value) :
    Except EvalError Value × Registry :=
  let run := r.newRun
  let x := e.evaluate host context run.1 run.2
  (x.outcome, x.host)

/-- The value of a document, all of whose arrays and objects are new. -/
def ofJson (r : Registry) (j : Json) : Value × Registry :=
  let run := r.newRun
  ((Value.ofJson run.1 j 0).1, run.2)

end Registry

end ExprSandbox
