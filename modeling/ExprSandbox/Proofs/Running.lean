import ExprSandbox.Proofs.Simulation
import ExprSandbox.Routine.Run

/-!
# Running statements

What a run of statements is made of: temporaries that are put and read, code in sequence, and the
two things each guarded statement may do, which are to ask for something and to pass.
-/

namespace ExprSandbox

namespace Frame

/-- A temporary holds what was put into it. -/
theorem getD_set (f : Frame) {t : Nat} (ht : t < f.temps.size) (v : Value) :
    (f.set t v).temps.getD t .undefined = v := by
  simp [set, Array.getD_eq_getD_getElem?, ht]

/-- A temporary that a frame does not have stays `undefined`. -/
theorem getD_set_of_size_le (f : Frame) {t : Nat} (ht : f.temps.size ≤ t) (v : Value) :
    (f.set t v).temps.getD t .undefined = .undefined := by
  simp [set, Array.getD_eq_getD_getElem?, ht]

/-- Putting a value into a temporary leaves the others alone. -/
theorem getD_set_of_ne (f : Frame) {t i : Nat} (h : i ≠ t) (v : Value) :
    (f.set t v).temps.getD i .undefined = f.temps.getD i .undefined := by
  simp [set, Array.getD_eq_getD_getElem?, Ne.symm h]

/-- Putting a value into a temporary makes and drops none. -/
theorem size_temps_set (f : Frame) (t : Nat) (v : Value) :
    (f.set t v).temps.size = f.temps.size := by
  simp [set]

end Frame

namespace Statement

/-- Running no code. -/
@[simp] theorem runAll_nil (f : Frame) : runAll [] f = .done f := rfl

/-- Running a statement and then the rest. -/
theorem runAll_cons (s : Statement) (rest : List Statement) (f : Frame) :
    runAll (s :: rest) f = (s.run f).bind (runAll rest) := rfl

/-- Running a single statement. -/
theorem runAll_singleton (s : Statement) (f : Frame) : runAll [s] f = s.run f := by
  have hnil : runAll [] = Process.done := funext runAll_nil
  rw [runAll_cons, hnil, Process.bind_done]

/-- Running code that is appended. -/
theorem runAll_append (c c' : List Statement) (f : Frame) :
    runAll (c ++ c') f = (runAll c f).bind (runAll c') := by
  induction c generalizing f with
  | nil =>
    rw [List.nil_append, runAll_nil, Process.done_bind]
  | cons s rest ih =>
    rw [List.cons_append, runAll_cons, runAll_cons, Process.bind_assoc]
    congr 1
    funext f'
    exact ih f'

/-- The value of an operand is put into a temporary. -/
theorem run_assign (t : Nat) (o : Operand) (f : Frame) :
    (assign t o).run f =
      .done ((f.withMade (o.eval f.toScope f.made).2).set t (o.eval f.toScope f.made).1) := rfl

/-- The test decides which block is run. -/
theorem run_branch (o : Operand) (a b : List Statement) (f : Frame) :
    (branch o a b).run f =
      if (o.eval f.toScope f.made).1.isTruthy then
        runAll a (f.withMade (o.eval f.toScope f.made).2)
      else runAll b (f.withMade (o.eval f.toScope f.made).2) := rfl

section Guards

variable {f : Frame} {t : Nat} {name : String} {o callee receiver : Operand} {key : Key}
variable {arguments : List Operand}

/-- A truthy context is read. -/
theorem run_readContext_of_truthy (h : f.context.isTruthy = true) :
    (readContext t name).run f = .read f.context name fun v => .done (f.set t v) :=
  if_pos h

/-- A falsy context is left alone. -/
theorem run_readContext_of_falsy (h : f.context.isTruthy = false) :
    (readContext t name).run f = .done f :=
  if_neg (ne_true_of_eq_false h)

/-- A missing value is left alone, and the key is not evaluated. -/
theorem run_readMember_of_nullish (h : (o.eval f.toScope f.made).1.isNullish = true) :
    (readMember t o key).run f = .done (f.withMade (o.eval f.toScope f.made).2) :=
  if_pos h

/-- A value that is not missing is read under its key. -/
theorem run_readMember_of_present (h : (o.eval f.toScope f.made).1.isNullish = false) :
    (readMember t o key).run f =
      .read (o.eval f.toScope f.made).1
        (key.eval f.toScope (o.eval f.toScope f.made).2).1 fun v =>
          .done ((f.withMade (key.eval f.toScope (o.eval f.toScope f.made).2).2).set t v) :=
  if_neg (ne_true_of_eq_false h)

/-- A function is called with its receiver and its arguments. -/
theorem run_call_of_function {g : Function}
    (h : (callee.eval f.toScope f.made).1 = .function g) :
    (call t callee receiver arguments).run f =
      let r := receiver.eval f.toScope (callee.eval f.toScope f.made).2
      let args := Operand.evalAll f.toScope arguments r.2
      .call g r.1 args.1 fun v => .done ((f.withMade args.2).set t v) := by
  rw [run, h]

/-- What is no function is not called. -/
theorem run_call_of_not_function (h : ∀ g, (callee.eval f.toScope f.made).1 ≠ .function g) :
    (call t callee receiver arguments).run f =
      .done (f.withMade (callee.eval f.toScope f.made).2) := by
  rw [run]
  split
  · next g hg => exact absurd hg (h g)
  · rfl

end Guards

end Statement

end ExprSandbox
