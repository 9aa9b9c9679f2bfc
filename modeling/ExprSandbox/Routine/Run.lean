import ExprSandbox.Process
import ExprSandbox.Routine
import ExprSandbox.Value.Operation

/-!
# Running routines

A frame holds the context, the temporaries and the number of arrays and objects made so far.
Operands are evaluated within a frame and ask for nothing; statements ask for at most one member
or call each.
-/

namespace ExprSandbox

/-- What operands are evaluated in: the context, the number of the run, which goes into the
identities of what it makes, and the temporaries. -/
structure Scope where
  context : Value
  run : Nat
  temps : Array Value

/-- The state of a run: its scope, and how many arrays and objects it has made. -/
structure Frame extends Scope where
  made : Nat

/-! ## Operands -/

namespace Operand

mutual
/-- The value of an operand, and the number of arrays and objects made after it. -/
def eval (s : Scope) (o : Operand) (made : Nat) : Value × Nat :=
  match o with
  | .literal value => (.ofConstant value, made)
  | .temp index => (s.temps.getD index .undefined, made)
  | .context => (s.context, made)
  | .array slots =>
    let vs := evalSlots s slots made
    (.array ⟨s.run, vs.2⟩ vs.1, vs.2 + 1)
  | .object entries =>
    let es := evalEntries s entries made
    (.ofEntries ⟨s.run, es.2⟩ es.1, es.2 + 1)
  | .unary operator argument =>
    let a := argument.eval s made
    (operator.apply a.1, a.2)
  | .binary operator left right =>
    let l := left.eval s made
    let r := right.eval s l.2
    (operator.apply l.1 r.1, r.2)

/-- The slots of an array; a hole stays one. -/
def evalSlots (s : Scope) (slots : List (Option Operand)) (made : Nat) :
    List (Option Value) × Nat :=
  match slots with
  | [] => ([], made)
  | none :: rest =>
    let vs := evalSlots s rest made
    (none :: vs.1, vs.2)
  | some o :: rest =>
    let v := o.eval s made
    let vs := evalSlots s rest v.2
    (some v.1 :: vs.1, vs.2)

/-- The entries of an object. -/
def evalEntries (s : Scope) (entries : List (String × Operand)) (made : Nat) :
    List (String × Value) × Nat :=
  match entries with
  | [] => ([], made)
  | (key, o) :: rest =>
    let v := o.eval s made
    let es := evalEntries s rest v.2
    ((key, v.1) :: es.1, es.2)
end

/-- The values of operands from left to right. -/
def evalAll (s : Scope) (os : List Operand) (made : Nat) : List Value × Nat :=
  match os with
  | [] => ([], made)
  | o :: rest =>
    let v := o.eval s made
    let vs := evalAll s rest v.2
    (v.1 :: vs.1, vs.2)

end Operand

/-- The name of the member that a key addresses. -/
def Key.eval (s : Scope) (key : Key) (made : Nat) : String × Nat :=
  match key with
  | .named name => (name, made)
  | .computed operand =>
    let v := operand.eval s made
    (v.1.key, v.2)

/-! ## Statements -/

namespace Frame

/-- The frame a routine starts in, with every temporary `undefined`. -/
def start (context : Value) (run : Nat) (temps : Nat) : Frame :=
  ⟨⟨context, run, Array.replicate temps .undefined⟩, 0⟩

/-- Puts a value into a temporary. -/
def set (f : Frame) (target : Nat) (v : Value) : Frame :=
  { f with temps := f.temps.setIfInBounds target v }

/-- The frame after more arrays and objects were made. -/
def withMade (f : Frame) (made : Nat) : Frame :=
  { f with made := made }

end Frame

namespace Statement

mutual
/-- Runs a statement. -/
def run (s : Statement) (f : Frame) : Process Frame :=
  match s with
  | .assign target value =>
    let v := value.eval f.toScope f.made
    .done ((f.withMade v.2).set target v.1)
  | .readContext target name =>
    if f.context.isTruthy then .read f.context name fun v => .done (f.set target v)
    else .done f
  | .readMember target base key =>
    let b := base.eval f.toScope f.made
    if b.1.isNullish then .done (f.withMade b.2)
    else
      let k := key.eval f.toScope b.2
      .read b.1 k.1 fun v => .done ((f.withMade k.2).set target v)
  | .call target callee receiver arguments =>
    let c := callee.eval f.toScope f.made
    match c.1 with
    | .function g =>
      let r := receiver.eval f.toScope c.2
      let args := Operand.evalAll f.toScope arguments r.2
      .call g r.1 args.1 fun v => .done ((f.withMade args.2).set target v)
    | _ => .done (f.withMade c.2)
  | .branch test consequent alternate =>
    let t := test.eval f.toScope f.made
    if t.1.isTruthy then runAll consequent (f.withMade t.2)
    else runAll alternate (f.withMade t.2)

/-- Runs statements in order. -/
def runAll (body : List Statement) (f : Frame) : Process Frame :=
  match body with
  | [] => .done f
  | s :: rest => (s.run f).bind (runAll rest)
end

end Statement

namespace Routine

/-- Runs a routine in a context: its statements, then its result. -/
def run (r : Routine) (context : Value) (run : Nat) : Process Value :=
  (Statement.runAll r.body (.start context run r.declared.length)).map fun f =>
    (r.result.eval f.toScope f.made).1

end Routine

end ExprSandbox
