import ExprSandbox.Expression
import ExprSandbox.Process
import ExprSandbox.Value.Operation

/-!
# Evaluating trees directly

What an expression means, without a routine: its parts are evaluated from left to right.  A name
reads the context where that is truthy.  A member of `undefined` or `null` is `undefined`, and
its key is not evaluated.  The arguments of a call are evaluated whether or not the callee is a
function.
-/

namespace ExprSandbox

/-- What expressions are evaluated in: the context, and the number of the evaluation, which goes
into the identities of what it makes. -/
structure Setting where
  context : Value
  run : Nat

namespace Expression

/-- The callee of a call with its receiver. -/
structure Callee where
  value : Value
  receiver : Value

/-- Reads a name of the context, unless the context is falsy. -/
def readName (s : Setting) (name : String) : Process Value :=
  if s.context.isTruthy then .read s.context name .done else .done .undefined

/-- Reads the member of a value under a key, which is evaluated only if the value can have
members. -/
def readKey (base : Value) (made : Nat) (key : Nat → Process (String × Nat)) :
    Process (Value × Nat) :=
  if base.isNullish then .done (.undefined, made)
  else (key made).bind fun k => .read base k.1 fun v => .done (v, k.2)

/-- Calls a value, if it is a function. -/
def callValue (c : Callee) (arguments : List Value) : Process Value :=
  match c.value with
  | .function f => .call f c.receiver arguments .done
  | _ => .done .undefined

/-- Whether the left operand of a logical operator is already its value. -/
def decides (operator : LogicalOp) (left : Value) : Bool :=
  match operator with
  | .and => !left.isTruthy
  | .or => left.isTruthy

mutual
/-- Evaluates an expression; `made` counts the arrays and objects made so far. -/
def evaluate (s : Setting) (e : Expression) (made : Nat) : Process (Value × Nat) :=
  match e with
  | .literal value => .done (.ofConstant value, made)
  | .identifier name => (readName s name).map (·, made)
  | .array elements =>
    (evaluateElements s elements made).map fun vs => (.array ⟨s.run, vs.2⟩ vs.1, vs.2 + 1)
  | .object properties =>
    (evaluateProperties s properties made).map fun es =>
      (.ofEntries ⟨s.run, es.2⟩ es.1, es.2 + 1)
  | .unary operator argument =>
    (argument.evaluate s made).map fun a => (operator.apply a.1, a.2)
  | .binary operator left right =>
    (left.evaluate s made).bind fun l =>
      (right.evaluate s l.2).map fun r => (operator.apply l.1 r.1, r.2)
  | .logical operator left right =>
    (left.evaluate s made).bind fun l =>
      if decides operator l.1 then .done l else right.evaluate s l.2
  | .conditional test consequent alternate =>
    (test.evaluate s made).bind fun t =>
      if t.1.isTruthy then consequent.evaluate s t.2 else alternate.evaluate s t.2
  | .member base property computed =>
    (base.evaluate s made).bind fun b =>
      readKey b.1 b.2 fun made =>
        match property.staticName? computed with
        | some name => .done (name, made)
        | none => (property.evaluate s made).map fun k => (k.1.key, k.2)
  | .call callee arguments =>
    let target : Process (Callee × Nat) :=
      match callee with
      | .member base property computed =>
        (base.evaluate s made).bind fun b =>
          (readKey b.1 b.2 fun made =>
            match property.staticName? computed with
            | some name => .done (name, made)
            | none => (property.evaluate s made).map fun k => (k.1.key, k.2)).map
            fun m => (⟨m.1, b.1⟩, m.2)
      | .identifier name => (readName s name).map fun v => (⟨v, s.context⟩, made)
      | callee => (callee.evaluate s made).map fun c => (⟨c.1, .undefined⟩, c.2)
    target.bind fun t =>
      (evaluateArguments s arguments t.2).bind fun args =>
        (callValue t.1 args.1).map (·, args.2)

/-- Evaluates the elements of an array; a hole stays one. -/
def evaluateElements (s : Setting) (elements : List (Option Expression)) (made : Nat) :
    Process (List (Option Value) × Nat) :=
  match elements with
  | [] => .done ([], made)
  | none :: rest => (evaluateElements s rest made).map fun vs => (none :: vs.1, vs.2)
  | some e :: rest =>
    (e.evaluate s made).bind fun v =>
      (evaluateElements s rest v.2).map fun vs => (some v.1 :: vs.1, vs.2)

/-- Evaluates the values of an object. -/
def evaluateProperties (s : Setting) (properties : List (PropertyKey × Expression)) (made : Nat) :
    Process (List (String × Value) × Nat) :=
  match properties with
  | [] => .done ([], made)
  | (key, e) :: rest =>
    (e.evaluate s made).bind fun v =>
      (evaluateProperties s rest v.2).map fun es => ((key.name, v.1) :: es.1, es.2)

/-- Evaluates arguments. -/
def evaluateArguments (s : Setting) (arguments : List Expression) (made : Nat) :
    Process (List Value × Nat) :=
  match arguments with
  | [] => .done ([], made)
  | e :: rest =>
    (e.evaluate s made).bind fun v =>
      (evaluateArguments s rest v.2).map fun vs => (v.1 :: vs.1, vs.2)
end

/-- Evaluates expressions in order; the last one gives the value, and `result` is the value when
there is none. -/
def evaluateAll (s : Setting) (result : Value) (p : Program) (made : Nat) :
    Process (Value × Nat) :=
  match p with
  | [] => .done (result, made)
  | e :: rest => (e.evaluate s made).bind fun v => evaluateAll s v.1 rest v.2

end Expression

/-- Evaluates a program in a context. -/
def Program.evaluate (p : Program) (context : Value) (run : Nat) : Process Value :=
  (Expression.evaluateAll ⟨context, run⟩ .undefined p 0).map Prod.fst

end ExprSandbox
