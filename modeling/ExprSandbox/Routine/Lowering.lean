import ExprSandbox.Expression
import ExprSandbox.Routine

/-!
# From trees to routines

Lowering an expression gives the statements that have to run first and the operand that is its
value after them.  Every read and every call gets a temporary of its own, numbered in the order
in which they are made.  `&&`, `||` and `?:` become conditional blocks that assign one temporary.
A computed key that needs statements is lowered behind the test of its object, so nothing in it
runs for a missing object.
-/

namespace ExprSandbox

/-- What an expression is lowered to, and the first temporary that is still free after it. -/
structure Lowered (α : Type) where
  code : List Statement
  value : α
  next : Nat

namespace Lowered

/-- An operand that needs no statements. -/
def pure {α : Type} (value : α) (next : Nat) : Lowered α :=
  ⟨[], value, next⟩

/-- A statement that makes the temporary `target`, after other statements. -/
def emit (code : List Statement) (target : Nat) (s : Statement) : Lowered Operand :=
  ⟨code ++ [s], .temp target, target + 1⟩

/-! ## Operands that are used twice -/

/-- An operand that may be copied: compound ones get a temporary. -/
def materialize (o : Operand) (next : Nat) : Lowered Operand :=
  match o with
  | .literal _ => pure o next
  | .temp _ => pure o next
  | .context => pure o next
  | o => emit [] next (.assign next o)

/-! ## Members -/

/-- The test that a value is neither `undefined` nor `null`. -/
def present (o : Operand) : Operand :=
  .binary .notEqual o (.literal .null)

/-- Reads a member under a name that is known. -/
def readNamed (base : Operand) (name : String) (next : Nat) : Lowered Operand :=
  emit [] next (.readMember next base (.named name))

/-- Reads a member under a computed key.  The statements of the key stand behind the same test as
the read. -/
def readComputed (base : Operand) (key : Lowered Operand) : Lowered Operand :=
  if key.code.isEmpty then emit [] key.next (.readMember key.next base (.computed key.value))
  else
    let base := materialize base key.next
    let read := .readMember base.next base.value (.computed key.value)
    emit base.code base.next (.branch (present base.value) (key.code ++ [read]) [])

/-- Reads a member of an operand, where `key` lowers the key from a free temporary on. -/
def readMember (base : Operand) (name? : Option String) (key : Nat → Lowered Operand)
    (next : Nat) : Lowered Operand :=
  match name? with
  | some name => readNamed base name next
  | none => readComputed base (key next)

/-! ## Blocks -/

/-- A block that puts the value of an expression into `target`. -/
def block (target : Nat) (e : Lowered Operand) : List Statement :=
  e.code ++ [.assign target e.value]

/-- The test under which the right operand of a logical operator is evaluated. -/
def logicalTest (operator : LogicalOp) (left : Operand) : Operand :=
  match operator with
  | .and => left
  | .or => .unary .not left

/-! ## Calls -/

/-- A callee with its receiver. -/
structure Target where
  callee : Operand
  receiver : Operand

end Lowered

namespace Expression

open Lowered

mutual
/-- Lowers an expression; temporaries from `next` on are free. -/
def lower (e : Expression) (next : Nat) : Lowered Operand :=
  match e with
  | .literal value => .pure (.literal value) next
  | .identifier name => emit [] next (.readContext next name)
  | .array elements =>
    let es := lowerElements elements next
    ⟨es.code, .array es.value, es.next⟩
  | .object properties =>
    let ps := lowerProperties properties next
    ⟨ps.code, .object ps.value, ps.next⟩
  | .unary operator argument =>
    let a := argument.lower next
    ⟨a.code, .unary operator a.value, a.next⟩
  | .binary operator left right =>
    let l := left.lower next
    let r := right.lower l.next
    ⟨l.code ++ r.code, .binary operator l.value r.value, r.next⟩
  | .logical operator left right =>
    let l := left.lower (next + 1)
    let r := right.lower l.next
    ⟨block next l ++ [.branch (logicalTest operator (.temp next)) (block next r) []],
      .temp next, r.next⟩
  | .conditional test consequent alternate =>
    let t := test.lower next
    let c := consequent.lower (t.next + 1)
    let a := alternate.lower c.next
    ⟨t.code ++ [.branch t.value (block t.next c) (block t.next a)], .temp t.next, a.next⟩
  | .member base property computed =>
    let b := base.lower next
    let m := readMember b.value (property.staticName? computed) property.lower b.next
    ⟨b.code ++ m.code, m.value, m.next⟩
  | .call callee arguments =>
    let t := match callee with
      | .member base property computed =>
        let b := base.lower next
        let o := materialize b.value b.next
        let m := readMember o.value (property.staticName? computed) property.lower o.next
        (⟨b.code ++ o.code ++ m.code, ⟨m.value, o.value⟩, m.next⟩ : Lowered Target)
      | .identifier name =>
        let c := emit [] next (.readContext next name)
        ⟨c.code, ⟨c.value, .context⟩, c.next⟩
      | callee =>
        let c := callee.lower next
        ⟨c.code, ⟨c.value, .literal .undefined⟩, c.next⟩
    let args := lowerArguments arguments t.next
    emit (t.code ++ args.code) args.next
      (.call args.next t.value.callee t.value.receiver args.value)

/-- Lowers the elements of an array from left to right. -/
def lowerElements (elements : List (Option Expression)) (next : Nat) :
    Lowered (List (Option Operand)) :=
  match elements with
  | [] => .pure [] next
  | none :: rest =>
    let more := lowerElements rest next
    ⟨more.code, none :: more.value, more.next⟩
  | some e :: rest =>
    let first := e.lower next
    let more := lowerElements rest first.next
    ⟨first.code ++ more.code, some first.value :: more.value, more.next⟩

/-- Lowers the values of an object from left to right. -/
def lowerProperties (properties : List (PropertyKey × Expression)) (next : Nat) :
    Lowered (List (String × Operand)) :=
  match properties with
  | [] => .pure [] next
  | (key, e) :: rest =>
    let first := e.lower next
    let more := lowerProperties rest first.next
    ⟨first.code ++ more.code, (key.name, first.value) :: more.value, more.next⟩

/-- Lowers arguments from left to right. -/
def lowerArguments (arguments : List Expression) (next : Nat) : Lowered (List Operand) :=
  match arguments with
  | [] => .pure [] next
  | e :: rest =>
    let first := e.lower next
    let more := lowerArguments rest first.next
    ⟨first.code ++ more.code, first.value :: more.value, more.next⟩
end

end Expression

namespace Routine

/-- Lowers expressions one after the other; the last one gives the value, and `result` does when
there is none. -/
def lowerAll (result : Operand) (next : Nat) : Program → Lowered Operand
  | [] => .pure result next
  | e :: rest =>
    let first := e.lower next
    let more := lowerAll first.value first.next rest
    ⟨first.code ++ more.code, more.value, more.next⟩

/-- The compiled form of a program. -/
def ofProgram (p : Program) : Routine :=
  let lowered := lowerAll (.literal .undefined) 0 p
  ⟨List.range lowered.next, lowered.code, lowered.value⟩

end Routine

end ExprSandbox
