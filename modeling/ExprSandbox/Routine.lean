import ExprSandbox.Constant
import ExprSandbox.Operator

/-!
# Routines

A routine is the compiled form of a program: statements over numbered temporaries, each of which
does at most one read or call, and an operand for the result.  Reads are guarded, so a missing
intermediate value gives `undefined`, and a conditional block keeps what it skips from running.
-/

namespace ExprSandbox

/-- What is computed without a read or a call.  A `none` slot of an array is a hole. -/
inductive Operand where
  | literal (value : Constant)
  | temp (index : Nat)
  | context
  | array (slots : List (Option Operand))
  | object (entries : List (String × Operand))
  | unary (operator : UnaryOp) (argument : Operand)
  | binary (operator : BinaryOp) (left right : Operand)
  deriving Inhabited

/-- The member that a read addresses. -/
inductive Key where
  | named (name : String)
  | computed (operand : Operand)
  deriving Inhabited

/-- One step of a routine. -/
inductive Statement where
  /-- Puts a value into a temporary. -/
  | assign (target : Nat) (value : Operand)
  /-- Reads a member of the context, unless the context is falsy. -/
  | readContext (target : Nat) (name : String)
  /-- Reads a member of a value, unless the value is `undefined` or `null`. -/
  | readMember (target : Nat) (base : Operand) (key : Key)
  /-- Calls a value, if it is a function. -/
  | call (target : Nat) (callee receiver : Operand) (arguments : List Operand)
  /-- Runs one of two blocks. -/
  | branch (test : Operand) (consequent alternate : List Statement)
  deriving Inhabited

/-- A compiled program: its temporaries in the order they were made, its statements, and the
operand that gives its value. -/
structure Routine where
  declared : List Nat
  body : List Statement
  result : Operand

end ExprSandbox
