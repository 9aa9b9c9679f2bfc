import ExprSandbox.Number.Remainder
import ExprSandbox.Operator
import ExprSandbox.Value.Comparison

/-!
# Operators on values

Every operator gives a value for all operands; none fails.
-/

namespace ExprSandbox

namespace Value

/-- `+`: joins texts when one operand is a text after coercion, else adds numbers. -/
def add (a b : Value) : Value :=
  match a.toPrimitive, b.toPrimitive with
  | .string s, b => .string (s ++ b.text)
  | a, .string t => .string (a.text ++ t)
  | a, b => .number (a.toNumber + b.toNumber)

/-- A number from the numbers of two operands. -/
def arith (f : Float → Float → Float) (a b : Value) : Value :=
  .number (f a.toNumber b.toNumber)

/-- Whether the order of two operands is one of those given. -/
def ordered (orders : List Ordering) (a b : Value) : Value :=
  .bool ((order a b).any orders.contains)

end Value

/-- The value of a unary operator. -/
def UnaryOp.apply (operator : UnaryOp) (v : Value) : Value :=
  match operator with
  | .plus => .number v.toNumber
  | .minus => .number (-v.toNumber)
  | .not => .bool !v.isTruthy

/-- The value of a binary operator. -/
def BinaryOp.apply (operator : BinaryOp) (a b : Value) : Value :=
  match operator with
  | .add => a.add b
  | .sub => Value.arith (· - ·) a b
  | .mul => Value.arith (· * ·) a b
  | .div => Value.arith (· / ·) a b
  | .rem => Value.arith Number.remainder a b
  | .less => Value.ordered [.lt] a b
  | .greater => Value.ordered [.gt] a b
  | .lessEqual => Value.ordered [.lt, .eq] a b
  | .greaterEqual => Value.ordered [.gt, .eq] a b
  | .equal => .bool (a.looseEq b)
  | .notEqual => .bool !a.looseEq b
  | .strictEqual => .bool (a.strictEq b)
  | .strictNotEqual => .bool !a.strictEq b

end ExprSandbox
