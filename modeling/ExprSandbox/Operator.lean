/-!
# Operators

Unary operators, the binary operators that compute from both operands, and the logical ones that
may leave the right operand alone.
-/

namespace ExprSandbox

/-! ## Unary operators -/

/-- An operator before its operand. -/
inductive UnaryOp where
  | plus
  | minus
  | not
  deriving DecidableEq, Repr

namespace UnaryOp

/-- The spelling of the operator. -/
def text : UnaryOp → String
  | .plus => "+"
  | .minus => "-"
  | .not => "!"

/-- Every unary operator. -/
def all : List UnaryOp := [.plus, .minus, .not]

/-- The unary operator of a spelling. -/
def ofText? (s : String) : Option UnaryOp :=
  all.find? (·.text = s)

theorem ofText?_text (op : UnaryOp) : ofText? op.text = some op := by
  cases op <;> rfl

end UnaryOp

/-! ## Binary operators -/

/-- An operator between two operands that are both evaluated. -/
inductive BinaryOp where
  | add
  | sub
  | mul
  | div
  | rem
  | less
  | greater
  | lessEqual
  | greaterEqual
  | equal
  | notEqual
  | strictEqual
  | strictNotEqual
  deriving DecidableEq, Repr

namespace BinaryOp

/-- The spelling of the operator. -/
def text : BinaryOp → String
  | .add => "+"
  | .sub => "-"
  | .mul => "*"
  | .div => "/"
  | .rem => "%"
  | .less => "<"
  | .greater => ">"
  | .lessEqual => "<="
  | .greaterEqual => ">="
  | .equal => "=="
  | .notEqual => "!="
  | .strictEqual => "==="
  | .strictNotEqual => "!=="

/-- Every binary operator. -/
def all : List BinaryOp :=
  [.add, .sub, .mul, .div, .rem, .less, .greater, .lessEqual, .greaterEqual, .equal, .notEqual,
    .strictEqual, .strictNotEqual]

/-- The binary operator of a spelling. -/
def ofText? (s : String) : Option BinaryOp :=
  all.find? (·.text = s)

theorem ofText?_text (op : BinaryOp) : ofText? op.text = some op := by
  cases op <;> rfl

end BinaryOp

/-! ## Logical operators -/

/-- An operator whose right operand is evaluated only if the left one does not decide. -/
inductive LogicalOp where
  | and
  | or
  deriving DecidableEq, Repr

namespace LogicalOp

/-- The spelling of the operator. -/
def text : LogicalOp → String
  | .and => "&&"
  | .or => "||"

end LogicalOp

end ExprSandbox
