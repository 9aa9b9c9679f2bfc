import ExprSandbox.Constant
import ExprSandbox.Operator

/-!
# Expressions

The syntax tree of an expression, and its height: a name, a constant, an empty array and an
empty object have height 1, and every other node is one higher than its highest child.
-/

namespace ExprSandbox

/-- The key of a property in an object literal: a bare name, or a literal stored as the text it
names a member by. -/
inductive PropertyKey where
  | identifier (name : String)
  | literal (text : String)
  deriving DecidableEq

/-- The name of the member that a property defines. -/
def PropertyKey.name : PropertyKey → String
  | .identifier name => name
  | .literal text => text

/-- An expression.  A `none` element of an array is a hole; a member that is not computed is
written with a dot and has the member's name as its property. -/
inductive Expression where
  | literal (value : Constant)
  | identifier (name : String)
  | array (elements : List (Option Expression))
  | object (properties : List (PropertyKey × Expression))
  | unary (operator : UnaryOp) (argument : Expression)
  | binary (operator : BinaryOp) (left right : Expression)
  | logical (operator : LogicalOp) (left right : Expression)
  | conditional (test consequent alternate : Expression)
  | member (base property : Expression) (computed : Bool)
  | call (callee : Expression) (arguments : List Expression)
  deriving Inhabited

/-- Expressions that are evaluated in order; the last one gives the value. -/
abbrev Program := List Expression

namespace Expression

/-! ## Height -/

mutual
/-- The number of nodes on the longest path down the tree. -/
def height : Expression → Nat
  | .literal _ => 1
  | .identifier _ => 1
  | .array elements => elementsHeight elements + 1
  | .object properties => propertiesHeight properties + 1
  | .unary _ argument => argument.height + 1
  | .binary _ left right => max left.height right.height + 1
  | .logical _ left right => max left.height right.height + 1
  | .conditional test consequent alternate =>
    max (max test.height consequent.height) alternate.height + 1
  | .member base property _ => max base.height property.height + 1
  | .call callee arguments => max callee.height (argumentsHeight arguments) + 1

/-- The height of the highest element of an array literal. -/
def elementsHeight : List (Option Expression) → Nat
  | [] => 0
  | none :: rest => elementsHeight rest
  | some e :: rest => max e.height (elementsHeight rest)

/-- The height of the highest value of an object literal. -/
def propertiesHeight : List (PropertyKey × Expression) → Nat
  | [] => 0
  | (_, e) :: rest => max e.height (propertiesHeight rest)

/-- The height of the highest argument. -/
def argumentsHeight : List Expression → Nat
  | [] => 0
  | e :: rest => max e.height (argumentsHeight rest)
end

/-- Every expression has a node. -/
theorem height_pos (e : Expression) : 0 < e.height := by
  cases e <;> simp [height]

/-- A name after a dot is no higher than what stands before the dot. -/
theorem height_dot (base : Expression) (name : String) :
    (member base (.identifier name) false).height = base.height + 1 := by
  have hname : max base.height 1 = base.height := Nat.max_eq_left base.height_pos
  rw [height, height, hname]

/-! ## Names of members -/

/-- The name of a member that is known without evaluation: a bare name or a literal after a
dot. -/
def staticName? (property : Expression) (computed : Bool) : Option String :=
  match computed, property with
  | false, .identifier name => some name
  | false, .literal value => some value.key
  | _, _ => none

end Expression

end ExprSandbox
