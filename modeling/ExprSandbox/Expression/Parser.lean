import ExprSandbox.Error
import ExprSandbox.Expression
import ExprSandbox.Options
import ExprSandbox.Token

/-!
# Reading a program from tokens

A reader takes tokens from the front and says what they mean and what is left, which is always
less than it was given.  Binary and logical operators come in six levels of binding strength,
each a chain of operands of the next level that groups to the left; below them are the unary
operators, the steps `.x`, `[x]` and `(x)` after an operand, and the operands themselves.

Two limits are kept.  Where an expression contains another one, or a unary operator its operand,
the inner one is read one nesting level deeper; and every node that has children is checked for
its height when it is made.  The height is not measured on the finished tree: a reader passes it
on beside the tree, and each place that makes a node works it out from the heights of the
children there.
-/

namespace ExprSandbox.Parser

/-! ## Readers -/

/-- What was read from the front of a list of tokens, and what is left: fewer than `n` tokens. -/
structure Parsed (α : Type) (n : Nat) where
  value : α
  rest : List Token
  rest_lt : rest.length < n

/-- Reads an `α` from one or more tokens at the front. -/
abbrev Reader (α : Type) :=
  (ts : List Token) → Except ParseError (Parsed α ts.length)

/-- The same, seen from a longer list of tokens. -/
def Parsed.weaken {α : Type} {m n : Nat} (p : Parsed α m) (h : m ≤ n) : Parsed α n :=
  ⟨p.value, p.rest, Nat.lt_of_lt_of_le p.rest_lt h⟩

/-- How an error reports a token, or the end of the tokens. -/
def found : List Token → Option Found
  | [] => none
  | t :: _ => some ⟨t.text, t.pos⟩

/-- Takes one given punctuation. -/
def expect (text : String) : Reader Unit
  | [] => .error (.expected text none)
  | t :: rest =>
    if t.isPunctuation text then .ok ⟨(), rest, by simp⟩
    else .error (.expected text (found (t :: rest)))

/-! ## Nodes -/

/-- Part of a tree and its height, which is tracked beside it.  Whoever makes the part works its
height out from the heights of what it is made of, and shows that this is the height of the part. -/
structure Measured {α : Type} (measure : α → Nat) where
  tree : α
  height : Nat
  height_eq : height = measure tree

/-- An expression and the height of its tree. -/
abbrev Node :=
  Measured Expression.height

namespace Node

/-- A name, which has no children. -/
def identifier (name : String) : Node :=
  ⟨.identifier name, 1, by rw [Expression.height]⟩

/-- A constant, which has no children. -/
def literal (value : Constant) : Node :=
  ⟨.literal value, 1, by rw [Expression.height]⟩

end Node

/-- A node one level above its children, checked for its height.  What is given for the children is
the height of the highest one, as it was tracked. -/
def node (limits : Limits) (tree : Expression) (children : Nat)
    (h : children + 1 = tree.height) : Except ParseError Node :=
  if limits.height < children + 1 then .error (.tooDeep limits.height)
  else .ok ⟨tree, children + 1, h⟩

/-- The elements of an array and the height of the highest one. -/
abbrev Elements :=
  Measured Expression.elementsHeight

namespace Elements

/-- No elements. -/
def nil : Elements :=
  ⟨[], 0, rfl⟩

/-- A hole before other elements, which adds no height. -/
def hole (more : Elements) : Elements :=
  ⟨none :: more.tree, more.height, by rw [more.height_eq, Expression.elementsHeight]⟩

/-- An element before others. -/
def cons (e : Node) (more : Elements) : Elements :=
  ⟨some e.tree :: more.tree, max e.height more.height, by
    rw [e.height_eq, more.height_eq, Expression.elementsHeight]⟩

end Elements

/-- The properties of an object and the height of the highest value. -/
abbrev Properties :=
  Measured Expression.propertiesHeight

namespace Properties

/-- No properties. -/
def nil : Properties :=
  ⟨[], 0, rfl⟩

/-- A property before others. -/
def cons (key : PropertyKey) (e : Node) (more : Properties) : Properties :=
  ⟨(key, e.tree) :: more.tree, max e.height more.height, by
    rw [e.height_eq, more.height_eq, Expression.propertiesHeight]⟩

end Properties

/-- The arguments of a call and the height of the highest one. -/
abbrev Arguments :=
  Measured Expression.argumentsHeight

namespace Arguments

/-- No arguments. -/
def nil : Arguments :=
  ⟨[], 0, rfl⟩

/-- An argument before others. -/
def cons (e : Node) (more : Arguments) : Arguments :=
  ⟨e.tree :: more.tree, max e.height more.height, by
    rw [e.height_eq, more.height_eq, Expression.argumentsHeight]⟩

end Arguments

/-! ## Chains of binary and logical operators -/

/-- An operator between two operands. -/
inductive Connective where
  | logical (operator : LogicalOp)
  | binary (operator : BinaryOp)
  deriving DecidableEq, Repr

namespace Connective

/-- The spelling of the operator. -/
def text : Connective → String
  | .logical operator => operator.text
  | .binary operator => operator.text

/-- The expression that joins two operands. -/
def join : Connective → Expression → Expression → Expression
  | .logical operator => .logical operator
  | .binary operator => .binary operator

/-- Joining two operands adds one node above both. -/
theorem height_join (c : Connective) (left right : Expression) :
    (c.join left right).height = max left.height right.height + 1 := by
  cases c <;> rw [join, Expression.height]

/-- The levels of binding strength, the weakest first. -/
def levels : List (List Connective) :=
  [[.logical .or], [.logical .and],
    [.binary .equal, .binary .notEqual, .binary .strictEqual, .binary .strictNotEqual],
    [.binary .less, .binary .greater, .binary .lessEqual, .binary .greaterEqual],
    [.binary .add, .binary .sub], [.binary .mul, .binary .div, .binary .rem]]

end Connective

/-- The operator of a level that a token is. -/
def connective? (level : List Connective) (t : Token) : Option Connective :=
  level.find? fun c => t.isPunctuation c.text

/-- Goes on after the operand `left` with the operators of a level and their right operands. -/
def chainRest (limits : Limits) (level : List Connective) (operand : Reader Node) (left : Node)
    (ts : List Token) : Except ParseError (Parsed Node (ts.length + 1)) :=
  match ts with
  | [] => .ok ⟨left, [], by simp⟩
  | t :: rest =>
    match connective? level t with
    | none => .ok ⟨left, t :: rest, by simp⟩
    | some c => do
      let right ← operand rest
      let e ← node limits (c.join left.tree right.value.tree) (max left.height right.value.height)
        (by rw [c.height_join, left.height_eq, right.value.height_eq])
      let whole ← chainRest limits level operand e right.rest
      return whole.weaken (by have := right.rest_lt; simp only [List.length_cons]; omega)
termination_by ts.length
decreasing_by have := right.rest_lt; simp only [List.length_cons]; omega

/-- Operands of one level joined by its operators, from left to right. -/
def chain (limits : Limits) (level : List Connective) (operand : Reader Node) :
    Reader Node := fun ts => do
  let left ← operand ts
  let whole ← chainRest limits level operand left.value left.rest
  return whole.weaken left.rest_lt

/-! ## Parts of operands -/

/-- The elements of an array after its `[`, through the `]`.  A comma that follows no element
leaves a hole, and one comma after an element only separates. -/
def elements (inner : Reader Node) (ts : List Token) :
    Except ParseError (Parsed Elements ts.length) :=
  match ts with
  | [] => do
    let e ← inner []
    absurd e.rest_lt (Nat.not_lt_zero _)
  | t :: rest => do
    if t.isPunctuation "]" then return ⟨Elements.nil, rest, by simp⟩
    else if t.isPunctuation "," then
      let more ← elements inner rest
      return ⟨Elements.hole more.value, more.rest, by
        have := more.rest_lt; simp only [List.length_cons]; omega⟩
    else
      let e ← inner (t :: rest)
      match hrest : e.rest with
      | [] => .error (.expected "," none)
      | s :: tail =>
        have hlt : tail.length + 1 < (t :: rest).length := by
          have := e.rest_lt
          rwa [hrest, List.length_cons] at this
        if s.isPunctuation "]" then
          return ⟨Elements.cons e.value .nil, tail, by omega⟩
        else if s.isPunctuation "," then
          let more ← elements inner tail
          return ⟨Elements.cons e.value more.value, more.rest, by have := more.rest_lt; omega⟩
        else .error (.expected "," (found (s :: tail)))
termination_by ts.length
decreasing_by
  · simp
  · omega

/-- The key of a property: a name, a keyword, a string or a number. -/
def propertyKey : Reader PropertyKey
  | [] => .error (.expected "property key" none)
  | t :: rest =>
    if t.isName then .ok ⟨.identifier t.text, rest, by simp⟩
    else
      match t.value? with
      | some (.string s) => .ok ⟨.literal s, rest, by simp⟩
      | some (.number x) => .ok ⟨.literal (Number.text x), rest, by simp⟩
      | _ => .error (.expected "property key" (found (t :: rest)))

/-- The properties of an object after its opening brace, through the closing one. -/
def properties (inner : Reader Node) (ts : List Token) :
    Except ParseError (Parsed Properties ts.length) :=
  match ts with
  | [] => .error (.expected "property key" none)
  | t :: rest => do
    if t.isPunctuation "\x7d" then return ⟨Properties.nil, rest, by simp⟩
    else
      let key ← propertyKey (t :: rest)
      let colon ← expect ":" key.rest
      let e ← inner colon.rest
      match hrest : e.rest with
      | [] => .error (.expected "," none)
      | s :: tail =>
        have hlt : tail.length + 1 < (t :: rest).length := by
          have h₁ := key.rest_lt
          have h₂ := colon.rest_lt
          have h₃ := e.rest_lt
          rw [hrest, List.length_cons] at h₃
          omega
        if s.isPunctuation "\x7d" then
          return ⟨Properties.cons key.value e.value .nil, tail, by omega⟩
        else if s.isPunctuation "," then
          let more ← properties inner tail
          return ⟨Properties.cons key.value e.value more.value, more.rest, by
            have := more.rest_lt; omega⟩
        else .error (.expected "," (found (s :: tail)))
termination_by ts.length
decreasing_by omega

/-- One or more arguments separated by commas, through the `)`. -/
def argumentList (inner : Reader Node) (ts : List Token) :
    Except ParseError (Parsed Arguments ts.length) := do
  let e ← inner ts
  match hrest : e.rest with
  | [] => .error (.expected ")" none)
  | t :: tail =>
    have hlt : tail.length + 1 < ts.length := by
      have := e.rest_lt
      rwa [hrest, List.length_cons] at this
    if t.isPunctuation "," then
      let more ← argumentList inner tail
      return ⟨Arguments.cons e.value more.value, more.rest, by have := more.rest_lt; omega⟩
    else if t.isPunctuation ")" then return ⟨Arguments.cons e.value .nil, tail, by omega⟩
    else .error (.expected ")" (found (t :: tail)))
termination_by ts.length
decreasing_by omega

/-- The arguments after a `(`, through the `)`. -/
def arguments (inner : Reader Node) : Reader Arguments
  | [] => argumentList inner []
  | t :: rest =>
    if t.isPunctuation ")" then .ok ⟨Arguments.nil, rest, by simp⟩
    else argumentList inner (t :: rest)

/-- The name after a dot. -/
def memberName : Reader String
  | [] => .error (.expected "identifier" none)
  | t :: rest =>
    if t.isName then .ok ⟨t.text, rest, by simp⟩
    else .error (.expected "identifier" (found (t :: rest)))

/-! ## Operands -/

/-- An operand that starts with no operator: an expression in parentheses, an array, an object,
a name or a literal. -/
def primary (limits : Limits) (inner : Reader Node) : Reader Node
  | [] => .error .incompleteExpression
  | t :: rest => do
    if t.isPunctuation "(" then
      let e ← inner rest
      let close ← expect ")" e.rest
      return ⟨e.value, close.rest, by
        have := e.rest_lt; have := close.rest_lt; simp only [List.length_cons]; omega⟩
    else if t.isPunctuation "[" then
      let es ← elements inner rest
      let e ← node limits (.array es.value.tree) es.value.height
        (by rw [Expression.height, es.value.height_eq])
      return ⟨e, es.rest, by have := es.rest_lt; simp only [List.length_cons]; omega⟩
    else if t.isPunctuation "\x7b" then
      let ps ← properties inner rest
      let e ← node limits (.object ps.value.tree) ps.value.height
        (by rw [Expression.height, ps.value.height_eq])
      return ⟨e, ps.rest, by have := ps.rest_lt; simp only [List.length_cons]; omega⟩
    else
      match t.kind with
      | .identifier => return ⟨Node.identifier t.text, rest, by simp⟩
      | .literal value => return ⟨Node.literal value, rest, by simp⟩
      | .punctuation => .error (.unexpectedToken ⟨t.text, t.pos⟩)

/-- Goes on after an operand with any number of members and calls. -/
def postfixRest (limits : Limits) (inner : Reader Node) (base : Node)
    (ts : List Token) : Except ParseError (Parsed Node (ts.length + 1)) :=
  match ts with
  | [] => .ok ⟨base, [], by simp⟩
  | t :: rest => do
    if t.isPunctuation "." then
      let name ← memberName rest
      let e ← node limits (.member base.tree (.identifier name.value) false) base.height
        (by rw [Expression.height_dot, base.height_eq])
      let whole ← postfixRest limits inner e name.rest
      return whole.weaken (by have := name.rest_lt; simp only [List.length_cons]; omega)
    else if t.isPunctuation "[" then
      let key ← inner rest
      let close ← expect "]" key.rest
      let e ← node limits (.member base.tree key.value.tree true)
        (max base.height key.value.height)
        (by rw [Expression.height, base.height_eq, key.value.height_eq])
      let whole ← postfixRest limits inner e close.rest
      return whole.weaken (by
        have := key.rest_lt; have := close.rest_lt; simp only [List.length_cons]; omega)
    else if t.isPunctuation "(" then
      let args ← arguments inner rest
      let e ← node limits (.call base.tree args.value.tree) (max base.height args.value.height)
        (by rw [Expression.height, base.height_eq, args.value.height_eq])
      let whole ← postfixRest limits inner e args.rest
      return whole.weaken (by have := args.rest_lt; simp only [List.length_cons]; omega)
    else return ⟨base, t :: rest, by simp⟩
termination_by ts.length
decreasing_by
  · have := name.rest_lt; simp only [List.length_cons]; omega
  · have := key.rest_lt; have := close.rest_lt; simp only [List.length_cons]; omega
  · have := args.rest_lt; simp only [List.length_cons]; omega

/-- An operand with its members and calls. -/
def postfixed (limits : Limits) (inner : Reader Node) : Reader Node := fun ts => do
  let base ← primary limits inner ts
  let whole ← postfixRest limits inner base.value base.rest
  return whole.weaken base.rest_lt

/-- The unary operator that a token is. -/
def unaryOp? (t : Token) : Option UnaryOp :=
  if t.kind = .punctuation then UnaryOp.ofText? t.text else none

/-- A unary operator with its operand, which `operand` reads, or an operand without one. -/
def unary (limits : Limits) (operand inner : Reader Node) : Reader Node
  | [] => postfixed limits inner []
  | t :: rest =>
    match unaryOp? t with
    | none => postfixed limits inner (t :: rest)
    | some op => do
      let argument ← operand rest
      let e ← node limits (.unary op argument.value.tree) argument.value.height
        (by rw [Expression.height, argument.value.height_eq])
      return ⟨e, argument.rest, by have := argument.rest_lt; simp only [List.length_cons]; omega⟩

/-! ## Expressions -/

/-- A chain of the weakest level, and the two branches of a conditional when `?` follows it. -/
def conditional (limits : Limits) (operand inner : Reader Node) : Reader Node :=
  fun ts => do
    let test ← Connective.levels.foldr (chain limits) (unary limits operand inner) ts
    match hrest : test.rest with
    | [] => return test
    | t :: tail =>
      if t.isPunctuation "?" then
        let consequent ← inner tail
        let colon ← expect ":" consequent.rest
        let alternate ← inner colon.rest
        let e ← node limits
          (.conditional test.value.tree consequent.value.tree alternate.value.tree)
          (max (max test.value.height consequent.value.height) alternate.value.height)
          (by rw [Expression.height, test.value.height_eq, consequent.value.height_eq,
            alternate.value.height_eq])
        return ⟨e, alternate.rest, by
          have h₁ := test.rest_lt
          have h₂ := consequent.rest_lt
          have h₃ := colon.rest_lt
          have h₄ := alternate.rest_lt
          rw [hrest, List.length_cons] at h₁
          omega⟩
      else return test

/-- What is read one nesting level deeper: a whole expression, or the operand of a unary
operator. -/
inductive Nested where
  | expression
  | operand
  deriving DecidableEq, Repr

/-- Reads an expression or an operand that may nest `depth` levels, itself included. -/
def nested (limits : Limits) : Nat → Nested → Reader Node
  | 0, _ => fun _ => .error (.tooDeep limits.depth)
  | depth + 1, .expression => fun ts =>
    conditional limits (nested limits depth .operand) (nested limits depth .expression) ts
  | depth + 1, .operand => fun ts =>
    unary limits (nested limits depth .operand) (nested limits depth .expression) ts

/-- Reads one expression of a program. -/
def expression (limits : Limits) : Reader Node :=
  nested limits limits.depth .expression

/-! ## Programs -/

/-- The tokens after any number of semicolons. -/
def skipSemicolons (ts : List Token) : List Token :=
  ts.dropWhile (·.isPunctuation ";")

theorem skipSemicolons_length_le (ts : List Token) :
    (skipSemicolons ts).length ≤ ts.length :=
  (List.dropWhile_sublist _).length_le

/-- Goes on after an expression with the expressions that semicolons separate from it, to the
end of the tokens. -/
def programRest (limits : Limits) (ts : List Token) : Except ParseError Program :=
  match ts with
  | [] => .ok []
  | t :: rest => do
    if t.isPunctuation ";" then
      if skipSemicolons rest = [] then return []
      else
        let e ← expression limits (skipSemicolons rest)
        let more ← programRest limits e.rest
        return e.value.tree :: more
    else .error (.unexpectedToken ⟨t.text, t.pos⟩)
termination_by ts.length
decreasing_by
  have h₁ := e.rest_lt
  have h₂ := skipSemicolons_length_le rest
  simp only [List.length_cons]
  omega

/-- Reads a program, which has to take all tokens. -/
def program (limits : Limits) (ts : List Token) : Except ParseError Program := do
  let first ← expression limits ts
  let more ← programRest limits first.rest
  return first.value.tree :: more

end ExprSandbox.Parser
