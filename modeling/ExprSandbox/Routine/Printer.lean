import ExprSandbox.Routine
import ExprSandbox.Text.CharClass

/-!
# Rendering routines

A routine renders as one line of source code.  The context is named `s` and the temporary `i` is
named `v` and its number; every operand renders as an expression of the language that is compiled,
so it can be read back.
-/

namespace ExprSandbox

/-- The name of the context. -/
def contextName : String := "s"

/-- The name of a temporary. -/
def tempName (index : Nat) : String :=
  "v" ++ index.repr

/-- The key of an object literal: bare where it is a name, else quoted. -/
def keyText (key : String) : String :=
  if isIdentifier key then key else Quoted.quote key

/-- The step to a member: a dot and the name, or the quoted name in brackets. -/
def memberText (name : String) : String :=
  if isIdentifier name then "." ++ name else "[" ++ Quoted.quote name ++ "]"

namespace Operand

/-- Whether an operand starts with a unary operator. -/
def isUnary : Operand → Bool
  | .unary _ _ => true
  | _ => false

/-- Whether an operand stands in parentheses of its own. -/
def isBinary : Operand → Bool
  | .binary _ _ _ => true
  | _ => false

mutual
/-- The text of an operand.  A hole at the end of an array has a comma of its own, because one
comma after the last element only separates. -/
def render : Operand → String
  | .literal value => value.render
  | .temp index => tempName index
  | .context => contextName
  | .array slots => "[" ++ renderSlots slots ++ "]"
  | .object [] => "\x7b\x7d"
  | .object entries => "\x7b" ++ renderEntries entries ++ " \x7d"
  | .unary operator argument =>
    if argument.isUnary then operator.text ++ "(" ++ argument.render ++ ")"
    else operator.text ++ argument.render
  | .binary operator left right =>
    "(" ++ left.render ++ " " ++ operator.text ++ " " ++ right.render ++ ")"

/-- The slots of an array, separated by commas. -/
def renderSlots : List (Option Operand) → String
  | [] => ""
  | [none] => ","
  | [some e] => e.render
  | none :: rest => ", " ++ renderSlots rest
  | some e :: rest => e.render ++ ", " ++ renderSlots rest

/-- The properties of an object, separated by commas. -/
def renderEntries : List (String × Operand) → String
  | [] => ""
  | [(key, e)] => " " ++ keyText key ++ ": " ++ e.render
  | (key, e) :: rest => " " ++ keyText key ++ ": " ++ e.render ++ "," ++ renderEntries rest
end

end Operand

/-- The step to the member that a key addresses. -/
def Key.render : Key → String
  | .named name => memberText name
  | .computed operand => "[" ++ operand.render ++ "]"

namespace Statement

/-- The head of a conditional statement; a binary operand has its parentheses already. -/
def testText (test : Operand) : String :=
  if test.isBinary then "if " ++ test.render else "if (" ++ test.render ++ ")"

mutual
/-- The text of a statement. -/
def render : Statement → String
  | .assign target value => tempName target ++ " = " ++ value.render ++ ";"
  | .readContext target name =>
    "if (" ++ contextName ++ ") \x7b " ++ tempName target ++ " = " ++ contextName
      ++ memberText name ++ "; \x7d"
  | .readMember target base key =>
    "if (" ++ base.render ++ " != null) \x7b " ++ tempName target ++ " = " ++ base.render
      ++ key.render ++ "; \x7d"
  | .call target callee receiver arguments =>
    "if (typeof " ++ callee.render ++ " === 'function') \x7b " ++ tempName target ++ " = "
      ++ callee.render ++ ".call("
      ++ ", ".intercalate (receiver.render :: arguments.map Operand.render) ++ "); \x7d"
  | .branch test consequent [] => testText test ++ " " ++ renderBlock consequent
  | .branch test consequent alternate =>
    testText test ++ " " ++ renderBlock consequent ++ " else " ++ renderBlock alternate

/-- A block of statements in braces. -/
def renderBlock (body : List Statement) : String :=
  "\x7b" ++ renderAll body ++ " \x7d"

/-- Statements, a blank before each. -/
def renderAll : List Statement → String
  | [] => ""
  | s :: rest => " " ++ s.render ++ renderAll rest
end

end Statement

namespace Routine

/-- The declaration of the temporaries, if there are any. -/
def declarationText : List Nat → String
  | [] => ""
  | declared => "var " ++ ", ".intercalate (declared.map tempName) ++ "; "

/-- The text of a routine. -/
def render (r : Routine) : String :=
  declarationText r.declared ++ String.join (r.body.map (·.render ++ " "))
    ++ "return " ++ r.result.render ++ ";"

end Routine

end ExprSandbox
