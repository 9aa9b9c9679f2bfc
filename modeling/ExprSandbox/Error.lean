/-!
# Errors

Each stage has its own causes of failure, and each cause has one text.  Positions are byte
offsets into the source.
-/

namespace ExprSandbox

/-! ## Splitting the source into tokens -/

/-- Why a source is no sequence of tokens. -/
inductive LexError where
  /-- No lexeme starts with this character. -/
  | unexpectedChar (c : Char) (pos : Nat)
  /-- An exponent has no digits, or a second exponent follows it. -/
  | invalidExponent (pos : Nat)
  /-- Fewer than four hexadecimal digits follow a `\u`. -/
  | invalidUnicodeEscape (pos : Nat)
  /-- A string is not closed. -/
  | unmatchedQuote (pos : Nat)
  deriving DecidableEq, Repr

namespace LexError

/-- The text of the error. -/
def message : LexError → String
  | .unexpectedChar c pos =>
    "Unexpected next character: " ++ String.singleton c ++ " at " ++ pos.repr
  | .invalidExponent pos => "Invalid exponent at " ++ pos.repr
  | .invalidUnicodeEscape pos => "Invalid unicode escape sequence at " ++ pos.repr
  | .unmatchedQuote pos => "Unmatched quote at " ++ pos.repr

/-- The byte offset that the error reports. -/
def pos : LexError → Nat
  | .unexpectedChar _ pos => pos
  | .invalidExponent pos => pos
  | .invalidUnicodeEscape pos => pos
  | .unmatchedQuote pos => pos

end LexError

/-! ## Building the tree -/

/-- A token as an error reports it. -/
structure Found where
  text : String
  pos : Nat
  deriving DecidableEq, Repr

/-- Why a sequence of tokens is no program. -/
inductive ParseError where
  /-- Something else was wanted than the token found, or than the end of the tokens. -/
  | expected (what : String) (found : Option Found)
  /-- The tokens end where an expression has to start or go on. -/
  | incompleteExpression
  /-- No expression starts or goes on with this token. -/
  | unexpectedToken (token : Found)
  /-- A limit on nesting or on the height of the tree is passed. -/
  | tooDeep (limit : Nat)
  deriving DecidableEq, Repr

namespace ParseError

/-- The text of the error. -/
def message : ParseError → String
  | .expected what (some found) =>
    "Unexpected. Expecting '" ++ what ++ "', found '" ++ found.text ++ "' at " ++ found.pos.repr
  | .expected what none => "Unexpected. Expecting '" ++ what ++ "', found end of input"
  | .incompleteExpression => "Incomplete expression"
  | .unexpectedToken token =>
    "Unexpected character '" ++ token.text ++ "' at " ++ token.pos.repr
  | .tooDeep limit => "Expression nested deeper than " ++ limit.repr ++ " levels"

end ParseError

/-! ## Compiling -/

/-- Why a source does not compile. -/
inductive CompileError where
  | lex (cause : LexError)
  | parse (cause : ParseError)
  deriving DecidableEq, Repr

namespace CompileError

/-- The text of the error is the text of its cause. -/
def message : CompileError → String
  | .lex cause => cause.message
  | .parse cause => cause.message

end CompileError

/-! ## Evaluating -/

/-- Why an evaluation stopped. -/
inductive EvalError where
  /-- A denied member was read, or a function that builds code was called. -/
  | forbidden (name : String)
  /-- A host function failed. -/
  | host (text : String)
  deriving DecidableEq, Repr

namespace EvalError

/-- The text of the error. -/
def message : EvalError → String
  | .forbidden name => "Access to '" ++ name ++ "' is forbidden"
  | .host text => text

end EvalError

end ExprSandbox
