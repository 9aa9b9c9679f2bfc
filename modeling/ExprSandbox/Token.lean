import ExprSandbox.Constant

/-!
# Tokens

A token is a lexeme with its place in the source and what it is: punctuation (operators
included), a name, or a literal with its constant.
-/

namespace ExprSandbox

/-- What a lexeme is. -/
inductive TokenKind where
  | punctuation
  | identifier
  | literal (value : Constant)
  deriving DecidableEq

/-- A lexeme: its text as the source has it, what it is, and the byte offset it starts at. -/
structure Token where
  text : String
  kind : TokenKind
  pos : Nat
  deriving DecidableEq

namespace Token

/-- Whether the token is a name. -/
def isIdentifier (t : Token) : Bool :=
  t.kind = .identifier

/-- The constant of a literal token. -/
def value? (t : Token) : Option Constant :=
  match t.kind with
  | .literal value => some value
  | _ => none

/-- Whether the token has the given text, whatever its kind. -/
def is (t : Token) (text : String) : Bool :=
  t.text = text

/-- Whether the token is the given punctuation. -/
def isPunctuation (t : Token) (text : String) : Bool :=
  t.kind = .punctuation && t.text = text

/-- Whether the token may stand where a name is wanted: a name or a keyword. -/
def isName (t : Token) : Bool :=
  t.isIdentifier || (Constant.ofKeyword? t.text).isSome

/-- The same token `n` bytes further on. -/
def shift (n : Nat) (t : Token) : Token :=
  { t with pos := n + t.pos }

end Token

end ExprSandbox
