import ExprSandbox.Token

/-!
# Lexemes

A lexeme is what a scanning rule takes from the front of the remaining source.  It is never
empty, and with what it leaves it makes up the characters it was taken from, so a scan neither
loses nor repeats a character and always comes to an end.
-/

namespace ExprSandbox

/-- The number of bytes that characters take in UTF-8. -/
def byteWidth : List Char → Nat
  | [] => 0
  | c :: cs => c.utf8Size + byteWidth cs

theorem byteWidth_append (cs ds : List Char) :
    byteWidth (cs ++ ds) = byteWidth cs + byteWidth ds := by
  induction cs with
  | nil => simp [byteWidth]
  | cons c cs ih => simp [byteWidth, ih, Nat.add_assoc]

/-- A lexeme at the front of `cs`, what it is, and the characters it leaves. -/
structure Lexeme (cs : List Char) where
  text : List Char
  rest : List Char
  kind : TokenKind
  nonempty : text ≠ []
  split : cs = text ++ rest

namespace Lexeme

variable {cs : List Char}

/-- The token of a lexeme that starts at a byte offset. -/
def token (l : Lexeme cs) (pos : Nat) : Token :=
  ⟨String.ofList l.text, l.kind, pos⟩

theorem rest_length_lt (l : Lexeme cs) : l.rest.length < cs.length := by
  have h : 0 < l.text.length := List.length_pos_iff.2 l.nonempty
  have hsplit := congrArg List.length l.split
  rw [List.length_append] at hsplit
  omega

end Lexeme

end ExprSandbox
