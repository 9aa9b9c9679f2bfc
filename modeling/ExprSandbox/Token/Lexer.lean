import ExprSandbox.Token.NumberLiteral
import ExprSandbox.Token.StringLiteral

/-!
# Splitting a source into tokens

At each point of the source the first character decides which kind of lexeme is read, and the
longest lexeme of that kind is taken.  Blanks separate lexemes and are dropped.
-/

namespace ExprSandbox.Lexer

/-! ## Punctuation and operators -/

/-- The characters that are tokens on their own. -/
def punctuation : List Char :=
  ['[', ']', '\x7b', '\x7d', ':', '.', '(', ')', ',', '?', ';']

/-- The operators, longer ones before their own beginnings. -/
def operators : List (List Char) :=
  [['=', '=', '='], ['!', '=', '='], ['<', '='], ['>', '='], ['=', '='], ['!', '='], ['&', '&'],
    ['|', '|'], ['+'], ['-'], ['!'], ['*'], ['/'], ['%'], ['<'], ['>']]

theorem operators_ne_nil : ∀ op ∈ operators, op ≠ [] := by
  decide

/-- The longest operator at the front. -/
def operator? (cs : List Char) : Option (Lexeme cs) :=
  match h : operators.find? (·.isPrefixOf cs) with
  | none => none
  | some op => some
      { text := op, rest := cs.drop op.length, kind := .punctuation
        nonempty := operators_ne_nil op (List.mem_of_find?_eq_some h)
        split := by
          have hpre := List.find?_some h
          rw [List.isPrefixOf_iff_prefix, List.prefix_iff_eq_append] at hpre
          exact hpre.symm }

/-! ## Names and keywords -/

/-- What a word is: a keyword stands for its constant, any other word is a name. -/
def wordKind (word : List Char) : TokenKind :=
  match Constant.ofKeyword? (String.ofList word) with
  | some value => .literal value
  | none => .identifier

/-- The word that starts with `c`. -/
def word (c : Char) (cs : List Char) : Lexeme (c :: cs) where
  text := c :: cs.takeWhile isIdentPart
  rest := cs.dropWhile isIdentPart
  kind := wordKind (c :: cs.takeWhile isIdentPart)
  nonempty := by simp
  split := by rw [List.cons_append, List.takeWhile_append_dropWhile]

/-! ## Scanning -/

/-- The lexeme at the front of `c :: cs`, which starts at byte offset `pos`. -/
def lexeme (pos : Nat) (c : Char) (cs : List Char) : Except LexError (Lexeme (c :: cs)) :=
  if h : NumberLiteral.starts (c :: cs) then NumberLiteral.lexeme pos (c :: cs) h
  else if c = '\'' ∨ c = '"' then StringLiteral.lexeme pos c cs
  else if punctuation.contains c then
    .ok { text := [c], rest := cs, kind := .punctuation
          nonempty := by simp
          split := rfl }
  else if isIdentStart c then .ok (word c cs)
  else
    match operator? (c :: cs) with
    | some l => .ok l
    | none => .error (.unexpectedChar c pos)

/-- The tokens of the characters from byte offset `pos` on. -/
def scan (pos : Nat) (cs : List Char) : Except LexError (List Token) :=
  match cs with
  | [] => .ok []
  | c :: cs =>
    if isBlank c then scan (pos + c.utf8Size) cs
    else do
      let l ← lexeme pos c cs
      let tokens ← scan (pos + byteWidth l.text) l.rest
      return l.token pos :: tokens
termination_by cs.length
decreasing_by
  · simp
  · exact l.rest_length_lt

/-- The tokens of a source. -/
def tokenize (source : String) : Except LexError (List Token) :=
  scan 0 source.toList

end ExprSandbox.Lexer
