import ExprSandbox.Error
import ExprSandbox.Text.CharClass
import ExprSandbox.Text.Utf16
import ExprSandbox.Token.Lexeme

/-!
# String literals

A string stands between two equal quotes.  A backslash before `n`, `f`, `r`, `t` or `v` is a
control character, `\u` and four hexadecimal digits are a code unit, and a backslash before any
other character is that character.  A high surrogate takes the low surrogate of an escape that
directly follows it; every other surrogate becomes the replacement character.
-/

namespace ExprSandbox.StringLiteral

/-! ## Escapes -/

/-- The character that a backslash before `c` stands for. -/
def unescape (c : Char) : Char :=
  if c = 'n' then '\n'
  else if c = 'f' then '\x0c'
  else if c = 'r' then '\r'
  else if c = 't' then '\t'
  else if c = 'v' then '\x0b'
  else c

/-- The code unit that four hexadecimal digits at the front spell. -/
def hexUnit? : List Char → Option Nat
  | a :: b :: c :: d :: _ => do
    let a ← digitValue? a
    let b ← digitValue? b
    let c ← digitValue? c
    let d ← digitValue? d
    return ((a * 16 + b) * 16 + c) * 16 + d
  | _ => none

/-- The low surrogate that an escape at the front spells. -/
def lowEscape? : List Char → Option Nat
  | '\\' :: 'u' :: cs => (hexUnit? cs).filter Utf16.isLow
  | _ => none

/-- The character that the escape `\u` before `cs` stands for, and how many characters of `cs`
belong to the escape. -/
def unicodeEscape? (cs : List Char) : Option (Char × Nat) :=
  (hexUnit? cs).map fun unit =>
    if Utf16.isHigh unit then
      match lowEscape? (cs.drop 4) with
      | some low => (Utf16.charOfPair unit low, 10)
      | none => (Utf16.replacement, 4)
    else (Utf16.charOfUnit unit, 4)

/-! ## Reading a string -/

/-- What is left of a string from some point on: the characters it stands for, its text through
the closing quote, and what follows the quote. -/
structure Body (cs : List Char) where
  value : List Char
  text : List Char
  rest : List Char
  split : cs = text ++ rest

/-- The body with an element read before it. -/
def Body.push {cs : List Char} (b : Body cs) (c : Char) (before : List Char) :
    Body (before ++ cs) :=
  ⟨c :: b.value, before ++ b.text, b.rest, by rw [List.append_assoc, ← b.split]⟩

/-- Reads on to the closing quote from byte offset `pos` of a string that starts at `start`. -/
def body (quote : Char) (start pos : Nat) (cs : List Char) : Except LexError (Body cs) :=
  match cs with
  | [] => .error (.unmatchedQuote start)
  | c :: cs =>
    if c = quote then .ok ⟨[], [c], cs, List.singleton_append.symm⟩
    else if c = '\\' then
      match cs with
      | [] => .error (.unmatchedQuote start)
      | e :: cs =>
        if e = 'u' then
          match unicodeEscape? cs with
          | none => .error (.invalidUnicodeEscape pos)
          | some (value, n) => do
            let b ← body quote start (pos + 2 + n) (cs.drop n)
            return { b.push value (c :: e :: cs.take n) with
              split := by
                have h := (b.push value (c :: e :: cs.take n)).split
                simpa using h }
        else do
          let b ← body quote start (pos + 1 + e.utf8Size) cs
          return b.push (unescape e) [c, e]
    else do
      let b ← body quote start (pos + c.utf8Size) cs
      return b.push c [c]
termination_by cs.length

/-- The string that starts with the given quote. -/
def lexeme (pos : Nat) (quote : Char) (cs : List Char) :
    Except LexError (Lexeme (quote :: cs)) := do
  let b ← body quote pos (pos + 1) cs
  return { text := quote :: b.text, rest := b.rest
           kind := .literal (.string (String.ofList b.value))
           nonempty := by simp
           split := by rw [List.cons_append, ← b.split] }

end ExprSandbox.StringLiteral
