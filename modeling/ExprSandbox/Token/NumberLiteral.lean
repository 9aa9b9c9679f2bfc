import ExprSandbox.Error
import ExprSandbox.Number.Numeral
import ExprSandbox.Token.Lexeme

/-!
# Number literals

A number starts with a digit, or with a point before a digit.  It takes all digits, at most one
point and an optional exponent.  An exponent letter has to be followed by an exponent, and no
second exponent letter may follow it.
-/

namespace ExprSandbox.NumberLiteral

/-! ## Parts of a number -/

/-- Whether a number starts at the front. -/
def starts : List Char → Bool
  | '.' :: d :: _ => isDigit d
  | c :: _ => isDigit c
  | [] => false

/-- The letter before an exponent. -/
def isExponentLetter (c : Char) : Bool :=
  c == 'e' || c == 'E'

/-- Digits with an optional point, and what follows them. -/
def mantissa (cs : List Char) : List Char × List Char :=
  match cs.dropWhile isDigit with
  | '.' :: rest =>
    (cs.takeWhile isDigit ++ '.' :: rest.takeWhile isDigit, rest.dropWhile isDigit)
  | rest => (cs.takeWhile isDigit, rest)

/-- A sign that a digit follows, and what follows the sign. -/
def exponentSign : List Char → List Char × List Char
  | c :: d :: rest =>
    if (c = '+' ∨ c = '-') ∧ isDigit d then ([c], d :: rest) else ([], c :: d :: rest)
  | cs => ([], cs)

theorem mantissa_append (cs : List Char) : (mantissa cs).1 ++ (mantissa cs).2 = cs := by
  have h := List.takeWhile_append_dropWhile (p := isDigit) (l := cs)
  unfold mantissa
  split
  · next rest hrest =>
    have h' := List.takeWhile_append_dropWhile (p := isDigit) (l := rest)
    simp only [List.append_assoc, List.cons_append, h', ← hrest, h]
  · exact h

theorem exponentSign_append (cs : List Char) :
    (exponentSign cs).1 ++ (exponentSign cs).2 = cs := by
  unfold exponentSign
  split
  · split <;> rfl
  · rfl

theorem mantissa_ne_nil {cs : List Char} (h : starts cs = true) : (mantissa cs).1 ≠ [] := by
  unfold mantissa
  split
  · simp
  · next hrest =>
    unfold starts at h
    split at h
    · next d ds => exact absurd rfl (hrest (d :: ds))
    · simp [h]
    · simp at h

/-! ## Reading a number -/

/-- The value of the digits of a number. -/
def value (text : List Char) : Float :=
  (Numeral.toFloat? text).getD Number.nan

/-- The number at the front.  When its exponent is not well formed, the error is at the end of
what was read. -/
def lexeme (pos : Nat) (cs : List Char) (h : starts cs = true) : Except LexError (Lexeme cs) :=
  match hrest : (mantissa cs).2 with
  | [] => .ok
      { text := (mantissa cs).1, rest := []
        kind := .literal (.number (value (mantissa cs).1))
        nonempty := mantissa_ne_nil h
        split := by rw [← hrest, mantissa_append] }
  | c :: rest =>
    if isExponentLetter c then
      let sign := exponentSign rest
      let digits := sign.2.takeWhile isDigit
      let tail := sign.2.dropWhile isDigit
      let text := (mantissa cs).1 ++ c :: (sign.1 ++ digits)
      if digits = [] ∨ tail.head?.any isExponentLetter then
        .error (.invalidExponent (pos + byteWidth text))
      else .ok
        { text := text, rest := tail
          kind := .literal (.number (value text))
          nonempty := by simp [text]
          split := by
            have hs := exponentSign_append rest
            have hd := List.takeWhile_append_dropWhile (p := isDigit) (l := sign.2)
            have hm := mantissa_append cs
            rw [hrest, ← hs, ← hd] at hm
            simpa [text, digits, tail] using hm.symm }
    else .ok
      { text := (mantissa cs).1, rest := c :: rest
        kind := .literal (.number (value (mantissa cs).1))
        nonempty := mantissa_ne_nil h
        split := by rw [← hrest, mantissa_append] }

end ExprSandbox.NumberLiteral
