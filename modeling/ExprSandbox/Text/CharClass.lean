/-!
# Character classes of expression source

An expression is written in ASCII: digits, letters, `_` and `$` have a meaning outside a
string, and no other letter or digit of the Unicode tables has one.  Blanks are the exception:
every character with the White_Space property separates two lexemes, and so does the byte order
mark.
-/

namespace ExprSandbox

/-! ## Digits and names -/

/-- An ASCII decimal digit. -/
def isDigit (c : Char) : Bool :=
  '0' ≤ c && c ≤ '9'

/-- An ASCII hexadecimal digit, of either case. -/
def isHexDigit (c : Char) : Bool :=
  isDigit c || ('a' ≤ c && c ≤ 'f') || ('A' ≤ c && c ≤ 'F')

/-- An ASCII letter, of either case. -/
def isLetter (c : Char) : Bool :=
  ('a' ≤ c && c ≤ 'z') || ('A' ≤ c && c ≤ 'Z')

/-- A character that may start a name: an ASCII letter, `_` or `$`. -/
def isIdentStart (c : Char) : Bool :=
  isLetter c || c == '_' || c == '$'

/-- A character that may continue a name. -/
def isIdentPart (c : Char) : Bool :=
  isIdentStart c || isDigit c

/-- A name as the source spells one: a starting character and any number of continuing ones. -/
def isIdentifier (s : String) : Bool :=
  match s.toList with
  | [] => false
  | c :: cs => isIdentStart c && cs.all isIdentPart

/-! ## Values of digits -/

/-- The value of a digit of any radix up to sixteen; a character that is no hexadecimal digit
has none. -/
def digitValue? (c : Char) : Option Nat :=
  if isDigit c then some (c.toNat - '0'.toNat)
  else if 'a' ≤ c && c ≤ 'f' then some (c.toNat - 'a'.toNat + 10)
  else if 'A' ≤ c && c ≤ 'F' then some (c.toNat - 'A'.toNat + 10)
  else none

/-- The value of a digit of the given radix. -/
def radixDigit? (radix : Nat) (c : Char) : Option Nat :=
  (digitValue? c).filter (· < radix)

/-! ## Blanks -/

/-- The ranges of code points that have the White_Space property. -/
def whiteSpaceRanges : List (Nat × Nat) :=
  [(0x09, 0x0D), (0x20, 0x20), (0x85, 0x85), (0xA0, 0xA0), (0x1680, 0x1680), (0x2000, 0x200A),
    (0x2028, 0x2029), (0x202F, 0x202F), (0x205F, 0x205F), (0x3000, 0x3000)]

/-- The byte order mark, which separates lexemes although it is no white space. -/
def byteOrderMark : Char := '\uFEFF'

/-- A character that separates lexemes and is no part of one. -/
def isBlank (c : Char) : Bool :=
  whiteSpaceRanges.any (fun range => range.1 ≤ c.toNat && c.toNat ≤ range.2) || c == byteOrderMark

end ExprSandbox
