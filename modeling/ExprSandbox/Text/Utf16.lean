/-!
# UTF-16 code units of a text

Lengths, positions and the order of texts count 16-bit code units: a character up to `U+FFFF`
is one unit, and a character above is a high surrogate followed by a low one.  A surrogate that
stands alone is no character, and decodes to the replacement character.
-/

namespace ExprSandbox.Utf16

/-- A unit that opens a pair. -/
def isHigh (u : Nat) : Bool :=
  0xD800 ≤ u && u < 0xDC00

/-- A unit that closes a pair. -/
def isLow (u : Nat) : Bool :=
  0xDC00 ≤ u && u < 0xE000

/-- Stands for a surrogate that has no partner. -/
def replacement : Char := '\uFFFD'

/-- The code units of one character. -/
def ofChar (c : Char) : List Nat :=
  if c.toNat < 0x10000 then [c.toNat]
  else [0xD800 + (c.toNat - 0x10000) / 0x400, 0xDC00 + (c.toNat - 0x10000) % 0x400]

/-- The code units of a text. -/
def units (s : String) : List Nat :=
  s.toList.flatMap ofChar

/-- The length of a text in code units. -/
def length (s : String) : Nat :=
  (units s).length

/-- The character that one unit is on its own. -/
def charOfUnit (u : Nat) : Char :=
  if isHigh u || isLow u then replacement else Char.ofNat u

/-- The character that a high and a low surrogate make together. -/
def charOfPair (high low : Nat) : Char :=
  Char.ofNat (0x10000 + (high - 0xD800) * 0x400 + (low - 0xDC00))

/-- The characters of a sequence of code units: pairs are joined, and every other surrogate
becomes the replacement character. -/
def decode : List Nat → List Char
  | [] => []
  | [u] => [charOfUnit u]
  | u :: v :: rest =>
    if isHigh u && isLow v then charOfPair u v :: decode rest
    else charOfUnit u :: decode (v :: rest)

/-- The order of two texts by their code units. -/
def order (s t : String) : Ordering :=
  compare (units s) (units t)

end ExprSandbox.Utf16
