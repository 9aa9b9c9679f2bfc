/-!
# Single-quoted text

`Quoted.escape` writes a text so that it can stand between two single quotes on one line: line
breaks, other control characters, the quote, the backslash and the two Unicode separators are
escaped, and every other character stands for itself.
-/

namespace ExprSandbox.Quoted

/-- The lowercase hexadecimal digit of a value below sixteen. -/
def hexDigit (n : Nat) : Char :=
  Nat.digitChar (n % 16)

/-- The escape that spells a code point below `0x10000` with four hexadecimal digits. -/
def unicodeEscape (n : Nat) : List Char :=
  ['\\', 'u', hexDigit (n / 4096), hexDigit (n / 256), hexDigit (n / 16), hexDigit n]

/-- How one character is written inside single quotes. -/
def escapeChar (c : Char) : List Char :=
  if c = '\x08' then ['\\', 'b']
  else if c = '\t' then ['\\', 't']
  else if c = '\n' then ['\\', 'n']
  else if c = '\x0b' then ['\\', 'v']
  else if c = '\x0c' then ['\\', 'f']
  else if c = '\r' then ['\\', 'r']
  else if c = '\'' then ['\\', '\'']
  else if c = '\\' then ['\\', '\\']
  else if c = '\u2028' ∨ c = '\u2029' ∨ c.toNat < 0x20 then unicodeEscape c.toNat
  else [c]

/-- The text with every character escaped that cannot stand inside single quotes. -/
def escape (s : String) : String :=
  String.ofList (s.toList.flatMap escapeChar)

/-- The text as a single-quoted literal. -/
def quote (s : String) : String :=
  "'" ++ escape s ++ "'"

end ExprSandbox.Quoted
