import ExprSandbox.Number.Basic
import ExprSandbox.Number.Numeral
import ExprSandbox.Text.CharClass

/-!
# The number that a text means

Blanks around a text do not count.  What is left is nothing at all (zero), a signed `Infinity`,
digits after a radix prefix, or a signed numeral; any other text is no number.  Signed numerals are
read as the host reads floats.  The host knows words besides (`inf`, `nan`), which are kept from it
by a look at the letters of the text.
-/

namespace ExprSandbox.Number

/-- The text without the blanks at its two ends. -/
def trim (cs : List Char) : List Char :=
  ((cs.dropWhile isBlank).reverse.dropWhile isBlank).reverse

/-! ## Radix prefixes -/

/-- The radix that the two characters of a prefix name. -/
def radixOf? : Char → Char → Option Nat
  | '0', 'x' => some 16
  | '0', 'X' => some 16
  | '0', 'o' => some 8
  | '0', 'O' => some 8
  | '0', 'b' => some 2
  | '0', 'B' => some 2
  | _, _ => none

/-- The number that digits of a radix spell, accumulated from the left in float arithmetic. -/
def ofRadixDigits (radix : Nat) : List Nat → Float :=
  List.foldl (fun n d => n * ofNat radix + ofNat d) zero

/-- The number that one or more digits of a radix spell. -/
def readRadix (radix : Nat) (cs : List Char) : Float :=
  match cs, cs.mapM (radixDigit? radix) with
  | _ :: _, some digits => ofRadixDigits radix digits
  | _, _ => nan

/-! ## Floats of the host -/

/-- The words of the float syntax of the host, in lower case. -/
def hostWords : List (String × Float) :=
  [("inf", infinity), ("infinity", infinity), ("nan", nan)]

/-- The float that a text without a sign means to the host: a numeral, or a word in any mix of
cases. -/
def hostMagnitude? (cs : List Char) : Option Float :=
  match Numeral.toFloat? cs with
  | some x => some x
  | none => hostWords.lookup (String.ofList (cs.map Char.toLower))

/-- The number that a text with an optional sign means to the host. -/
def readSigned (cs : List Char) : Float :=
  match cs with
  | '+' :: rest => (hostMagnitude? rest).getD nan
  | '-' :: rest => ((hostMagnitude? rest).map (- ·)).getD nan
  | _ => (hostMagnitude? cs).getD nan

/-- A letter that is not the one of an exponent. -/
def isForeignLetter (c : Char) : Bool :=
  isLetter c && c != 'e' && c != 'E'

/-- The number that a text without a radix prefix means: no number where a letter stands in it that
numerals do not have, and otherwise what it means to the host. -/
def readDecimal (cs : List Char) : Float :=
  if cs.any isForeignLetter then nan else readSigned cs

/-! ## Reading -/

/-- The number that a text without blanks at its ends means. -/
def readTrimmed (cs : List Char) : Float :=
  if cs = [] then zero
  else if cs = "Infinity".toList ∨ cs = "+Infinity".toList then infinity
  else if cs = "-Infinity".toList then negInfinity
  else
    match cs with
    | a :: b :: rest =>
      match radixOf? a b with
      | some radix => readRadix radix rest
      | none => readDecimal cs
    | _ => readDecimal cs

/-- The number that a text means. -/
def read (s : String) : Float :=
  readTrimmed (trim s.toList)

end ExprSandbox.Number
