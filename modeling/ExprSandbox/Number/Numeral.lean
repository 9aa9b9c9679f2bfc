import ExprSandbox.Number.Decimal
import ExprSandbox.Text.CharClass

/-!
# Numerals

A numeral is digits with an optional point among or beside them, and an optional exponent:
`12`, `5.`, `.5`, `1.25e-3`.  Number tokens of expression source and numeric texts have this
form, and both mean the nearest float.
-/

namespace ExprSandbox

/-- The parts of a numeral: the digits before the point, the digits after it, and the power of
ten that scales them. -/
structure Numeral where
  whole : List Char
  fraction : List Char
  exponent : Int
  deriving DecidableEq, Repr

namespace Numeral

/-- The number that a numeral spells. -/
def toDecimal (n : Numeral) : Decimal :=
  ⟨natOfDigits (n.whole ++ n.fraction), n.exponent - n.fraction.length⟩

/-- The integer that one or more digits after an optional sign spell. -/
def signed? : List Char → Option Int
  | '+' :: cs => magnitude? cs
  | '-' :: cs => (magnitude? cs).map (- ·)
  | cs => magnitude? cs
where
  /-- The integer that one or more digits spell. -/
  magnitude? (cs : List Char) : Option Int :=
    if cs ≠ [] ∧ cs.all isDigit then some (natOfDigits cs) else none

/-- The exponent that follows the digits of a numeral: none at all is `0`. -/
def exponent? : List Char → Option Int
  | [] => some 0
  | c :: cs => if c = 'e' ∨ c = 'E' then signed? cs else none

/-- Reads a whole text as a numeral. -/
def read? (cs : List Char) : Option Numeral :=
  let whole := cs.takeWhile isDigit
  match cs.dropWhile isDigit with
  | '.' :: rest =>
    let fraction := rest.takeWhile isDigit
    if whole = [] ∧ fraction = [] then none
    else (exponent? (rest.dropWhile isDigit)).map (⟨whole, fraction, ·⟩)
  | rest =>
    if whole = [] then none else (exponent? rest).map (⟨whole, [], ·⟩)

/-- The float that a text means when it is a numeral. -/
def toFloat? (cs : List Char) : Option Float :=
  (read? cs).map (·.toDecimal.toFloat)

end Numeral

end ExprSandbox
