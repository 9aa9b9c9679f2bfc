/-!
# Decimal numbers

A decimal is a natural number times a power of ten.  It reads as the nearest float, and every
float has one of finitely many digits.
-/

namespace ExprSandbox

/-- The number `coefficient · 10 ^ exponent`. -/
structure Decimal where
  coefficient : Nat
  exponent : Int
  deriving DecidableEq, Repr

namespace Decimal

/-- The float nearest to a decimal; a half goes to the even neighbour. -/
def toFloat (d : Decimal) : Float :=
  .ofModel (.ofScientific d.coefficient d.exponent)

/-- The same number with no zero at the end of its coefficient, `0` apart. -/
def strip (d : Decimal) : Decimal :=
  if _h : d.coefficient ≠ 0 ∧ d.coefficient % 10 = 0 then
    strip ⟨d.coefficient / 10, d.exponent + 1⟩
  else d
termination_by d.coefficient
decreasing_by omega

/-- The decimal digits of the coefficient, the first of them not `0` unless it is the only one. -/
def digits (d : Decimal) : List Char :=
  Nat.toDigits 10 d.coefficient

end Decimal

/-- The natural number that a sequence of decimal digits spells. -/
def natOfDigits (cs : List Char) : Nat :=
  cs.foldl (fun n c => 10 * n + (c.toNat - '0'.toNat)) 0

end ExprSandbox
