/-!
# Numbers

A number is a binary64 float.  Decisions about one (is it whole, which integer is it, how is it
written) look at its exact value `± m · 2 ^ e`, which unpacking its bits gives.
-/

namespace ExprSandbox.Number

open Float.Model (UnpackedFloat)

/-! ## Special numbers -/

/-- The value that is no number. -/
def nan : Float :=
  .ofModel (.pack .notANumber)

/-- The number above every other one. -/
def infinity : Float :=
  .ofModel (.pack (.infinity .positive))

/-- The number below every other one. -/
def negInfinity : Float :=
  .ofModel (.pack (.infinity .negative))

/-- Positive zero. -/
def zero : Float :=
  .ofModel (.pack (.zero .positive))

/-! ## Integers -/

/-- The float nearest to an integer; a half goes to the even neighbour. -/
def ofInt (n : Int) : Float :=
  .ofModel (.ofInt n)

/-- The float nearest to a natural number; a half goes to the even neighbour. -/
def ofNat (n : Nat) : Float :=
  ofInt n

/-- The integer that a float equals, where it equals one.  Both zeros equal `0`. -/
def whole? (x : Float) : Option Int :=
  match x.toModel.unpack with
  | .notANumber => none
  | .infinity _ => none
  | .zero _ => some 0
  | .finite sign m e _ =>
    if 0 ≤ e then some (sign.apply (m * Nat.pow 2 e.toNat : Nat))
    else if m % Nat.pow 2 (-e).toNat = 0 then some (sign.apply (m / Nat.pow 2 (-e).toNat : Nat))
    else none

/-- The greatest natural number, `2 ^ 53 - 1`, up to which every integer is a float that no other
integer rounds to. -/
def maxSafe : Nat :=
  9007199254740991

/-- The integer that a float equals, where it is one of magnitude at most `maxSafe`. -/
def safeWhole? (x : Float) : Option Int :=
  (whole? x).filter (fun n => n.natAbs ≤ maxSafe)

/-! ## Order -/

/-- The order of two numbers, `none` when one of them is no number.  The two zeros are equal. -/
def order (x y : Float) : Option Ordering :=
  x.toModel.compare y.toModel

end ExprSandbox.Number
