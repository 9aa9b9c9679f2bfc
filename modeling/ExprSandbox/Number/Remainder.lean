import ExprSandbox.Number.Basic

/-!
# The remainder of a division

The remainder is exact: both numbers are written as multiples of one power of two, and the
integers are divided.  It has the sign of the dividend, also when it is zero.
-/

namespace ExprSandbox.Number

open Float.Model (Format UnpackedFloat)

/-- The remainder of the division of two unpacked numbers. -/
def remainderUnpacked : UnpackedFloat → UnpackedFloat → UnpackedFloat
  | .notANumber, _ => .notANumber
  | _, .notANumber => .notANumber
  | .infinity _, _ => .notANumber
  | _, .zero _ => .notANumber
  | x, .infinity _ => x
  | .zero sign, .finite _ _ _ _ => .zero sign
  | .finite sign m e _, .finite _ n f _ =>
    let unit := min e f
    let r := (m * Nat.pow 2 (e - unit).toNat) % (n * Nat.pow 2 (f - unit).toNat)
    if r = 0 then .zero sign else .round Format.binary64 sign r unit

/-- The remainder of the division of two numbers. -/
def remainder (x y : Float) : Float :=
  .ofModel (.pack (remainderUnpacked x.toModel.unpack y.toModel.unpack))

end ExprSandbox.Number
