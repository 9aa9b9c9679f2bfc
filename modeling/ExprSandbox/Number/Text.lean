import ExprSandbox.Number.Shortest

/-!
# The text of a number

A number is written with the digits of its shortest decimal.  The digits are laid out without an
exponent from `10 ^ -6` up to, and without, `10 ^ 21`; below and above, one digit stands before
the point and a signed exponent follows.
-/

namespace ExprSandbox.Number

/-! ## Layout of digits -/

/-- The greatest number of digits before the point in a text without an exponent. -/
def mostWholeDigits : Int := 21

/-- The greatest number of zeros between the point and the first digit in a text without an
exponent. -/
def mostLeadingZeros : Int := 5

/-- The exponent that follows the digits, with its sign. -/
def exponentText (e : Int) : List Char :=
  'e' :: (if 0 ≤ e then '+' else '-') :: Nat.toDigits 10 e.natAbs

/-- Lays out digits of which `point` stand before the point. -/
def layout (digits : List Char) (point : Int) : List Char :=
  if digits.length ≤ point ∧ point ≤ mostWholeDigits then
    digits ++ List.replicate (point - digits.length).toNat '0'
  else if 0 < point ∧ point ≤ mostWholeDigits then
    digits.take point.toNat ++ '.' :: digits.drop point.toNat
  else if -mostLeadingZeros ≤ point ∧ point ≤ 0 then
    '0' :: '.' :: (List.replicate (-point).toNat '0' ++ digits)
  else
    match digits with
    | [] => exponentText (point - 1)
    | [d] => d :: exponentText (point - 1)
    | d :: rest => d :: '.' :: (rest ++ exponentText (point - 1))

/-- Lays out the digits of a decimal. -/
def decimalText (d : Decimal) : List Char :=
  layout d.digits (d.digits.length + d.exponent)

/-! ## Texts of numbers -/

/-- The text of a number. -/
def text (x : Float) : String :=
  match x.toModel.unpack with
  | .notANumber => "NaN"
  | .zero _ => "0"
  | .infinity .positive => "Infinity"
  | .infinity .negative => "-Infinity"
  | .finite .positive _ _ _ => String.ofList (decimalText (.shortest x))
  | .finite .negative _ _ _ => String.ofList ('-' :: decimalText (.shortest x))

end ExprSandbox.Number
