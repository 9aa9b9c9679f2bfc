import ExprSandbox.Number.Decimal
import ExprSandbox.Text.CharClass
import ExprSandbox.Text.Utf16
import ExprSandbox.Value

/-!
# Members

An object has its own entries as members and nothing else.  Arrays and strings have a `length`
and one member per index; a string counts and gives UTF-16 code units.  Any other read gives
`undefined`.
-/

namespace ExprSandbox.Value

/-- The index that a key spells: digits, of which the first is not `0` unless it is the only
one. -/
def index? (key : String) : Option Nat :=
  match key.toList with
  | [] => none
  | ['0'] => some 0
  | c :: cs =>
    if c ≠ '0' ∧ (c :: cs).all isDigit then some (natOfDigits (c :: cs)) else none

/-- The member of a value under a key. -/
def get (v : Value) (key : String) : Value :=
  match v with
  | .object _ entries => (entries.lookup key).getD .undefined
  | .array _ slots =>
    if key = "length" then .number (Number.ofNat slots.length)
    else (((index? key).bind (slots[·]?)).bind id).getD .undefined
  | .string s =>
    if key = "length" then .number (Number.ofNat (Utf16.length s))
    else
      (((index? key).bind ((Utf16.units s)[·]?)).map
        (fun unit => .string (String.singleton (Utf16.charOfUnit unit)))).getD .undefined
  | _ => .undefined

end ExprSandbox.Value
