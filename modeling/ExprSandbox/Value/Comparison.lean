import ExprSandbox.Text.Utf16
import ExprSandbox.Value.Coercion

/-!
# Comparisons

Four ways to compare two values: by identity and content (`===`), after coercion (`==`), by
order (`<` and its relatives), and structurally, which looks through arrays and objects and is
for hosts.
-/

namespace ExprSandbox.Value

/-! ## Strict equality -/

/-- `===`: the same type and the same content, or the same identity for an array, an object or a
function. -/
def strictEq : Value → Value → Bool
  | .undefined, .undefined => true
  | .null, .null => true
  | .bool a, .bool b => a == b
  | .number a, .number b => a == b
  | .string a, .string b => a == b
  | .array a _, .array b _ => a = b
  | .object a _, .object b _ => a = b
  | .function f, .function g => f.id = g.id
  | _, _ => false

/-! ## Loose equality -/

/-- `==` between values that are neither booleans nor `undefined` nor `null`: a number meets a
text as a number, and an array, an object or a function meets either as a text. -/
def looseEqPlain (a b : Value) : Bool :=
  match a.isReference, b.isReference with
  | true, false => looseEqPrimitive (.string a.text) b
  | false, true => looseEqPrimitive a (.string b.text)
  | true, true => strictEq a b
  | false, false => looseEqPrimitive a b
where
  /-- `==` between numbers and texts. -/
  looseEqPrimitive : Value → Value → Bool
    | .number x, .string s => x == Number.read s
    | .string s, .number x => Number.read s == x
    | a, b => strictEq a b

/-- A boolean as a number; any other value as it is. -/
def unboxBool : Value → Value
  | .bool b => .number (toNumber (.bool b))
  | v => v

/-- `==`: `undefined` and `null` equal each other and nothing else, a boolean counts as its
number, and the rest is compared after coercion. -/
def looseEq (a b : Value) : Bool :=
  if a.isNullish || b.isNullish then a.isNullish && b.isNullish
  else looseEqPlain a.unboxBool b.unboxBool

/-! ## Order -/

/-- The order of two values: two texts by their UTF-16 code units, any other pair as numbers, and
`none` when one of these is no number. -/
def order (a b : Value) : Option Ordering :=
  match a.toPrimitive, b.toPrimitive with
  | .string s, .string t => some (Utf16.order s t)
  | a, b => Number.order a.toNumber b.toNumber

/-! ## Structural equality -/

mutual
/-- Whether two values have the same content, through arrays and objects; functions by identity.
The order of an object's keys does not count. -/
def sameContent : Value → Value → Bool
  | .undefined, .undefined => true
  | .null, .null => true
  | .bool a, .bool b => a == b
  | .number a, .number b => a == b
  | .string a, .string b => a == b
  | .array _ a, .array _ b => sameSlots a b
  | .object _ a, .object _ b => a.length == b.length && sameEntries a b
  | .function f, .function g => f.id = g.id
  | _, _ => false

/-- Whether two lists of slots have the same content; a hole equals a hole only. -/
def sameSlots : List (Option Value) → List (Option Value) → Bool
  | [], [] => true
  | none :: as, none :: bs => sameSlots as bs
  | some a :: as, some b :: bs => sameContent a b && sameSlots as bs
  | _, _ => false

/-- Whether every one of some entries is found with the same content among others. -/
def sameEntries : List (String × Value) → List (String × Value) → Bool
  | [], _ => true
  | (key, a) :: as, bs =>
    (match bs.lookup key with
      | some b => sameContent a b
      | none => false) && sameEntries as bs
end

end ExprSandbox.Value
