import ExprSandbox.Number.Reading
import ExprSandbox.Value

/-!
# Coercions

Operators take operands of every type and turn them into truth values, texts or numbers first.
Arrays, objects and functions become texts before anything else.
-/

namespace ExprSandbox.Value

/-! ## Truth -/

/-- Whether a value counts as true: `undefined`, `null`, `false`, zero, the value that is no
number and the empty text do not. -/
def isTruthy : Value → Bool
  | .undefined => false
  | .null => false
  | .bool b => b
  | .number x => !(x == Number.zero) && !x.isNaN
  | .string s => s != ""
  | .array _ _ => true
  | .object _ _ => true
  | .function _ => true

/-! ## Text -/

/-- The text of a function value. -/
def functionText (f : Function) : String :=
  "function " ++ f.name ++ "() \x7b [native code] \x7d"

mutual
/-- The text of a value.  An array is the texts of its slots with commas between them, where
holes, `undefined` and `null` are empty. -/
def text : Value → String
  | .undefined => "undefined"
  | .null => "null"
  | .bool b => Constant.boolText b
  | .number x => Number.text x
  | .string s => s
  | .array _ slots => slotsText slots
  | .object _ _ => "[object Object]"
  | .function f => functionText f

/-- The texts of the slots of an array, with commas between them. -/
def slotsText : List (Option Value) → String
  | [] => ""
  | [none] => ""
  | [some v] => if v.isNullish then "" else v.text
  | none :: rest => "," ++ slotsText rest
  | some v :: rest => (if v.isNullish then "" else v.text) ++ "," ++ slotsText rest
end

/-- The name of the member that a computed key addresses. -/
def key (v : Value) : String :=
  v.text

/-! ## Primitive values -/

/-- Whether a value has an identity: it is an array, an object or a function. -/
def isReference : Value → Bool
  | .array _ _ => true
  | .object _ _ => true
  | .function _ => true
  | _ => false

/-- The value itself, or its text for an array, an object or a function. -/
def toPrimitive (v : Value) : Value :=
  if v.isReference then .string v.text else v

/-! ## Number -/

/-- The number of a value; an array, an object or a function is read from its text. -/
def toNumber : Value → Float
  | .undefined => Number.nan
  | .null => Number.zero
  | .bool b => if b then Number.ofNat 1 else Number.zero
  | .number x => x
  | .string s => Number.read s
  | v => Number.read v.text

end ExprSandbox.Value
