import ExprSandbox.Constant
import ExprSandbox.Entries

/-!
# Values

Expressions compute with values.  Arrays, objects and functions have an identity besides their
content, and `===` compares nothing else of them.  What a function does is not part of its value:
the host that it belongs to knows that.
-/

namespace ExprSandbox

/-! ## Identities -/

/-- Tells apart arrays and objects.  Each evaluation, and each call that makes values, counts what
it makes under a number of its own. -/
structure Identity where
  run : Nat
  index : Nat
  deriving DecidableEq, Repr

/-- A function of the host: its number, which is its identity, its name, and whether calling it
builds new code. -/
structure Function where
  id : Nat
  name : String
  constructsCode : Bool
  deriving DecidableEq, Inhabited, Repr

/-! ## Values -/

/-- A value of the expression language.  A `none` slot of an array is a hole. -/
inductive Value where
  | undefined
  | null
  | bool (b : Bool)
  | number (x : Float)
  | string (s : String)
  | array (id : Identity) (slots : List (Option Value))
  | object (id : Identity) (entries : List (String × Value))
  | function (f : Function)
  deriving Inhabited

namespace Value

/-- The value of a literal constant. -/
def ofConstant : Constant → Value
  | .undefined => .undefined
  | .null => .null
  | .bool b => .bool b
  | .number x => .number x
  | .string s => .string s

/-- An array without holes. -/
def ofItems (id : Identity) (items : List Value) : Value :=
  .array id (items.map some)

/-- The object that putting entries in order gives. -/
def ofEntries (id : Identity) (pairs : List (String × Value)) : Value :=
  .object id (Entries.ofList pairs)

/-! ## Views -/

/-- Whether the value is `undefined`. -/
def isUndefined : Value → Bool
  | .undefined => true
  | _ => false

/-- Whether the value is `undefined` or `null`, which have no members. -/
def isNullish : Value → Bool
  | .undefined => true
  | .null => true
  | _ => false

/-- The number that a number value holds. -/
def asNumber? : Value → Option Float
  | .number x => some x
  | _ => none

/-- The truth value that a boolean holds. -/
def asBool? : Value → Option Bool
  | .bool b => some b
  | _ => none

/-- The text that a string holds. -/
def asString? : Value → Option String
  | .string s => some s
  | _ => none

/-- The slots of an array. -/
def asArray? : Value → Option (List (Option Value))
  | .array _ slots => some slots
  | _ => none

/-- The entries of an object. -/
def asObject? : Value → Option (List (String × Value))
  | .object _ entries => some entries
  | _ => none

/-- The function that a function value is. -/
def asFunction? : Value → Option Function
  | .function f => some f
  | _ => none

/-- The name of the type of a value. -/
def typeName : Value → String
  | .undefined => "undefined"
  | .null => "object"
  | .bool _ => "boolean"
  | .number _ => "number"
  | .string _ => "string"
  | .array _ _ => "object"
  | .object _ _ => "object"
  | .function _ => "function"

end Value

end ExprSandbox
