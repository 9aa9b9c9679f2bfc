import ExprSandbox.Number.Text
import ExprSandbox.Text.Quoted

/-!
# Literal constants

A constant is what a number, a string or a keyword of the source stands for.  It has two texts:
the key it names a member by, and the literal that source code writes for it.
-/

namespace ExprSandbox

/-- A literal constant. -/
inductive Constant where
  | undefined
  | null
  | bool (b : Bool)
  | number (x : Float)
  | string (s : String)
  deriving DecidableEq

namespace Constant

/-- The constant that a keyword spells; any other word is no keyword. -/
def ofKeyword? (word : String) : Option Constant :=
  match word with
  | "true" => some (.bool true)
  | "false" => some (.bool false)
  | "null" => some .null
  | "undefined" => some .undefined
  | _ => none

/-- The text of a truth value. -/
def boolText (b : Bool) : String :=
  if b then "true" else "false"

/-- The name of the member that the constant addresses. -/
def key : Constant → String
  | .undefined => "undefined"
  | .null => "null"
  | .bool b => boolText b
  | .number x => Number.text x
  | .string s => s

/-- The constant as source code: a string is quoted, any other constant is its key. -/
def render : Constant → String
  | .string s => Quoted.quote s
  | c => c.key

end Constant

end ExprSandbox
