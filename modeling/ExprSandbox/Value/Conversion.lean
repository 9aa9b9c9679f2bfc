import ExprSandbox.Json
import ExprSandbox.Value

/-!
# Values and JSON documents

A value becomes a document: what a document cannot hold becomes `null`, and a whole number of
safe magnitude becomes an integer.  A document becomes a value, all of whose arrays and objects
are new.
-/

namespace ExprSandbox.Value

/-! ## To documents -/

/-- The document of a number. -/
def numberToJson (x : Float) : Json :=
  match Number.safeWhole? x with
  | some n => .integer n
  | none => if x.isFinite then .float x else .null

mutual
/-- The document of a value. -/
def toJson : Value → Json
  | .undefined => .null
  | .null => .null
  | .bool b => .bool b
  | .number x => numberToJson x
  | .string s => .string s
  | .array _ slots => .array (slotsToJson slots)
  | .object _ entries => .ofMembers (entriesToJson entries)
  | .function _ => .null

/-- The documents of the slots of an array. -/
def slotsToJson : List (Option Value) → List Json
  | [] => []
  | none :: rest => .null :: slotsToJson rest
  | some v :: rest => v.toJson :: slotsToJson rest

/-- The members that the entries of an object become. -/
def entriesToJson : List (String × Value) → List (String × Json)
  | [] => []
  | (key, v) :: rest => (key, v.toJson) :: entriesToJson rest
end

/-! ## From documents -/

mutual
/-- The value of a document and the number of arrays and objects made so far, where `run` and
that number are the identity of the next one. -/
def ofJson (run : Nat) (j : Json) (made : Nat) : Value × Nat :=
  match j with
  | .null => (.null, made)
  | .bool b => (.bool b, made)
  | .integer n => (.number (Number.ofInt n), made)
  | .float x => (.number x, made)
  | .string s => (.string s, made)
  | .array items =>
    let vs := itemsOfJson run items made
    (.ofItems ⟨run, vs.2⟩ vs.1, vs.2 + 1)
  | .object members =>
    let es := membersOfJson run members made
    (.ofEntries ⟨run, es.2⟩ es.1, es.2 + 1)

/-- The values of documents. -/
def itemsOfJson (run : Nat) (items : List Json) (made : Nat) : List Value × Nat :=
  match items with
  | [] => ([], made)
  | j :: rest =>
    let v := ofJson run j made
    let vs := itemsOfJson run rest v.2
    (v.1 :: vs.1, vs.2)

/-- The entries that the members of a document become. -/
def membersOfJson (run : Nat) (members : List (String × Json)) (made : Nat) :
    List (String × Value) × Nat :=
  match members with
  | [] => ([], made)
  | (key, j) :: rest =>
    let v := ofJson run j made
    let es := membersOfJson run rest v.2
    ((key, v.1) :: es.1, es.2)
end

end ExprSandbox.Value
