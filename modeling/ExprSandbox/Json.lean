/-!
# JSON documents

A document as data: numbers are integers or floats as they are written, and the keys of an object
are distinct and in increasing order of their code points.
-/

namespace ExprSandbox

/-- A JSON document. -/
inductive Json where
  | null
  | bool (b : Bool)
  | integer (n : Int)
  | float (x : Float)
  | string (s : String)
  | array (items : List Json)
  | object (members : List (String × Json))
  deriving Inhabited

namespace Json

/-- Puts a member in its place in members of increasing keys; a key that is there gets the new
value. -/
def insertMember (key : String) (j : Json) : List (String × Json) → List (String × Json)
  | [] => [(key, j)]
  | (k, i) :: rest =>
    if key < k then (key, j) :: (k, i) :: rest
    else if key = k then (key, j) :: rest
    else (k, i) :: insertMember key j rest

/-- The object that has the given members, of which the last one of a key counts. -/
def ofMembers (members : List (String × Json)) : Json :=
  .object (members.foldl (fun sorted m => insertMember m.1 m.2 sorted) [])

end Json

end ExprSandbox
