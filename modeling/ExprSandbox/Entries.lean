/-!
# Entries in insertion order

The entries of an object are a list of keys with their values.  A key stands in it once, at the
place where it was first put, with the value that was put last.
-/

namespace ExprSandbox.Entries

variable {α : Type}

/-- Puts a value under a key: a new key goes to the end, a known one keeps its place. -/
def put (key : String) (value : α) : List (String × α) → List (String × α)
  | [] => [(key, value)]
  | (k, v) :: rest => if k = key then (k, value) :: rest else (k, v) :: put key value rest

/-- The entries that putting pairs in order gives. -/
def ofList (pairs : List (String × α)) : List (String × α) :=
  pairs.foldl (fun entries pair => put pair.1 pair.2 entries) []

/-- The keys in order. -/
def keys (entries : List (String × α)) : List String :=
  entries.map Prod.fst

end ExprSandbox.Entries
