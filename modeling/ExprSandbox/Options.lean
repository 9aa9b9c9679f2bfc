/-!
# Options

Limits of the parser and the list of member names that an evaluation refuses to read.
-/

namespace ExprSandbox

/-! ## Limits -/

/-- The limits of the parser: how deep sub-expressions may nest, and how high a tree may grow. -/
structure Limits where
  depth : Nat := 64
  height : Nat := 256
  deriving DecidableEq, Repr

/-! ## Denied names -/

/-- A set of member names, listed in increasing order of their code points. -/
structure DenyList where
  names : List String
  deriving DecidableEq, Repr

namespace DenyList

/-- Puts a name in its place in an increasing list; a name that is there stays alone. -/
def insertName (name : String) : List String → List String
  | [] => [name]
  | n :: rest =>
    if name < n then name :: n :: rest
    else if name = n then n :: rest
    else n :: insertName name rest

theorem mem_insertName {name n : String} {names : List String} :
    n ∈ insertName name names ↔ n = name ∨ n ∈ names := by
  induction names with
  | nil => simp [insertName]
  | cons m rest ih =>
    unfold insertName
    split
    · simp
    · split
      · next h => simp [h]
      · simp [ih, or_left_comm]

/-- No name at all. -/
def empty : DenyList := ⟨[]⟩

/-- The list with one more name. -/
def insert (d : DenyList) (name : String) : DenyList :=
  ⟨insertName name d.names⟩

/-- The set of the given names. -/
def ofList (names : List String) : DenyList :=
  names.foldl insert empty

/-- Whether a name may not be read. -/
def denies (d : DenyList) (name : String) : Bool :=
  d.names.contains name

/-- The names that lead from plain data to the machinery behind it. -/
def standard : DenyList :=
  ofList ["constructor", "__proto__", "prototype", "__defineGetter__", "__defineSetter__",
    "__lookupGetter__", "__lookupSetter__"]

theorem denies_insert (d : DenyList) (name n : String) :
    (d.insert name).denies n = (n == name || d.denies n) := by
  rw [Bool.eq_iff_iff]
  simp [denies, insert, mem_insertName]

end DenyList

/-! ## Options of the whole pipeline -/

/-- The options from source text to evaluation. -/
structure Options where
  limits : Limits := {}
  denied : DenyList := .standard

end ExprSandbox
