import ExprSandbox.Routine

/-!
# What statements mention

The operands and the target of a statement, the temporaries of an operand, and the listing of a
routine's code: every statement in the order of the program text, a conditional before what its
blocks hold.
-/

namespace ExprSandbox

/-! ## Temporaries of operands -/

namespace Operand

mutual
/-- The temporaries that occur in an operand, from left to right. -/
def temps : Operand → List Nat
  | .literal _ => []
  | .temp index => [index]
  | .context => []
  | .array slots => slotsTemps slots
  | .object entries => entriesTemps entries
  | .unary _ argument => argument.temps
  | .binary _ left right => left.temps ++ right.temps

/-- The temporaries that occur in the slots of an array. -/
def slotsTemps : List (Option Operand) → List Nat
  | [] => []
  | none :: rest => slotsTemps rest
  | some o :: rest => o.temps ++ slotsTemps rest

/-- The temporaries that occur in the entries of an object. -/
def entriesTemps : List (String × Operand) → List Nat
  | [] => []
  | (_, o) :: rest => o.temps ++ entriesTemps rest
end

/-- The temporaries that occur in a list of operands. -/
def allTemps (os : List Operand) : List Nat :=
  os.flatMap temps

/-- The temporaries of several operands are those of the first one and of the others. -/
theorem allTemps_cons (o : Operand) (os : List Operand) :
    allTemps (o :: os) = o.temps ++ allTemps os :=
  List.flatMap_cons

/-- The temporaries of a single operand. -/
theorem allTemps_singleton (o : Operand) : allTemps [o] = o.temps :=
  List.flatMap_singleton temps o

end Operand

/-! ## Statements -/

namespace Statement

/-- The operands that a statement holds: values, bases and keys, callees, receivers and arguments,
tests. -/
def operands : Statement → List Operand
  | .assign _ value => [value]
  | .readContext _ _ => []
  | .readMember _ base (.named _) => [base]
  | .readMember _ base (.computed key) => [base, key]
  | .call _ callee receiver arguments => callee :: receiver :: arguments
  | .branch test _ _ => [test]

/-- The temporary that a statement puts a value into. -/
def target? : Statement → Option Nat
  | .assign target _ => some target
  | .readContext target _ => some target
  | .readMember target _ _ => some target
  | .call target _ _ _ => some target
  | .branch _ _ _ => none

/-- The temporaries that a statement reads. -/
def uses (s : Statement) : List Nat :=
  Operand.allTemps s.operands

section Uses

variable (t : Nat) (o key callee receiver : Operand)

/-- An assignment reads what its value does. -/
theorem uses_assign : (assign t o).uses = o.temps :=
  Operand.allTemps_singleton o

/-- A read under a name reads what its base does. -/
theorem uses_readMember_named (name : String) : (readMember t o (.named name)).uses = o.temps :=
  Operand.allTemps_singleton o

/-- A read under a computed key reads what its base and its key do. -/
theorem uses_readMember_computed :
    (readMember t o (.computed key)).uses = o.temps ++ key.temps := by
  rw [uses, operands, Operand.allTemps_cons, Operand.allTemps_singleton]

/-- A call reads what its callee, its receiver and its arguments do. -/
theorem uses_call (arguments : List Operand) : (call t callee receiver arguments).uses =
    callee.temps ++ (receiver.temps ++ Operand.allTemps arguments) := by
  rw [uses, operands, Operand.allTemps_cons, Operand.allTemps_cons]

/-- A conditional itself reads what its test does. -/
theorem uses_branch (a b : List Statement) : (branch o a b).uses = o.temps :=
  Operand.allTemps_singleton o

end Uses

mutual
/-- A statement and those of its blocks, in the order of the program text. -/
def listing : Statement → List Statement
  | .assign target value => [.assign target value]
  | .readContext target name => [.readContext target name]
  | .readMember target base key => [.readMember target base key]
  | .call target callee receiver arguments => [.call target callee receiver arguments]
  | .branch test a b => .branch test a b :: (listingAll a ++ listingAll b)

/-- The statements of code and of its blocks, in the order of the program text. -/
def listingAll : List Statement → List Statement
  | [] => []
  | s :: rest => s.listing ++ listingAll rest
end

/-- The listing of code that is put together. -/
theorem listingAll_append (c c' : List Statement) :
    listingAll (c ++ c') = listingAll c ++ listingAll c' := by
  induction c with
  | nil => rfl
  | cons s rest ih => rw [List.cons_append, listingAll, listingAll, ih, List.append_assoc]

/-- The listing of a single statement. -/
theorem listingAll_singleton (s : Statement) : listingAll [s] = s.listing := by
  rw [listingAll, listingAll, List.append_nil]

/-- A statement with a target has no blocks. -/
theorem listing_of_target {s : Statement} {t : Nat} (h : s.target? = some t) : s.listing = [s] := by
  cases s with
  | branch test a b => cases h
  | _ => rfl

end Statement

end ExprSandbox
