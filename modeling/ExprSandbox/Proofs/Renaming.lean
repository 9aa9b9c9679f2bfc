import Mathlib.Logic.Equiv.Basic
import ExprSandbox.Process
import ExprSandbox.Proofs.Coercion

/-!
# Renaming identities

Identities are only compared, so nothing should hang on which ones an evaluation happens to hand
out.  A renaming exchanges identities one for one, and every operation on values commutes with
it: a renamed value has the same text, the same number, the same truth, and the renamed members.
A host that uses identities only to compare them commutes with renaming as well; that is the
form in which `Host.RespectsRenaming` states it.
-/

namespace ExprSandbox

/-- An exchange of identities, one for one. -/
abbrev Renaming := Equiv.Perm Identity

/-- A type whose elements may hold identities, with what a renaming makes of them. -/
class Renamable (α : Type) where
  /-- The same with other identities. -/
  rename : Renaming → α → α

export Renamable (rename)

/-! ## Values -/

namespace Value

mutual
/-- The value with other identities for the arrays and objects in it. -/
def renamed (π : Renaming) : Value → Value
  | .undefined => .undefined
  | .null => .null
  | .bool b => .bool b
  | .number x => .number x
  | .string s => .string s
  | .array id slots => .array (π id) (renamedSlots π slots)
  | .object id entries => .object (π id) (renamedEntries π entries)
  | .function f => .function f

/-- The slots of an array with other identities. -/
def renamedSlots (π : Renaming) : List (Option Value) → List (Option Value)
  | [] => []
  | none :: rest => none :: renamedSlots π rest
  | some v :: rest => some (v.renamed π) :: renamedSlots π rest

/-- The entries of an object with other identities. -/
def renamedEntries (π : Renaming) : List (String × Value) → List (String × Value)
  | [] => []
  | (key, v) :: rest => (key, v.renamed π) :: renamedEntries π rest
end

end Value

section Instances

variable {α β : Type} [Renamable α] [Renamable β]

instance : Renamable Value := ⟨Value.renamed⟩

/-- A text holds no identity. -/
instance : Renamable String := ⟨fun _ s => s⟩

instance : Renamable (Option α) := ⟨fun π => Option.map (rename π)⟩

instance : Renamable (List α) := ⟨fun π => List.map (rename π)⟩

instance : Renamable (α × β) := ⟨fun π p => (rename π p.1, rename π p.2)⟩

/-- An error holds no identity. -/
instance : Renamable (Except EvalError α) := ⟨fun π => Except.map (rename π)⟩

instance : Renamable Call :=
  ⟨fun π c => ⟨c.function, rename π c.receiver, rename π c.arguments⟩⟩

instance : Renamable Event where
  rename π
    | .read base name => .read (rename π base) name
    | .call c => .call (rename π c)

instance {σ : Type} [Renamable σ] : Renamable (Execution σ α) :=
  ⟨fun π x => ⟨rename π x.outcome, rename π x.events, rename π x.host⟩⟩

end Instances

/-! ## Renaming structures -/

section Structures

variable {α β : Type} [Renamable α] [Renamable β] (π : Renaming)

@[simp] theorem rename_cons (a : α) (as : List α) :
    rename π (a :: as) = rename π a :: rename π as := rfl

@[simp] theorem rename_some (a : α) : rename π (some a) = some (rename π a) := rfl

@[simp] theorem rename_pair (a : α) (b : β) : rename π (a, b) = (rename π a, rename π b) := rfl

@[simp] theorem rename_string (s : String) : rename π s = s := rfl

end Structures

/-! ## Renaming values -/

namespace Value

variable (π : Renaming)

/-- The slots of a renamed array are the renamed slots. -/
theorem renamedSlots_eq (slots : List (Option Value)) : renamedSlots π slots = rename π slots := by
  induction slots with
  | nil => rfl
  | cons slot rest ih =>
    cases slot with
    | none => exact congrArg (none :: ·) ih
    | some v => exact congrArg (some (v.renamed π) :: ·) ih

/-- The entries of a renamed object are the renamed entries. -/
theorem renamedEntries_eq (entries : List (String × Value)) :
    renamedEntries π entries = rename π entries := by
  induction entries with
  | nil => rfl
  | cons entry rest ih => exact congrArg ((entry.1, entry.2.renamed π) :: ·) ih

@[simp] theorem rename_array (id : Identity) (slots : List (Option Value)) :
    rename π (Value.array id slots) = .array (π id) (rename π slots) :=
  congrArg (Value.array (π id)) (renamedSlots_eq π slots)

@[simp] theorem rename_object (id : Identity) (entries : List (String × Value)) :
    rename π (Value.object id entries) = .object (π id) (rename π entries) :=
  congrArg (Value.object (π id)) (renamedEntries_eq π entries)

/-- A value without identity holds none at all. -/
theorem rename_of_not_isReference {v : Value} (h : v.isReference = false) : rename π v = v := by
  cases v <;> first | rfl | cases h

@[simp] theorem rename_ofConstant (c : Constant) : rename π (ofConstant c) = ofConstant c := by
  cases c <;> rfl

/-! ## Renamed values in operations -/

/-- Renaming keeps a value nullish or not. -/
theorem isNullish_rename (v : Value) : (rename π v).isNullish = v.isNullish := by
  cases v <;> rfl

mutual
/-- Renaming does not change the text of a value. -/
theorem text_rename (v : Value) : (rename π v).text = v.text := by
  match v with
  | .undefined => rfl
  | .null => rfl
  | .bool _ => rfl
  | .number _ => rfl
  | .string _ => rfl
  | .array id slots =>
    rw [rename_array, text, text]
    exact slotsText_rename slots
  | .object _ _ => rfl
  | .function _ => rfl

/-- Renaming does not change the text of slots. -/
theorem slotsText_rename (slots : List (Option Value)) :
    slotsText (rename π slots) = slotsText slots := by
  match slots with
  | [] => rfl
  | [none] => rfl
  | [some v] =>
    show (if (rename π v).isNullish then "" else (rename π v).text) = _
    rw [isNullish_rename, text_rename v]
    rfl
  | none :: s :: rest =>
    have ih := slotsText_rename (s :: rest)
    rw [rename_cons] at ih ⊢
    exact congrArg ("," ++ ·) ih
  | some v :: s :: rest =>
    have ih := slotsText_rename (s :: rest)
    rw [rename_cons, rename_some]
    rw [rename_cons] at ih ⊢
    rw [slotsText, ih, isNullish_rename, text_rename v]
    · rfl
    · simp
end

/-- Renaming keeps a value an array, an object or a function. -/
theorem isReference_rename (v : Value) : (rename π v).isReference = v.isReference := by
  cases v <;> rfl

/-- A renamed value coerces like the value itself. -/
theorem coercesLike_rename (v : Value) : CoercesLike (rename π v) v where
  primitive := by
    rw [toPrimitive, toPrimitive, isReference_rename, text_rename]
    cases h : v.isReference with
    | true => rfl
    | false => exact rename_of_not_isReference π h
  reference := isReference_rename π v

/-- Renaming is one for one, so `===` sees no difference. -/
theorem strictEq_rename (a b : Value) : (rename π a).strictEq (rename π b) = a.strictEq b := by
  cases a <;> cases b <;> first
    | rfl
    | simp only [rename_array, rename_object, strictEq, π.injective.eq_iff]

/-- What renamed entries hold is renamed. -/
theorem lookup_rename (entries : List (String × Value)) (name : String) :
    (rename π entries).lookup name = rename π (entries.lookup name) := by
  induction entries with
  | nil => rfl
  | cons entry rest ih =>
    obtain ⟨key, v⟩ := entry
    rw [rename_cons, rename_pair, rename_string, List.lookup_cons, List.lookup_cons]
    split
    · rfl
    · exact ih

/-- The member of a renamed value is the renamed member. -/
theorem get_rename (v : Value) (name : String) : (rename π v).get name = rename π (v.get name) := by
  cases v with
  | object id entries =>
    rw [rename_object, get, lookup_rename, get]
    cases entries.lookup name <;> rfl
  | array id slots =>
    have slot_rename : ∀ i : Nat, (rename π slots)[i]? = rename π (slots[i]?) :=
      fun i => List.getElem?_map
    have length_rename : (rename π slots).length = slots.length := List.length_map _
    rw [rename_array, get, get, length_rename]
    split
    · rfl
    · cases index? name with
      | none => rfl
      | some i =>
        simp only [Option.bind_some, slot_rename]
        cases slots[i]? with
        | none => rfl
        | some slot => cases slot <;> rfl
  | string s =>
    show Value.get (.string s) name = rename π (Value.get (.string s) name)
    rw [get]
    split
    · rfl
    · cases (index? name).bind ((Utf16.units s)[·]?) <;> rfl
  | _ => rfl

/-- Putting a renamed value into renamed entries. -/
theorem put_rename (key : String) (v : Value) (entries : List (String × Value)) :
    rename π (Entries.put key v entries) = Entries.put key (rename π v) (rename π entries) := by
  induction entries with
  | nil => rfl
  | cons entry rest ih =>
    obtain ⟨k, u⟩ := entry
    rw [rename_cons, rename_pair, rename_string, Entries.put, Entries.put]
    split
    · rfl
    · rw [rename_cons, ih]
      rfl

/-- Putting renamed values in order gives the renamed entries. -/
theorem ofEntries_rename (id : Identity) (pairs : List (String × Value)) :
    rename π (ofEntries id pairs) = ofEntries (π id) (rename π pairs) := by
  have foldl_rename : ∀ entries : List (String × Value),
      rename π (pairs.foldl (fun es pair => Entries.put pair.1 pair.2 es) entries)
        = (rename π pairs).foldl (fun es pair => Entries.put pair.1 pair.2 es)
            (rename π entries) := by
    induction pairs with
    | nil => exact fun entries => rfl
    | cons pair rest ih =>
      intro entries
      rw [List.foldl_cons, ih, put_rename]
      rfl
  rw [ofEntries, rename_object, ofEntries, Entries.ofList, foldl_rename]
  rfl

end Value

/-- A unary operator gives for a renamed value what it gives for the value. -/
theorem UnaryOp.rename_apply (operator : UnaryOp) (π : Renaming) (v : Value) :
    rename π (operator.apply v) = operator.apply (rename π v) := by
  rw [Value.rename_of_not_isReference π (operator.isReference_apply v)]
  exact operator.apply_eq_of_coercesLike ⟨(v.coercesLike_rename π).primitive.symm,
    (v.coercesLike_rename π).reference.symm⟩

/-- A binary operator gives for renamed operands what it gives for the operands. -/
theorem BinaryOp.rename_apply (operator : BinaryOp) (π : Renaming) (a b : Value) :
    rename π (operator.apply a b) = operator.apply (rename π a) (rename π b) := by
  rw [Value.rename_of_not_isReference π (operator.isReference_apply a b)]
  exact (operator.apply_eq_of_coercesLike (a.coercesLike_rename π) (b.coercesLike_rename π)
    (Value.strictEq_rename π a b)).symm

/-! ## What renaming leaves alone -/

/-- The renaming moves identities of one run only. -/
def Renaming.Within (π : Renaming) (run : Nat) : Prop :=
  ∀ i : Identity, i.run ≠ run → π i = i

/-- Nothing in `a` has an identity of the run. -/
def Fresh {α : Type} [Renamable α] (run : Nat) (a : α) : Prop :=
  ∀ π : Renaming, π.Within run → rename π a = a

/-- The host uses identities of the run only to compare them: what it answers to a renamed call
in a renamed state is the renaming of what it answers to the call in the state. -/
def Host.RespectsRenaming {σ : Type} [Renamable σ] (host : Host σ) (run : Nat) : Prop :=
  ∀ π : Renaming, π.Within run → ∀ (c : Call) (s : σ),
    host.call (rename π c) (rename π s) = rename π (host.call c s)

end ExprSandbox
