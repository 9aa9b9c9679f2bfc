import ExprSandbox.Options
import ExprSandbox.Proofs.Coercion
import ExprSandbox.Value.Member

/-!
# Values that differ under denied names only

Two values are alike for a deny-list when they are equal except for what objects, anywhere inside
of them, hold under denied names.  No operator can tell them apart, since a coercion looks into
arrays but never into objects (`Alike.coercesLike`), and a read under any other name gives alike
values again (`Alike.get`).
-/

namespace ExprSandbox

namespace Value

/-! ## The relation -/

section Relation

variable (denied : DenyList)

mutual
/-- The values are equal but for what objects hold under denied names. -/
inductive Alike : Value → Value → Prop
  | primitive {v : Value} (h : v.isReference = false) : Alike v v
  | array (id : Identity) {slots slots' : List (Option Value)} (items : SlotsAlike slots slots') :
      Alike (.array id slots) (.array id slots')
  | object (id : Identity) {entries entries' : List (String × Value)}
      (members : ∀ key, denied.denies key = false →
        MaybeAlike (entries.lookup key) (entries'.lookup key)) :
      Alike (.object id entries) (.object id entries')
  | function (f : Function) : Alike (.function f) (.function f)

/-- Both are missing, or both are there and alike. -/
inductive MaybeAlike : Option Value → Option Value → Prop
  | none : MaybeAlike none none
  | some {v v' : Value} (value : Alike v v') : MaybeAlike (some v) (some v')

/-- The slots are alike one by one, holes with holes. -/
inductive SlotsAlike : List (Option Value) → List (Option Value) → Prop
  | nil : SlotsAlike [] []
  | cons {slot slot' : Option Value} {rest rest' : List (Option Value)}
      (head : MaybeAlike slot slot') (tail : SlotsAlike rest rest') :
      SlotsAlike (slot :: rest) (slot' :: rest')
end

end Relation

variable {denied : DenyList} {a a' b b' v v' : Value}

mutual
/-- Every value is alike to itself. -/
theorem Alike.refl (v : Value) : Alike denied v v := by
  match v with
  | .undefined => exact .primitive rfl
  | .null => exact .primitive rfl
  | .bool _ => exact .primitive rfl
  | .number _ => exact .primitive rfl
  | .string _ => exact .primitive rfl
  | .array id slots => exact .array id (SlotsAlike.refl slots)
  | .object id entries => exact .object id fun key _ => MaybeAlike.lookup_refl entries key
  | .function f => exact .function f

/-- Slots are alike to themselves. -/
theorem SlotsAlike.refl (slots : List (Option Value)) : SlotsAlike denied slots slots := by
  match slots with
  | [] => exact .nil
  | none :: rest => exact .cons .none (SlotsAlike.refl rest)
  | some v :: rest => exact .cons (.some (Alike.refl v)) (SlotsAlike.refl rest)

/-- What entries hold is alike to itself. -/
theorem MaybeAlike.lookup_refl (entries : List (String × Value)) (key : String) :
    MaybeAlike denied (entries.lookup key) (entries.lookup key) := by
  match entries with
  | [] => exact .none
  | (k, v) :: rest =>
    rw [List.lookup_cons]
    split
    · exact .some (Alike.refl v)
    · exact MaybeAlike.lookup_refl rest key
end

/-! ## Coercion -/

/-- Alike values are both missing or both there. -/
theorem Alike.isNullish_eq (h : Alike denied v v') : v.isNullish = v'.isNullish := by
  cases h <;> rfl

mutual
/-- Alike values have the same text. -/
theorem Alike.text_eq (v : Value) {v' : Value} (h : Alike denied v v') : v.text = v'.text := by
  match v with
  | .array id slots =>
    cases h with
    | primitive _ => rfl
    | array _ items =>
      rw [text, text]
      exact SlotsAlike.text_eq slots items
  | .undefined | .null | .bool _ | .number _ | .string _ | .object _ _ | .function _ =>
    cases h <;> rfl

/-- Alike slots have the same text. -/
theorem SlotsAlike.text_eq (slots : List (Option Value)) {slots' : List (Option Value)}
    (h : SlotsAlike denied slots slots') : slotsText slots = slotsText slots' := by
  match slots with
  | [] =>
    cases h
    rfl
  | none :: rest =>
    obtain _ | ⟨⟨⟩, tail⟩ := h
    have ih := SlotsAlike.text_eq rest tail
    cases tail with
    | nil => rfl
    | cons _ _ => exact congrArg ("," ++ ·) ih
  | some v :: rest =>
    obtain _ | ⟨_ | ⟨value⟩, tail⟩ := h
    have ih := SlotsAlike.text_eq rest tail
    have hv := Alike.text_eq v value
    cases tail with
    | nil => rw [slotsText, slotsText, value.isNullish_eq, hv]
    | cons _ _ =>
      rw [slotsText, slotsText, ih, value.isNullish_eq, hv]
      · exact nofun
      · exact nofun
end

/-- Alike values are arrays, objects or functions together. -/
theorem Alike.isReference_eq (h : Alike denied v v') : v.isReference = v'.isReference := by
  cases h <;> rfl

/-- Without an identity, being alike is being equal. -/
theorem Alike.eq_of_not_isReference (h : Alike denied v v') (hv : v.isReference = false) :
    v' = v := by
  cases h with
  | primitive _ => rfl
  | _ => cases hv

/-- Of alike values one is a function if the other is, and the same one. -/
theorem Alike.eq_function_iff (h : Alike denied v v') (f : Function) :
    v = .function f ↔ v' = .function f := by
  cases h with
  | primitive _ => exact Iff.rfl
  | function g => exact Iff.rfl
  | array id items => exact ⟨nofun, nofun⟩
  | object id members => exact ⟨nofun, nofun⟩

/-- **Alike values coerce alike.** -/
theorem Alike.coercesLike (h : Alike denied v v') : CoercesLike v v' where
  primitive := by
    rw [toPrimitive, toPrimitive, ← h.isReference_eq, Alike.text_eq v h]
    cases hv : v.isReference with
    | true => rfl
    | false => exact (h.eq_of_not_isReference hv).symm
  reference := h.isReference_eq

/-- Alike values have the same identity, so `===` sees no difference. -/
theorem Alike.strictEq_eq (ha : Alike denied a a') (hb : Alike denied b b') :
    a.strictEq b = a'.strictEq b' := by
  cases ha with
  | primitive ha =>
    cases hb with
    | primitive _ => rfl
    | _ => cases a <;> rfl
  | array id items =>
    cases hb with
    | primitive hb => cases b <;> rfl
    | _ => rfl
  | object id members =>
    cases hb with
    | primitive hb => cases b <;> rfl
    | _ => rfl
  | function f =>
    cases hb with
    | primitive hb => cases b <;> rfl
    | _ => rfl

/-! ## Members -/

/-- Alike slots are equally many. -/
theorem SlotsAlike.length_eq {slots slots' : List (Option Value)}
    (h : SlotsAlike denied slots slots') : slots.length = slots'.length := by
  induction slots generalizing slots' with
  | nil =>
    cases h
    rfl
  | cons slot rest ih =>
    obtain _ | ⟨_, tail⟩ := h
    rw [List.length_cons, List.length_cons, ih tail]

/-- What stands at an index of alike slots is alike; a hole counts as missing. -/
theorem SlotsAlike.getElem? {slots slots' : List (Option Value)}
    (h : SlotsAlike denied slots slots') (i : Nat) :
    MaybeAlike denied (slots[i]?.bind id) (slots'[i]?.bind id) := by
  induction slots generalizing slots' i with
  | nil =>
    cases h
    exact .none
  | cons slot rest ih =>
    obtain _ | ⟨head, tail⟩ := h
    cases i with
    | zero => exact head
    | succ i => exact ih tail i

/-- Values that may be missing are alike with `undefined` in place of a missing one. -/
theorem MaybeAlike.getD {o o' : Option Value} (h : MaybeAlike denied o o') :
    Alike denied (o.getD .undefined) (o'.getD .undefined) := by
  cases h with
  | none => exact .primitive rfl
  | some value => exact value

/-- **Reading under a name that is not denied** gives alike values. -/
theorem Alike.get (h : Alike denied v v') {name : String} (hname : denied.denies name = false) :
    Alike denied (v.get name) (v'.get name) := by
  cases h with
  | primitive _ => exact .refl _
  | function f => exact .refl _
  | object id members => exact (members name hname).getD
  | array id items =>
    rw [Value.get, Value.get, ← items.length_eq]
    split
    · exact .primitive rfl
    · cases index? name with
      | none => exact .primitive rfl
      | some i => exact (items.getElem? i).getD

/-! ## Objects that are made -/

/-- Entries under the same keys, with alike values. -/
inductive EntriesAlike (denied : DenyList) :
    List (String × Value) → List (String × Value) → Prop
  | nil : EntriesAlike denied [] []
  | cons (key : String) {v v' : Value} {rest rest' : List (String × Value)}
      (value : Alike denied v v') (tail : EntriesAlike denied rest rest') :
      EntriesAlike denied ((key, v) :: rest) ((key, v') :: rest')

/-- Putting alike values under one key keeps entries alike. -/
theorem EntriesAlike.put {entries entries' : List (String × Value)}
    (h : EntriesAlike denied entries entries') (key : String) (hv : Alike denied v v') :
    EntriesAlike denied (Entries.put key v entries) (Entries.put key v' entries') := by
  induction h with
  | nil => exact .cons key hv .nil
  | cons k value tail ih =>
    rw [Entries.put, Entries.put]
    split
    · exact .cons k hv tail
    · exact .cons k value ih

/-- Putting alike pairs in order gives alike entries. -/
theorem EntriesAlike.ofList {pairs pairs' : List (String × Value)}
    (h : EntriesAlike denied pairs pairs') :
    EntriesAlike denied (Entries.ofList pairs) (Entries.ofList pairs') := by
  have hfoldl : ∀ {entries entries' : List (String × Value)},
      EntriesAlike denied entries entries' → EntriesAlike denied
        (pairs.foldl (fun es pair => Entries.put pair.1 pair.2 es) entries)
        (pairs'.foldl (fun es pair => Entries.put pair.1 pair.2 es) entries') := by
    induction h with
    | nil => exact fun h => h
    | cons key value tail ih => exact fun h => ih (h.put key value)
  exact hfoldl .nil

/-- What alike entries hold is alike. -/
theorem EntriesAlike.lookup {entries entries' : List (String × Value)}
    (h : EntriesAlike denied entries entries') (key : String) :
    MaybeAlike denied (entries.lookup key) (entries'.lookup key) := by
  induction h with
  | nil => exact .none
  | cons k value tail ih =>
    rw [List.lookup_cons, List.lookup_cons]
    split
    · exact .some value
    · exact ih

/-- Objects that are made of alike pairs are alike. -/
theorem Alike.ofEntries (id : Identity) {pairs pairs' : List (String × Value)}
    (h : EntriesAlike denied pairs pairs') :
    Alike denied (Value.ofEntries id pairs) (Value.ofEntries id pairs') :=
  .object id fun key _ => h.ofList.lookup key

end Value

/-! ## Operators -/

/-- A unary operator has one result for alike operands. -/
theorem UnaryOp.apply_eq_of_alike {denied : DenyList} (operator : UnaryOp) {v v' : Value}
    (h : v.Alike denied v') : operator.apply v = operator.apply v' :=
  operator.apply_eq_of_coercesLike h.coercesLike

/-- **A binary operator has one result for alike operands.** -/
theorem BinaryOp.apply_eq_of_alike {denied : DenyList} (operator : BinaryOp) {a a' b b' : Value}
    (ha : a.Alike denied a') (hb : b.Alike denied b') :
    operator.apply a b = operator.apply a' b' :=
  operator.apply_eq_of_coercesLike ha.coercesLike hb.coercesLike (ha.strictEq_eq hb)

end ExprSandbox
