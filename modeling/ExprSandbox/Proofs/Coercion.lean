import ExprSandbox.Value.Operation

/-!
# What operators see of their operands

Operators look at an operand in three ways only: at its primitive value, at whether it is an
array, an object or a function at all, and, for `===` and `==` between two of these, at its
identity.  So two pairs of operands that cannot be told apart in these three ways have the same
result under every operator, whatever else their arrays and objects hold.
-/

namespace ExprSandbox

namespace Value

/-! ## Values that coerce alike -/

/-- Two values with the same primitive value, of which both or neither have an identity. -/
structure CoercesLike (v v' : Value) : Prop where
  primitive : v.toPrimitive = v'.toPrimitive
  reference : v.isReference = v'.isReference

/-- A value without identity is its own primitive value. -/
theorem toPrimitive_of_not_isReference {v : Value} (h : v.isReference = false) :
    v.toPrimitive = v := by
  rw [toPrimitive, h]
  rfl

/-- The primitive value of an array, an object or a function is its text. -/
theorem toPrimitive_of_isReference {v : Value} (h : v.isReference = true) :
    v.toPrimitive = .string v.text := by
  rw [toPrimitive, h]
  rfl

/-- A value has the text of its primitive value. -/
theorem text_toPrimitive (v : Value) : v.toPrimitive.text = v.text := by
  cases h : v.isReference with
  | true =>
    rw [toPrimitive_of_isReference h]
    rfl
  | false => rw [toPrimitive_of_not_isReference h]

/-- A value has the number of its primitive value. -/
theorem toNumber_toPrimitive (v : Value) : v.toPrimitive.toNumber = v.toNumber := by
  cases v <;> rfl

/-- What has an identity is true, and any other value is as true as its primitive value. -/
theorem isTruthy_eq (v : Value) : v.isTruthy = (v.isReference || v.toPrimitive.isTruthy) := by
  cases v <;> rfl

/-- What has no members has none as a primitive value, and is no array, object or function. -/
theorem isNullish_eq (v : Value) : v.isNullish = (!v.isReference && v.toPrimitive.isNullish) := by
  cases v <;> rfl

namespace CoercesLike

variable {a a' b b' v v' : Value}

/-- Every value coerces like itself. -/
theorem refl (v : Value) : CoercesLike v v := ⟨rfl, rfl⟩

/-- Without an identity, coercing alike is being equal. -/
theorem eq_of_not_isReference (h : CoercesLike v v') (hv : v.isReference = false) : v = v' := by
  have hv' : v'.isReference = false := h.reference ▸ hv
  rw [← toPrimitive_of_not_isReference hv, h.primitive, toPrimitive_of_not_isReference hv']

/-- Values that are coerced alike have the same text. -/
theorem text (h : CoercesLike v v') : v.text = v'.text := by
  rw [← text_toPrimitive v, h.primitive, text_toPrimitive]

/-- Values that are coerced alike are the same number. -/
theorem toNumber (h : CoercesLike v v') : v.toNumber = v'.toNumber := by
  rw [← toNumber_toPrimitive v, h.primitive, toNumber_toPrimitive]

/-- Values that are coerced alike are both truthy or both falsy. -/
theorem isTruthy (h : CoercesLike v v') : v.isTruthy = v'.isTruthy := by
  rw [isTruthy_eq v, h.primitive, h.reference, ← isTruthy_eq]

/-- Values that are coerced alike are both nullish or neither is. -/
theorem isNullish (h : CoercesLike v v') : v.isNullish = v'.isNullish := by
  rw [isNullish_eq v, h.primitive, h.reference, ← isNullish_eq]

/-- Booleans taken as numbers, values that coerce alike still do. -/
theorem unboxBool (h : CoercesLike v v') : CoercesLike v.unboxBool v'.unboxBool := by
  cases hv : v.isReference with
  | false =>
    rw [h.eq_of_not_isReference hv]
    exact .refl _
  | true =>
    have hv' : v'.isReference = true := h.reference ▸ hv
    have unbox_eq : ∀ u : Value, u.isReference = true → u.unboxBool = u := by
      intro u hu
      cases u <;> first | rfl | cases hu
    rw [unbox_eq v hv, unbox_eq v' hv']
    exact h

/-! ## Operators on values that coerce alike -/

/-- `+` sees primitive values only. -/
theorem add (ha : CoercesLike a a') (hb : CoercesLike b b') : a.add b = a'.add b' := by
  rw [Value.add, Value.add, ha.primitive, hb.primitive]

/-- Arithmetic sees numbers only. -/
theorem arith (f : Float → Float → Float) (ha : CoercesLike a a') (hb : CoercesLike b b') :
    Value.arith f a b = Value.arith f a' b' := by
  rw [Value.arith, Value.arith, ha.toNumber, hb.toNumber]

/-- Comparisons see primitive values only. -/
theorem ordered (orders : List Ordering) (ha : CoercesLike a a') (hb : CoercesLike b b') :
    Value.ordered orders a b = Value.ordered orders a' b' := by
  rw [Value.ordered, Value.ordered, order, order, ha.primitive, hb.primitive]

/-- `==` between values that are not missing sees primitive values, and `===` between two values
with identities. -/
theorem looseEqPlain (ha : CoercesLike a a') (hb : CoercesLike b b')
    (heq : a.isReference = true → b.isReference = true → a.strictEq b = a'.strictEq b') :
    a.looseEqPlain b = a'.looseEqPlain b' := by
  unfold Value.looseEqPlain
  rw [← ha.reference, ← hb.reference, ha.text, hb.text]
  cases hra : a.isReference with
  | true =>
    cases hrb : b.isReference with
    | true => exact heq hra hrb
    | false => rw [hb.eq_of_not_isReference hrb]
  | false =>
    rw [ha.eq_of_not_isReference hra]
    cases hrb : b.isReference with
    | true => rfl
    | false => rw [hb.eq_of_not_isReference hrb]

/-- A boolean taken as a number changes nothing between two values with identities. -/
theorem strictEq_unboxBool (a b : Value) (ha : a.unboxBool.isReference = true)
    (hb : b.unboxBool.isReference = true) :
    a.unboxBool.strictEq b.unboxBool = a.strictEq b := by
  cases a <;> cases b <;> first | rfl | cases ha

/-- `==` sees what coercion and `===` see. -/
theorem looseEq (ha : CoercesLike a a') (hb : CoercesLike b b')
    (heq : a.strictEq b = a'.strictEq b') : a.looseEq b = a'.looseEq b' := by
  unfold Value.looseEq
  rw [ha.isNullish, hb.isNullish]
  rw [ha.unboxBool.looseEqPlain hb.unboxBool]
  intro hra hrb
  have hra' : a'.unboxBool.isReference = true := ha.unboxBool.reference ▸ hra
  have hrb' : b'.unboxBool.isReference = true := hb.unboxBool.reference ▸ hrb
  rw [strictEq_unboxBool a b hra hrb, heq, strictEq_unboxBool a' b' hra' hrb']

end CoercesLike

end Value

open Value in
/-- A unary operator has one result for values that coerce alike. -/
theorem UnaryOp.apply_eq_of_coercesLike (operator : UnaryOp) {v v' : Value}
    (h : CoercesLike v v') : operator.apply v = operator.apply v' := by
  cases operator with
  | plus => rw [UnaryOp.apply, UnaryOp.apply, h.toNumber]
  | minus => rw [UnaryOp.apply, UnaryOp.apply, h.toNumber]
  | not => rw [UnaryOp.apply, UnaryOp.apply, h.isTruthy]

open Value in
/-- **A binary operator has one result for operands that coerce alike**, provided that `===` has:
only `===` and `==` look at identities. -/
theorem BinaryOp.apply_eq_of_coercesLike (operator : BinaryOp) {a a' b b' : Value}
    (ha : CoercesLike a a') (hb : CoercesLike b b') (heq : a.strictEq b = a'.strictEq b') :
    operator.apply a b = operator.apply a' b' := by
  cases operator with
  | add => exact ha.add hb
  | sub => exact ha.arith _ hb
  | mul => exact ha.arith _ hb
  | div => exact ha.arith _ hb
  | rem => exact ha.arith _ hb
  | less => exact ha.ordered _ hb
  | greater => exact ha.ordered _ hb
  | lessEqual => exact ha.ordered _ hb
  | greaterEqual => exact ha.ordered _ hb
  | equal => exact congrArg Value.bool (ha.looseEq hb heq)
  | notEqual => exact congrArg (fun r => Value.bool !r) (ha.looseEq hb heq)
  | strictEqual => exact congrArg Value.bool heq
  | strictNotEqual => exact congrArg (fun r => Value.bool !r) heq

/-! ## Results of operators -/

namespace Value

/-- A sum is a text or a number. -/
theorem isReference_add (a b : Value) : (a.add b).isReference = false := by
  unfold add
  split <;> rfl

end Value

/-- A unary operator gives no array, object or function. -/
theorem UnaryOp.isReference_apply (operator : UnaryOp) (v : Value) :
    (operator.apply v).isReference = false := by
  cases operator <;> rfl

/-- A binary operator gives no array, object or function. -/
theorem BinaryOp.isReference_apply (operator : BinaryOp) (a b : Value) :
    (operator.apply a b).isReference = false := by
  cases operator with
  | add => exact Value.isReference_add a b
  | _ => rfl

end ExprSandbox
