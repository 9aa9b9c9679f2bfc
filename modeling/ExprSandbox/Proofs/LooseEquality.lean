import Mathlib
import ExprSandbox.Proofs.Coercion

/-!
# Loose equality

`==` is described by rules that are tried in order and that rewrite one side at a time: a boolean
becomes a number, and an array, an object or a function that meets a number or a text becomes a
text (`Decides`).  Every pair of values has a derivation by these rules, and `looseEq` is its
result (`decides_iff`).  The rules are one-sided, but their result is symmetric, extends that of
`===` and equals it on operands of one type (`looseEq_symmetric_extension`).
-/

namespace ExprSandbox

namespace Value

/-! ## Rules -/

/-- Whether the value is a number or a text. -/
def isNumberOrText : Value → Bool
  | .number _ => true
  | .string _ => true
  | _ => false

/-- The rules of `==`, of which the first one that applies decides.  A boolean is replaced by its
number, on the left before the right, and what has an identity by its text where it meets a number
or a text. -/
inductive Decides : Value → Value → Bool → Prop
  | bothMissing {a b : Value} (ha : a.isNullish = true) (hb : b.isNullish = true) :
      Decides a b true
  | leftMissing {a b : Value} (ha : a.isNullish = true) (hb : b.isNullish = false) :
      Decides a b false
  | rightMissing {a b : Value} (ha : a.isNullish = false) (hb : b.isNullish = true) :
      Decides a b false
  | leftBool (x : Bool) {b : Value} {r : Bool} (hb : b.isNullish = false)
      (rest : Decides (.number (toNumber (.bool x))) b r) : Decides (.bool x) b r
  | rightBool {a : Value} (y : Bool) {r : Bool} (ha : a.isNullish = false)
      (hbool : a.asBool? = none) (rest : Decides a (.number (toNumber (.bool y))) r) :
      Decides a (.bool y) r
  | numberText (x : Float) (t : String) :
      Decides (.number x) (.string t) (x == toNumber (.string t))
  | textNumber (s : String) (y : Float) :
      Decides (.string s) (.number y) (toNumber (.string s) == y)
  | leftReference {a b : Value} {r : Bool} (ha : a.isReference = true)
      (hb : b.isNumberOrText = true) (rest : Decides a.toPrimitive b r) : Decides a b r
  | rightReference {a b : Value} {r : Bool} (ha : a.isNumberOrText = true)
      (hb : b.isReference = true) (rest : Decides a b.toPrimitive r) : Decides a b r
  | numbers (x y : Float) : Decides (.number x) (.number y) (strictEq (.number x) (.number y))
  | texts (s t : String) : Decides (.string s) (.string t) (strictEq (.string s) (.string t))
  | references {a b : Value} (ha : a.isReference = true) (hb : b.isReference = true) :
      Decides a b (strictEq a b)

variable {a b : Value} {r : Bool}

/-! ## One equation for each rule -/

/-- Where a side is missing, both have to be. -/
theorem looseEq_of_isNullish (h : a.isNullish = true ∨ b.isNullish = true) :
    looseEq a b = (a.isNullish && b.isNullish) := by
  rw [looseEq, if_pos (Bool.or_eq_true_iff.mpr h)]

/-- A boolean on the left is its number. -/
theorem looseEq_bool_left (x : Bool) (b : Value) :
    looseEq (.bool x) b = looseEq (.number (toNumber (.bool x))) b := rfl

/-- A boolean on the right is its number. -/
theorem looseEq_bool_right (a : Value) (y : Bool) :
    looseEq a (.bool y) = looseEq a (.number (toNumber (.bool y))) := rfl

/-- What meets a number or a text on the right is its primitive value. -/
theorem looseEq_toPrimitive_left (ha : a.isReference = true) (hb : b.isNumberOrText = true) :
    looseEq a b = looseEq a.toPrimitive b := by
  rw [toPrimitive_of_isReference ha]
  cases b with
  | number y =>
    cases a with
    | array => rfl
    | object => rfl
    | function => rfl
    | _ => cases ha
  | string t =>
    cases a with
    | array => rfl
    | object => rfl
    | function => rfl
    | _ => cases ha
  | _ => cases hb

/-- What meets a number or a text on the left is its primitive value. -/
theorem looseEq_toPrimitive_right (ha : a.isNumberOrText = true) (hb : b.isReference = true) :
    looseEq a b = looseEq a b.toPrimitive := by
  rw [toPrimitive_of_isReference hb]
  cases a with
  | number x =>
    cases b with
    | array => rfl
    | object => rfl
    | function => rfl
    | _ => cases hb
  | string s =>
    cases b with
    | array => rfl
    | object => rfl
    | function => rfl
    | _ => cases hb
  | _ => cases ha

/-- Two arrays, objects or functions are compared by identity. -/
theorem looseEq_of_isReference (ha : a.isReference = true) (hb : b.isReference = true) :
    looseEq a b = strictEq a b := by
  cases a with
  | array => cases b <;> first | rfl | cases hb
  | object => cases b <;> first | rfl | cases hb
  | function => cases b <;> first | rfl | cases hb
  | _ => cases ha

/-! ## The rules and the result -/

/-- A derivation gives the result. -/
theorem Decides.looseEq_eq (h : Decides a b r) : looseEq a b = r := by
  induction h with
  | bothMissing ha hb => rw [looseEq_of_isNullish (.inl ha), ha, hb]; rfl
  | leftMissing ha hb => rw [looseEq_of_isNullish (.inl ha), ha, hb]; rfl
  | rightMissing ha hb => rw [looseEq_of_isNullish (.inr hb), ha, hb]; rfl
  | leftBool x hb rest ih => rw [looseEq_bool_left, ih]
  | rightBool y ha hbool rest ih => rw [looseEq_bool_right, ih]
  | numberText x t => rfl
  | textNumber s y => rfl
  | leftReference ha hb rest ih => rw [looseEq_toPrimitive_left ha hb, ih]
  | rightReference ha hb rest ih => rw [looseEq_toPrimitive_right ha hb, ih]
  | numbers x y => rfl
  | texts s t => rfl
  | references ha hb => exact looseEq_of_isReference ha hb

/-- Numbers and texts are decided at once. -/
theorem decides_of_isNumberOrText (ha : a.isNumberOrText = true) (hb : b.isNumberOrText = true) :
    Decides a b (looseEq a b) := by
  cases a with
  | number x =>
    cases b with
    | number y => exact .numbers x y
    | string t => exact .numberText x t
    | _ => cases hb
  | string s =>
    cases b with
    | number y => exact .textNumber s y
    | string t => exact .texts s t
    | _ => cases hb
  | _ => cases ha

/-- A value that is there and no boolean is a number or a text, or has an identity. -/
theorem isNumberOrText_or_isReference (h : a.isNullish = false) (hbool : a.asBool? = none) :
    a.isNumberOrText = true ∨ a.isReference = true := by
  cases a with
  | undefined => cases h
  | null => cases h
  | bool x => cases hbool
  | number x => exact .inl rfl
  | string s => exact .inl rfl
  | array id slots => exact .inr rfl
  | object id entries => exact .inr rfl
  | function f => exact .inr rfl

/-- The primitive value of what has an identity is a text. -/
theorem isNumberOrText_toPrimitive (h : a.isReference = true) :
    a.toPrimitive.isNumberOrText = true := by
  rw [toPrimitive_of_isReference h]
  rfl

/-- Values that are there and no booleans are decided in one step or two. -/
theorem decides_of_no_bool (ha : a.isNullish = false) (ha' : a.asBool? = none)
    (hb : b.isNullish = false) (hb' : b.asBool? = none) : Decides a b (looseEq a b) := by
  rcases isNumberOrText_or_isReference ha ha' with ha | ha <;>
    rcases isNumberOrText_or_isReference hb hb' with hb | hb
  · exact decides_of_isNumberOrText ha hb
  · rw [looseEq_toPrimitive_right ha hb]
    exact .rightReference ha hb (decides_of_isNumberOrText ha (isNumberOrText_toPrimitive hb))
  · rw [looseEq_toPrimitive_left ha hb]
    exact .leftReference ha hb (decides_of_isNumberOrText (isNumberOrText_toPrimitive ha) hb)
  · rw [looseEq_of_isReference ha hb]
    exact .references ha hb

/-- A boolean on the right takes one more step. -/
theorem decides_of_no_left_bool (ha : a.isNullish = false) (ha' : a.asBool? = none)
    (hb : b.isNullish = false) : Decides a b (looseEq a b) := by
  cases hbool : b.asBool? with
  | none => exact decides_of_no_bool ha ha' hb hbool
  | some y =>
    obtain rfl : b = .bool y := by
      cases b with
      | bool z => exact congrArg Value.bool (Option.some.inj hbool)
      | _ => cases hbool
    exact .rightBool y ha ha' (decides_of_no_bool ha ha' rfl rfl)

/-- **Every pair of values is decided**, by a derivation that ends. -/
theorem decides (a b : Value) : Decides a b (looseEq a b) := by
  cases ha : a.isNullish with
  | true =>
    rw [looseEq_of_isNullish (.inl ha), ha]
    cases hb : b.isNullish with
    | true => exact .bothMissing ha hb
    | false => exact .leftMissing ha hb
  | false =>
    cases hb : b.isNullish with
    | true =>
      rw [looseEq_of_isNullish (.inr hb), ha, hb]
      exact .rightMissing ha hb
    | false =>
      cases hbool : a.asBool? with
      | none => exact decides_of_no_left_bool ha hbool hb
      | some x =>
        obtain rfl : a = .bool x := by
          cases a with
          | bool z => exact congrArg Value.bool (Option.some.inj hbool)
          | _ => cases hbool
        exact .leftBool x hb (decides_of_no_left_bool rfl rfl hb)

/-- **The rules decide what `looseEq` computes**, and nothing else. -/
theorem decides_iff : Decides a b r ↔ looseEq a b = r :=
  ⟨Decides.looseEq_eq, fun h => h ▸ decides a b⟩

/-! ## Symmetry -/

/-- `===` is symmetric. -/
theorem strictEq_comm (a b : Value) : strictEq a b = strictEq b a := by
  cases a with
  | bool x =>
    cases b with
    | bool y => exact BEq.comm
    | _ => rfl
  | number x =>
    cases b with
    | number y => exact BEq.comm
    | _ => rfl
  | string s =>
    cases b with
    | string t => exact BEq.comm
    | _ => rfl
  | array id slots =>
    cases b with
    | array => exact decide_eq_decide.mpr eq_comm
    | _ => rfl
  | object id entries =>
    cases b with
    | object => exact decide_eq_decide.mpr eq_comm
    | _ => rfl
  | function f =>
    cases b with
    | function => exact decide_eq_decide.mpr eq_comm
    | _ => rfl
  | _ => cases b <;> rfl

/-- Every rule has its mirror image. -/
theorem Decides.symm (h : Decides a b r) : Decides b a r := by
  induction h with
  | bothMissing ha hb => exact .bothMissing hb ha
  | leftMissing ha hb => exact .rightMissing hb ha
  | rightMissing ha hb => exact .leftMissing hb ha
  -- Of two booleans it is the left one that is replaced first, so the result is compared instead.
  | leftBool x hb rest ih => exact decides_iff.mpr ih.looseEq_eq
  | rightBool y ha hbool rest ih => exact .leftBool y ha ih
  | numberText x t =>
    rw [BEq.comm]
    exact .textNumber t x
  | textNumber s y =>
    rw [BEq.comm]
    exact .numberText y s
  | leftReference ha hb rest ih => exact .rightReference hb ha ih
  | rightReference ha hb rest ih => exact .leftReference hb ha ih
  | numbers x y =>
    rw [strictEq_comm]
    exact .numbers y x
  | texts s t =>
    rw [strictEq_comm]
    exact .texts t s
  | references ha hb =>
    rw [strictEq_comm]
    exact .references hb ha

/-- **`==` is symmetric.** -/
theorem looseEq_comm (a b : Value) : looseEq a b = looseEq b a :=
  (decides b a).symm.looseEq_eq

/-! ## Operands of one type -/

/-- Two values have one type: each is an array, an object or a function, or both are primitive
values of the same type. -/
def SameType (a b : Value) : Prop :=
  (a.isReference = true ∧ b.isReference = true) ∨
    (a.isReference = false ∧ b.isReference = false ∧ a.typeName = b.typeName)

/-- Two booleans have one number only if they are equal. -/
theorem looseEq_bools (x y : Bool) : looseEq (.bool x) (.bool y) = (x == y) := by
  cases x <;> cases y <;> decide

/-- **On operands of one type `==` is `===`.** -/
theorem looseEq_of_sameType (h : SameType a b) : looseEq a b = strictEq a b := by
  rcases h with ⟨ha, hb⟩ | ⟨ha, hb, htype⟩
  · exact looseEq_of_isReference ha hb
  · cases a with
    | bool x =>
      cases b with
      | bool y => exact looseEq_bools x y
      | _ => simp [typeName] at htype
    | array => cases ha
    | object => cases ha
    | function => cases ha
    -- Only pairs of one type are left, and of these `null` and an array, which are not equal.
    | _ => cases b <;> simp [typeName] at htype <;> rfl

/-- Values that are strictly equal have one type. -/
theorem sameType_of_strictEq (h : strictEq a b = true) : SameType a b := by
  cases a with
  | array => cases b <;> first | exact .inl ⟨rfl, rfl⟩ | cases h
  | object => cases b <;> first | exact .inl ⟨rfl, rfl⟩ | cases h
  | function => cases b <;> first | exact .inl ⟨rfl, rfl⟩ | cases h
  | _ => cases b <;> first | exact .inr ⟨rfl, rfl, rfl⟩ | cases h

end Value

open Value

/-- **Loose equality is symmetric and extends strict equality.**  Its rules end on every pair of
values with one result, which does not depend on the order of the operands.  Values that are
strictly equal are loosely equal, on operands of one type the two are the same, and an array, an
object or a function equals a number or a text exactly where its text does. -/
theorem looseEq_symmetric_extension (a b : Value) :
    (∀ r, Decides a b r ↔ looseEq a b = r) ∧
    looseEq a b = looseEq b a ∧
    (strictEq a b = true → looseEq a b = true) ∧
    (SameType a b → looseEq a b = strictEq a b) ∧
    (a.isReference = true → (∃ x, b = .number x) ∨ (∃ s, b = .string s) →
      looseEq a b = looseEq (.string a.text) b) := by
  refine ⟨fun r => decides_iff, looseEq_comm a b, ?_, looseEq_of_sameType, ?_⟩
  · intro h
    rw [looseEq_of_sameType (sameType_of_strictEq h), h]
  · intro ha hb
    have hplain : b.isNumberOrText = true := by
      rcases hb with ⟨x, rfl⟩ | ⟨s, rfl⟩ <;> rfl
    rw [looseEq_toPrimitive_left ha hplain, toPrimitive_of_isReference ha]

/-- A nested array that meets a number, and one array that meets itself. -/
theorem looseEq_symmetric_extension_array :
    let inner : Value := .array ⟨0, 0⟩ [some (.bool true), none]
    let outer : Value := .array ⟨0, 1⟩ [some inner]
    (outer.isReference = true ∧ Value.text outer = "true," ∧
      looseEq outer (.number Number.zero) = looseEq (.string "true,") (.number Number.zero)) ∧
    strictEq outer outer = true ∧ looseEq outer outer = true ∧
    SameType inner outer ∧ looseEq inner outer = strictEq inner outer := by
  intro inner outer
  have htext : Value.text outer = "true," := by decide
  have hsame : strictEq outer outer = true := by decide
  have htype : SameType inner outer := .inl ⟨rfl, rfl⟩
  have hnumber := (looseEq_symmetric_extension outer (.number Number.zero)).2.2.2.2 rfl
    (.inl ⟨_, rfl⟩)
  rw [htext] at hnumber
  exact ⟨⟨rfl, htext, hnumber⟩, hsame,
    (looseEq_symmetric_extension outer outer).2.2.1 hsame, htype,
    (looseEq_symmetric_extension inner outer).2.2.2.1 htype⟩

end ExprSandbox
