import ExprSandbox.Proofs.Coercion
import ExprSandbox.Proofs.Decoding

/-!
# The order of values

Two texts are ordered by their UTF-16 code units.  That is a total order of texts, because no two
of them have the same units (`Utf16.units_injective`).  Any other two values are ordered as
numbers, where what is no number stands in no order at all (`Number.order_eq_none_iff`).  Both
orders are reversed with their operands (`Value.order_swap`), and the four operators only ask
which of the three orders it is (`order_coherent`).
-/

namespace ExprSandbox

/-! ## The order of numbers -/

namespace Number

open Float.Model (UnpackedFloat)

/-- Two signs in the other order. -/
theorem compare_sign_swap (s t : UnpackedFloat.Sign) : compare t s = (compare s t).swap := by
  cases s <;> cases t <;> rfl

/-- Two mantissas with their exponents in the other order. -/
theorem compare_mantissa_swap (m n : Nat) (e f : Int) :
    (compare f e).then (compare n m) = ((compare e f).then (compare m n)).swap := by
  rw [Ordering.swap_then, Std.OrientedOrd.eq_swap (a := f), Std.OrientedOrd.eq_swap (a := n)]

/-- Unpacked floats in the other order. -/
theorem compare_swap (x y : UnpackedFloat) : y.compare x = (x.compare y).map Ordering.swap := by
  cases x with
  | notANumber => cases y <;> rfl
  | infinity s =>
    cases y with
    | infinity t => exact congrArg some (compare_sign_swap s t)
    | _ => cases s <;> rfl
  | zero s =>
    cases y with
    | infinity t => cases t <;> rfl
    | finite t => cases t <;> rfl
    | _ => rfl
  | finite s m e hm =>
    cases y with
    | finite t n f hn =>
      -- Of two negative numbers, the one of the greater magnitude is the smaller.
      cases s <;> cases t
      · exact congrArg (fun o => some o.swap) (compare_mantissa_swap m n e f)
      · rfl
      · rfl
      · exact congrArg some (compare_mantissa_swap m n e f)
    | infinity t => cases s <;> cases t <;> rfl
    | _ => cases s <;> rfl

/-- Numbers in the other order. -/
theorem order_swap (x y : Float) : order y x = (order x y).map Ordering.swap :=
  compare_swap x.toModel.unpack y.toModel.unpack

/-- Only what is no number cannot be compared. -/
theorem compare_eq_none_iff {x y : UnpackedFloat} :
    x.compare y = none ↔ x.isNaN = true ∨ y.isNaN = true := by
  cases x with
  | notANumber => cases y <;> exact iff_of_true rfl (.inl rfl)
  | infinity s =>
    cases y with
    | notANumber => exact iff_of_true rfl (.inr rfl)
    | _ => cases s <;> exact iff_of_false nofun nofun
  | zero s =>
    cases y with
    | notANumber => exact iff_of_true rfl (.inr rfl)
    | zero t => exact iff_of_false nofun nofun
    | _ t => cases t <;> exact iff_of_false nofun nofun
  | finite s =>
    cases y with
    | notANumber => exact iff_of_true rfl (.inr rfl)
    | zero t => cases s <;> exact iff_of_false nofun nofun
    | _ t => cases s <;> cases t <;> exact iff_of_false nofun nofun

/-- **Two numbers have an order**, unless one of them is no number. -/
theorem order_eq_none_iff {x y : Float} :
    order x y = none ↔ x.isNaN = true ∨ y.isNaN = true :=
  compare_eq_none_iff

end Number

/-! ## The order of texts -/

namespace Utf16

/-- The units of a text decode to the text. -/
theorem decode_units (s : String) : decode (units s) = s.toList := by
  unfold units
  induction s.toList with
  | nil => rfl
  | cons c cs ih => rw [List.flatMap_cons, decode_ofChar, ih]

/-- **No two texts have the same units.** -/
theorem units_injective : Function.Injective units := by
  intro s t h
  have hlist : s.toList = t.toList := by rw [← decode_units, h, decode_units]
  exact String.toList_injective hlist

/-- Lists of numbers are compared by the first place at which they differ. -/
theorem compare_eq_lt_iff (us vs : List Nat) : compare us vs = .lt ↔ us < vs := by
  induction us generalizing vs with
  | nil => cases vs <;> simp
  | cons u us ih =>
    cases vs with
    | nil => simp
    | cons v vs =>
      rw [List.compare_cons_cons, Ordering.then_eq_lt, List.cons_lt_cons_iff, Nat.compare_eq_lt,
        Nat.compare_eq_eq, ih]

/-- A text comes before another one where its units do. -/
theorem order_eq_lt_iff {s t : String} : order s t = .lt ↔ units s < units t :=
  compare_eq_lt_iff _ _

/-- Texts in the other order. -/
theorem order_swap (s t : String) : order t s = (order s t).swap :=
  Std.OrientedOrd.eq_swap

/-- Only a text and itself are equal in order. -/
theorem order_eq_eq_iff {s t : String} : order s t = .eq ↔ s = t := by
  rw [order, Std.compare_eq_iff_eq, units_injective.eq_iff]

/-- The order of texts is transitive. -/
theorem order_trans {s t u : String} (hst : (order s t).isLE = true)
    (htu : (order t u).isLE = true) : (order s u).isLE = true :=
  Std.TransOrd.isLE_trans hst htu

end Utf16

/-! ## The order of values -/

namespace Value

variable {a b c : Value} {s t u : String}

/-- Texts after coercion are ordered as texts. -/
theorem order_of_texts (ha : a.toPrimitive = .string s) (hb : b.toPrimitive = .string t) :
    order a b = some (Utf16.order s t) := by
  rw [order, ha, hb]

/-- Whatever is not two texts is ordered as two numbers. -/
theorem order_of_numbers (h : ¬ ∃ s t, a.toPrimitive = .string s ∧ b.toPrimitive = .string t) :
    order a b = Number.order a.toNumber b.toNumber := by
  rw [order]
  split
  · next s t ha hb => exact absurd ⟨s, t, ha, hb⟩ h
  · rw [toNumber_toPrimitive, toNumber_toPrimitive]

/-- **Values in the other order.** -/
theorem order_swap (a b : Value) : order b a = (order a b).map Ordering.swap := by
  by_cases h : ∃ s t, a.toPrimitive = .string s ∧ b.toPrimitive = .string t
  · obtain ⟨s, t, ha, hb⟩ := h
    rw [order_of_texts ha hb, order_of_texts hb ha, Utf16.order_swap s t]
    rfl
  · have hba : ¬ ∃ s t, b.toPrimitive = .string s ∧ a.toPrimitive = .string t :=
      fun ⟨s, t, hb, ha⟩ => h ⟨t, s, ha, hb⟩
    rw [order_of_numbers h, order_of_numbers hba, Number.order_swap]

/-- Two values stand in no order where they are not two texts and one of them is no number. -/
theorem order_eq_none_iff : order a b = none ↔
    (¬ ∃ s t, a.toPrimitive = .string s ∧ b.toPrimitive = .string t) ∧
      (a.toNumber.isNaN = true ∨ b.toNumber.isNaN = true) := by
  by_cases h : ∃ s t, a.toPrimitive = .string s ∧ b.toPrimitive = .string t
  · obtain ⟨s, t, ha, hb⟩ := h
    rw [order_of_texts ha hb]
    exact iff_of_false nofun fun hnone => hnone.1 ⟨s, t, ha, hb⟩
  · rw [order_of_numbers h, Number.order_eq_none_iff]
    exact (and_iff_right h).symm

/-! ## Relational operators -/

/-- An operator on orders holds where the operands stand in one of them. -/
theorem ordered_eq_true_iff {orders : List Ordering} :
    ordered orders a b = .bool true ↔ ∃ o ∈ orders, order a b = some o := by
  rw [ordered, Value.bool.injEq, Option.any_eq_true_iff_get]
  constructor
  · rintro ⟨hsome, hmem⟩
    exact ⟨_, List.contains_iff_mem.mp hmem, (Option.some_get hsome).symm⟩
  · rintro ⟨o, hmem, ho⟩
    rw [ho]
    exact ⟨rfl, List.contains_iff_mem.mpr hmem⟩

/-- An operator on orders with its operands exchanged, and the orders reversed. -/
theorem ordered_swap (orders : List Ordering) (a b : Value) :
    ordered (orders.map Ordering.swap) b a = ordered orders a b := by
  rw [ordered, ordered, order_swap a b]
  cases order a b with
  | none => rfl
  | some o =>
    refine congrArg Value.bool (Bool.eq_iff_iff.mpr ?_)
    show (orders.map Ordering.swap).contains o.swap = true ↔ orders.contains o = true
    have hinjective : Function.Injective Ordering.swap :=
      fun _ _ h => Ordering.swap_inj.mp h
    rw [List.contains_iff_mem, List.contains_iff_mem, List.mem_map_of_injective hinjective]

/-- What the order of two values and the four operators say of each other. -/
structure Coherent (a b : Value) : Prop where
  reversed : order b a = (order a b).map Ordering.swap
  less_reversed : BinaryOp.less.apply a b = BinaryOp.greater.apply b a
  lessEqual_reversed : BinaryOp.lessEqual.apply a b = BinaryOp.greaterEqual.apply b a
  lessEqual_iff : BinaryOp.lessEqual.apply a b = .bool true ↔
    BinaryOp.less.apply a b = .bool true ∨ order a b = some .eq
  not_less_greater : ¬ (BinaryOp.less.apply a b = .bool true ∧
    BinaryOp.greater.apply a b = .bool true)
  not_less_equal : ¬ (BinaryOp.less.apply a b = .bool true ∧ order a b = some .eq)
  not_greater_equal : ¬ (BinaryOp.greater.apply a b = .bool true ∧ order a b = some .eq)
  none_holds : order a b = none →
    ∀ operator ∈ [BinaryOp.less, .greater, .lessEqual, .greaterEqual],
      operator.apply a b = .bool false
  unordered_iff : order a b = none ↔
    (¬ ∃ s t, a.toPrimitive = .string s ∧ b.toPrimitive = .string t) ∧
      (a.toNumber.isNaN = true ∨ b.toNumber.isNaN = true)

/-- The operators agree with each other on all values. -/
theorem coherent (a b : Value) : Coherent a b where
  reversed := order_swap a b
  less_reversed := (ordered_swap [.lt] a b).symm
  lessEqual_reversed := (ordered_swap [.lt, .eq] a b).symm
  lessEqual_iff := by
    show ordered _ a b = _ ↔ ordered _ a b = _ ∨ _
    simp only [ordered_eq_true_iff, List.mem_cons, List.not_mem_nil, or_false]
    simp
  not_less_greater := by
    show ¬ (ordered _ a b = _ ∧ ordered _ a b = _)
    simp only [ordered_eq_true_iff, List.mem_singleton]
    rintro ⟨⟨_, rfl, hlt⟩, _, rfl, hgt⟩
    rw [hlt] at hgt
    cases hgt
  not_less_equal := by
    show ¬ (ordered _ a b = _ ∧ _)
    simp only [ordered_eq_true_iff, List.mem_singleton]
    rintro ⟨⟨_, rfl, hlt⟩, heq⟩
    rw [hlt] at heq
    cases heq
  not_greater_equal := by
    show ¬ (ordered _ a b = _ ∧ _)
    simp only [ordered_eq_true_iff, List.mem_singleton]
    rintro ⟨⟨_, rfl, hgt⟩, heq⟩
    rw [hgt] at heq
    cases heq
  none_holds := by
    intro hnone operator hoperator
    have hfalse : ∀ orders, ordered orders a b = .bool false := by
      intro orders
      rw [ordered, hnone]
      rfl
    simp only [List.mem_cons, List.not_mem_nil, or_false] at hoperator
    rcases hoperator with rfl | rfl | rfl | rfl <;> exact hfalse _
  unordered_iff := order_eq_none_iff

/-- The order of two values whose primitive values are texts is the order of the texts, which is
total and transitive, and equal on one text only. -/
structure OrderedAsTexts (a b : Value) (s t : String) : Prop where
  lt_iff : order a b = some .lt ↔ Utf16.units s < Utf16.units t
  eq_iff : order a b = some .eq ↔ s = t
  gt_iff : order a b = some .gt ↔ Utf16.units t < Utf16.units s
  total : BinaryOp.lessEqual.apply a b = .bool true ∨ BinaryOp.lessEqual.apply b a = .bool true
  trans : ∀ c u, c.toPrimitive = .string u → BinaryOp.lessEqual.apply a b = .bool true →
    BinaryOp.lessEqual.apply b c = .bool true → BinaryOp.lessEqual.apply a c = .bool true

/-- `<=` holds between texts that are not in the opposite order. -/
theorem lessEqual_iff_isLE (ha : a.toPrimitive = .string s) (hb : b.toPrimitive = .string t) :
    BinaryOp.lessEqual.apply a b = .bool true ↔ (Utf16.order s t).isLE = true := by
  show ordered _ a b = _ ↔ _
  rw [ordered_eq_true_iff, order_of_texts ha hb]
  cases Utf16.order s t <;> decide

/-- Texts are ordered by their units. -/
theorem orderedAsTexts (ha : a.toPrimitive = .string s) (hb : b.toPrimitive = .string t) :
    OrderedAsTexts a b s t where
  lt_iff := by
    rw [order_of_texts ha hb, Option.some.injEq, Utf16.order_eq_lt_iff]
  eq_iff := by
    rw [order_of_texts ha hb, Option.some.injEq, Utf16.order_eq_eq_iff]
  gt_iff := by
    rw [order_of_texts ha hb, Option.some.injEq, ← Utf16.order_eq_lt_iff, Utf16.order_swap s t,
      Ordering.swap_eq_lt]
  total := by
    rw [lessEqual_iff_isLE ha hb, lessEqual_iff_isLE hb ha, Utf16.order_swap s t]
    cases Utf16.order s t <;> decide
  trans c u hc hab hbc := by
    rw [lessEqual_iff_isLE ha hb] at hab
    rw [lessEqual_iff_isLE hb hc] at hbc
    rw [lessEqual_iff_isLE ha hc]
    exact Utf16.order_trans hab hbc

end Value

open Value

/-- **The relational operators are coherent.**  Exchanging the operands reverses their order, each
operator holds in the orders that it names and in no other, and none holds where the operands have
no order, which they have unless they are not two texts and one of them is no number.  Two texts
are totally ordered by their UTF-16 code units. -/
theorem order_coherent (a b : Value) : Coherent a b ∧
    ∀ s t, a.toPrimitive = .string s → b.toPrimitive = .string t → OrderedAsTexts a b s t :=
  ⟨coherent a b, fun _ _ => orderedAsTexts⟩

/-- An array whose text is a character of two units, before a text of one unit that stands for a
smaller code point; and what has no order with it. -/
theorem order_coherent_astral :
    let astral : Value := .array ⟨0, 0⟩ [some (.string "😀")]
    astral.toPrimitive = .string "😀" ∧ (string "\uFF5E").toPrimitive = .string "\uFF5E" ∧
      OrderedAsTexts astral (.string "\uFF5E") "😀" "\uFF5E" ∧
      order astral (.string "\uFF5E") = some .lt ∧
      order astral .undefined = none ∧
      BinaryOp.lessEqual.apply astral .undefined = .bool false := by
  intro astral
  have htext : astral.toPrimitive = .string "😀" := rfl
  have hordered := (order_coherent astral (.string "\uFF5E")).2 _ _ htext rfl
  have hlt : Utf16.units "😀" < Utf16.units "\uFF5E" := by decide
  have hunordered : order astral .undefined = none := by decide
  exact ⟨htext, rfl, hordered, hordered.lt_iff.mpr hlt, hunordered,
    (order_coherent astral .undefined).1.none_holds hunordered _ (by decide)⟩

end ExprSandbox
