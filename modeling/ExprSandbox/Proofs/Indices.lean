import ExprSandbox.Proofs.NumberText
import ExprSandbox.Value.Member

/-!
# Slots under numbers

A key spells an index where it is the decimal digits of the index (`index?_eq_some_iff`).  The text
of a number is such a key for exactly the whole numbers, up to the greatest one below which every
integer is a float (`text_eq_repr_iff`).  So a number reads the slot that it is the index of, and
any other number reads nothing (`get_array`).
-/

namespace ExprSandbox

open Lexer

namespace Numeral

/-! ## Digits of numbers -/

/-- The last of some digits. -/
theorem natOfDigits_concat (cs : List Char) (c : Char) :
    natOfDigits (cs ++ [c]) = 10 * natOfDigits cs + (c.toNat - '0'.toNat) := by
  rw [natOfDigits, List.foldl_append, List.foldl_cons, List.foldl_nil, ← natOfDigits]

/-- A digit is the one of its own value. -/
theorem digitChar_of_isDigit {c : Char} (h : isDigit c = true) :
    c.toNat - '0'.toNat < 10 ∧ (c.toNat - '0'.toNat).digitChar = c := by
  have hrange := isDigit_iff.mp h
  have hzero : '0'.toNat = 48 := rfl
  have hlt : c.toNat - '0'.toNat < 10 := by omega
  refine ⟨hlt, Char.toNat_inj.mp ?_⟩
  rw [Nat.toNat_digitChar_of_lt_ten hlt]
  omega

/-- Digits that do not begin with a zero are the digits of the number that they spell. -/
theorem toDigits_natOfDigits {cs : List Char} (hdigits : ∀ c ∈ cs, isDigit c = true)
    (hne : cs ≠ []) (hhead : cs.head? ≠ some '0') : Nat.toDigits 10 (natOfDigits cs) = cs := by
  -- by the last digit, as both the number and its digits grow at the end
  induction cs using List.reverseRecOn with
  | nil => exact absurd rfl hne
  | append_singleton cs c ih =>
    obtain ⟨hlt, hchar⟩ := digitChar_of_isDigit (hdigits c (by simp))
    rw [natOfDigits_concat]
    rcases eq_or_ne cs [] with rfl | hcs
    · show Nat.toDigits 10 (0 + (c.toNat - '0'.toNat)) = [c]
      rw [Nat.zero_add, Nat.toDigits_of_lt_base hlt, hchar]
    · rw [List.head?_append_of_ne_nil _ hcs] at hhead
      have hmore := ih (fun d hd => hdigits d (List.mem_append_left _ hd)) hcs hhead
      have hpos : 0 < natOfDigits cs := by
        refine Nat.pos_of_ne_zero fun hzero => hhead ?_
        rw [← hmore, hzero]
        rfl
      rw [← Nat.toDigits_append_toDigits (by decide) hpos hlt, hmore,
        Nat.toDigits_of_lt_base hlt, hchar]

/-- Zeros behind the digits of a positive number. -/
theorem toDigits_mul_pow {n : Nat} (h : 0 < n) (k : Nat) :
    Nat.toDigits 10 (n * 10 ^ k) = Nat.toDigits 10 n ++ List.replicate k '0' := by
  induction k with
  | zero => simp
  | succ k ih =>
    have hpos : 0 < n * 10 ^ k := Nat.mul_pos h (Nat.pow_pos (by decide))
    have hshift : n * 10 ^ (k + 1) = 10 * (n * 10 ^ k) + 0 := by
      rw [Nat.pow_succ, ← Nat.mul_assoc, Nat.mul_comm, Nat.add_zero]
    have hzero : Nat.toDigits 10 0 = ['0'] := rfl
    rw [hshift, ← Nat.toDigits_append_toDigits (by decide) hpos (by decide), ih, hzero,
      List.append_assoc, List.replicate_succ']

end Numeral

namespace Value

/-! ## Keys of indices -/

/-- The digits of an index spell it. -/
theorem index?_repr (i : Nat) : index? (Nat.repr i) = some i := by
  rw [index?, Nat.toList_repr]
  rcases Nat.eq_zero_or_pos i with rfl | hpos
  · rfl
  · have hhead := Numeral.head_toDigits hpos
    have hvalue := Numeral.natOfDigits_toDigits i
    have hall : (Nat.toDigits 10 i).all isDigit = true :=
      List.all_eq_true.mpr fun _ => Numeral.isDigit_of_mem_toDigits
    split
    · next hnil => exact absurd hnil Nat.toDigits_ne_nil
    · next hzero =>
      rw [hzero] at hhead
      exact absurd rfl hhead
    · next c cs _ hdigits =>
      rw [hdigits] at hhead hvalue hall
      have hfirst : c ≠ '0' := fun hzero => hhead (congrArg some hzero)
      rw [if_pos ⟨hfirst, hall⟩, hvalue]

/-- **A key spells an index where it is the digits of the index**, without a sign and without
zeros before them. -/
theorem index?_eq_some_iff {key : String} {i : Nat} : index? key = some i ↔ key = Nat.repr i := by
  refine ⟨fun h => ?_, fun h => h ▸ index?_repr i⟩
  rw [← String.toList_inj, Nat.toList_repr]
  rw [index?] at h
  split at h
  · cases h
  · next hzero =>
    obtain rfl := Option.some.inj h
    exact hzero
  · next c cs _ hkey =>
    obtain ⟨hfirst, hdigits⟩ := (Option.ite_none_right_eq_some.mp h).1
    have hvalue := (Option.ite_none_right_eq_some.mp h).2
    have hhead : (c :: cs).head? ≠ some '0' := fun hzero => hfirst (Option.some.inj hzero)
    have hspelled := Numeral.toDigits_natOfDigits (List.all_eq_true.mp hdigits)
      (List.cons_ne_nil c cs) hhead
    rw [hkey, ← hspelled, Option.some.inj hvalue]

/-- A key that is not the digits of an index of a list addresses nothing in it. -/
theorem index?_bind_eq_none {α : Type} {items : List α} {key : String}
    (h : ∀ i < items.length, key ≠ Nat.repr i) : (index? key).bind (items[·]?) = none := by
  rw [Option.bind_eq_none_iff]
  intro i hi
  obtain rfl := index?_eq_some_iff.mp hi
  exact List.getElem?_eq_none (Nat.le_of_not_lt fun hlt => h i hlt rfl)

end Value

namespace Number

open Float.Model (UnpackedFloat)
open Float.Model.UnpackedFloat

variable {x y : Float} {n : Nat}

/-! ## Texts of whole numbers -/

/-- Numbers that are equal have one text: both zeros are written alike. -/
theorem text_of_beq (h : (x == y) = true) : text x = text y := by
  obtain ⟨-, -, rfl | ⟨rfl, rfl⟩ | ⟨rfl, rfl⟩⟩ := Float.beq_iff_ne_nan_and_eq.mp h
  · rfl
  · decide
  · decide

/-- A number with the text of another one is equal to it, where that one is a number at all. -/
theorem beq_of_text (hy : y.isNaN = false) (h : text x = text y) : (x == y) = true := by
  -- the text is read back as both numbers, and only what is no number is read as none
  have hread := toNumber_text hy
  rw [← h] at hread
  cases hx : x.isNaN with
  | true =>
    have hnan := isNaN_toNumber_text hx
    rw [Float.isNaN_eq_decide_eq_nan, decide_eq_true_eq] at hnan
    rw [hnan, Float.nan_beq_eq_false] at hread
    cases hread
  | false => exact PartialEquivBEq.trans (BEq.symm (toNumber_text hx)) hread

/-- A natural number of at most 53 bits is unpacked to its own value. -/
theorem unpack_ofNat (hpos : 0 < n) (hlt : n < 2 ^ 53) :
    ∃ m e hm, (ofNat n).toModel.unpack = .finite .positive m e hm := by
  obtain ⟨m, e, hcanonical, he, hvalue⟩ := exists_canonical hpos hlt
  refine ⟨m, e, hcanonical.pos, ?_⟩
  have hround : ofNat n = .ofModel (.pack (roundedTo .positive n)) := ofInt_apply .positive hpos
  rw [hround, hvalue, hcanonical.roundedTo]
  exact unpack_pack hcanonical .positive he

/-- Zeros that are taken off a natural number are laid out again. -/
theorem decimalText_strip (hpos : 0 < n) (h : (Nat.toDigits 10 n).length ≤ 21) :
    decimalText (Decimal.mk n 0).strip = Nat.toDigits 10 n := by
  obtain ⟨k, hcoefficient, hexponent⟩ := Decimal.strip_eq ⟨n, 0⟩
  generalize (Decimal.mk n 0).strip = d at hcoefficient hexponent
  have hd : 0 < d.coefficient := by
    refine Nat.pos_of_ne_zero fun hzero => ?_
    rw [hzero, Nat.zero_mul] at hcoefficient
    exact Nat.ne_of_gt hpos hcoefficient
  have hdigits : Nat.toDigits 10 n = d.digits ++ List.replicate k '0' := by
    rw [Decimal.digits, ← Numeral.toDigits_mul_pow hd, ← hcoefficient]
  have hpoint : (d.digits.length : Int) + d.exponent = (d.digits.length + k : Nat) := by
    rw [hexponent, Int.zero_add, Nat.cast_add]
  rw [hdigits, List.length_append, List.length_replicate] at h
  have hzeros : ((d.digits.length + k : Nat) - d.digits.length : Int).toNat = k := by omega
  unfold decimalText layout
  rw [hpoint, if_pos ⟨by omega, Int.ofNat_le.mpr h⟩, hzeros, hdigits]

/-- **A natural number of at most 53 bits is written with its digits.** -/
theorem text_ofNat (h : n < 2 ^ 53) : text (ofNat n) = Nat.repr n := by
  rcases Nat.eq_zero_or_pos n with rfl | hpos
  · decide
  · obtain ⟨m, e, hm, hx⟩ := unpack_ofNat hpos h
    have hsafe : (n : Int).natAbs ≤ maxSafe := Nat.le_of_lt_succ h
    have hwhole : safeWhole? (ofNat n) = some (n : Int) := safeWhole?_ofInt hsafe
    have hshortest : Decimal.shortest (ofNat n) = (Decimal.mk n 0).strip := by
      rw [Decimal.shortest, hx]
      dsimp only
      rw [abs_of_positive hx, Decimal.shortestOf, hwhole]
      rfl
    have hlength : (Nat.toDigits 10 n).length ≤ 21 :=
      (Nat.length_toDigits_le_iff (by decide) (by decide)).mpr
        (Nat.lt_trans h (by decide))
    rw [← String.toList_inj, Nat.toList_repr, text_of_positive hx, hshortest,
      decimalText_strip hpos hlength]

/-- **A number is written as a natural number where it is equal to it.** -/
theorem text_eq_repr_iff (h : n < 2 ^ 53) : text x = Nat.repr n ↔ (x == ofNat n) = true := by
  have hn : (ofNat n).isNaN = false := by
    rw [ofNat_eq_nearest]
    exact isNaN_nearest (Nat.cast_nonneg n)
  rw [← text_ofNat h]
  exact ⟨beq_of_text hn, text_of_beq⟩

/-- No number is written as the name of a length. -/
theorem text_ne_length (x : Float) : text x ≠ "length" := by
  intro h
  cases hx : x.isNaN with
  | true =>
    rw [Float.isNaN_eq_decide_eq_nan, decide_eq_true_eq] at hx
    rw [hx] at h
    revert h
    decide
  | false =>
    have hread := toNumber_text hx
    have hword : Value.toNumber (.string "length") = Float.nan := by decide
    rw [h, hword, Float.nan_beq_eq_false] at hread
    cases hread

end Number

namespace Value

/-! ## Reads of arrays -/

/-- No index is the name of the length. -/
theorem repr_ne_length (i : Nat) : Nat.repr i ≠ "length" := by
  intro h
  have hindex := index?_repr i
  rw [h] at hindex
  cases hindex

section Array

variable {identity : Identity} {slots : List (Option Value)} {name : String}

/-- Under the digits of an index an array reads the slot, and nothing where there is none. -/
theorem get_array_repr (i : Nat) :
    get (.array identity slots) (Nat.repr i) = (slots[i]?.bind id).getD .undefined := by
  rw [get, if_neg (repr_ne_length i), index?_repr, Option.bind_some]

/-- Under any other name than that of its length an array reads nothing. -/
theorem get_array_of_ne (hlength : name ≠ "length")
    (h : ∀ i < slots.length, name ≠ Nat.repr i) :
    get (.array identity slots) name = .undefined := by
  rw [get, if_neg hlength, index?_bind_eq_none h]
  rfl

end Array

/-- **A number reads exactly its slot of an array.**  Where the number is equal to an index, also
as negative zero, the read gives what is in the slot, and `undefined` for a hole.  Any other number
gives `undefined`, and so does every name other than `length` and the digits of the indices. -/
theorem get_array (identity : Identity) (slots : List (Option Value))
    (h : slots.length < 2 ^ 53) :
    (∀ (x : Float) (i : Nat) (hi : i < slots.length), (x == Number.ofNat i) = true →
      get (.array identity slots) (key (.number x)) = slots[i].getD .undefined) ∧
    (∀ x : Float, (∀ i < slots.length, (x == Number.ofNat i) = false) →
      get (.array identity slots) (key (.number x)) = .undefined) ∧
    ∀ name, name ≠ "length" → (∀ i < slots.length, name ≠ Nat.repr i) →
      get (.array identity slots) name = .undefined := by
  have hkey (x : Float) (i : Nat) (hi : i < slots.length) :
      key (.number x) = Nat.repr i ↔ (x == Number.ofNat i) = true :=
    Number.text_eq_repr_iff (Nat.lt_trans hi h)
  refine ⟨fun x i hi hx => ?_, fun x hx => ?_, fun _ => get_array_of_ne⟩
  · rw [(hkey x i hi).mpr hx, get_array_repr, List.getElem?_eq_getElem hi]
    rfl
  · refine get_array_of_ne (Number.text_ne_length x) fun i hi heq => ?_
    exact Bool.false_ne_true ((hx i hi).symm.trans ((hkey x i hi).mp heq))

/-- An array with a hole, read under negative zero, the index of the hole, a fraction and padded
digits. -/
theorem get_array_sparse :
    [some (Value.bool true), none].length < 2 ^ 53 ∧
    ((-Number.zero == Number.ofNat 0) = true ∧
      get (.array ⟨0, 0⟩ [some (.bool true), none]) (key (.number (-Number.zero))) = .bool true) ∧
    ((Number.ofNat 1 == Number.ofNat 1) = true ∧
      get (.array ⟨0, 0⟩ [some (.bool true), none]) (key (.number (.ofNat 1))) = .undefined) ∧
    ((∀ i < 2, (Number.ofNat 1 / Number.ofNat 2 == Number.ofNat i) = false) ∧
      get (.array ⟨0, 0⟩ [some (.bool true), none])
        (key (.number (Number.ofNat 1 / Number.ofNat 2))) = .undefined) ∧
    "01" ≠ "length" ∧ (∀ i < 2, "01" ≠ Nat.repr i) ∧
      get (.array ⟨0, 0⟩ [some (.bool true), none]) "01" = .undefined := by
  have hlength : [some (Value.bool true), none].length < 2 ^ 53 := by decide
  have hzero : (-Number.zero == Number.ofNat 0) = true := by decide
  have hone : (Number.ofNat 1 == Number.ofNat 1) = true := by decide
  have hhalf : ∀ i < 2, (Number.ofNat 1 / Number.ofNat 2 == Number.ofNat i) = false := by decide
  have hword : "01" ≠ "length" := by decide
  have hpadded : ∀ i < 2, "01" ≠ Nat.repr i := by decide
  obtain ⟨hslot, hother, hname⟩ := get_array ⟨0, 0⟩ [some (.bool true), none] hlength
  exact ⟨hlength, ⟨hzero, hslot _ 0 (by decide) hzero⟩, ⟨hone, hslot _ 1 (by decide) hone⟩,
    ⟨hhalf, hother _ hhalf⟩, hword, hpadded, hname "01" hword hpadded⟩

end Value

end ExprSandbox
