import Mathlib
import ExprSandbox.Number.Basic

/-!
# Floats in canonical form

A finite float other than zero is `± m · 2 ^ e` with one canonical pair `m`, `e`: the one that its
bits unpack to (`canonical_of_unpack`).  Unpacking loses nothing (`pack_unpack_self`).
-/

namespace ExprSandbox.Number

open Float.Model (Format UnpackedFloat totalExponent)
open Float.Model.UnpackedFloat

/-- The format of a float. -/
abbrev spec : Format := .binary64

/-- A mantissa of at most 53 bits, and of fewer only with the least exponent. -/
structure Canonical (m : Nat) (e : Int) : Prop where
  pos : 0 < m
  lt : m < 2 ^ 53
  least : -1074 ≤ e
  full : 2 ^ 52 ≤ m ∨ e = -1074

/-! ## Bits -/

section Bits

variable {b : BitVec spec.numBits}

/-- The implicit bit stands above the bits of the mantissa. -/
theorem toNat_implicit (v : BitVec 52) : (1#1 ++ v).toNat = 2 ^ 52 + v.toNat := by
  rw [BitVec.toNat_append, ← Nat.shiftLeft_add_eq_or_of_lt v.isLt]
  rfl

/-- How the fields of a float make its mantissa and its exponent. -/
theorem unpack_finite {s : Sign} {m : Nat} {e : Int} {hm : 0 < m}
    (h : unpack spec b = .finite s m e hm) : s = .ofBitVec (unpackSign b) ∧
      ((unpackExponent b = 0#11 ∧ m = (unpackMantissa b).toNat ∧ e = -1074) ∨
        (0 < (unpackExponent b).toNat ∧ (unpackExponent b).toNat < 2047 ∧
          m = 2 ^ 52 + (unpackMantissa b).toNat ∧ e = (unpackExponent b).toNat - 1075)) := by
  rw [unpack] at h
  split at h
  · split at h <;> cases h
  · next hinfinite =>
    split at h
    · next hzero =>
      split at h
      · cases h
      · obtain ⟨rfl, rfl, rfl⟩ := UnpackedFloat.finite.inj h
        refine ⟨rfl, .inl ⟨hzero, rfl, ?_⟩⟩
        rw [hzero]
        rfl
    · next hnormal =>
      obtain ⟨rfl, rfl, rfl⟩ := UnpackedFloat.finite.inj h
      have hpos : (unpackExponent b).toNat ≠ 0 := fun h => hnormal (BitVec.eq_of_toNat_eq h)
      have hmax : (unpackExponent b).toNat ≠ 2047 := fun h => hinfinite (BitVec.eq_of_toNat_eq h)
      have hlt : (unpackExponent b).toNat < 2048 := (unpackExponent b).isLt
      exact ⟨rfl, .inr ⟨by omega, by omega, toNat_implicit _, rfl⟩⟩

/-- The pair that a finite float unpacks to is canonical. -/
theorem canonical_of_unpack {s : Sign} {m : Nat} {e : Int} {hm : 0 < m}
    (h : unpack spec b = .finite s m e hm) : Canonical m e := by
  have hmantissa : (unpackMantissa b).toNat < 2 ^ 52 := (unpackMantissa b).isLt
  obtain ⟨-, ⟨-, rfl, rfl⟩ | ⟨hpos, hmax, rfl, rfl⟩⟩ := unpack_finite h
  · exact ⟨hm, by omega, by omega, .inr rfl⟩
  · exact ⟨hm, by omega, by omega, .inl (Nat.le_add_right _ _)⟩

/-- A sign bit that is clear is a positive sign. -/
theorem sign_of_clear (h : b.toNat < 2 ^ 63) : Sign.ofBitVec (unpackSign b) = .positive := by
  refine if_pos (BitVec.eq_of_toNat_eq ?_)
  show b.toNat >>> 63 % 2 ^ 1 = 0
  rw [Nat.shiftRight_eq_div_pow, Nat.div_eq_of_lt h]

end Bits

/-- **Unpacking loses nothing.** -/
theorem pack_unpack_self (x : Float.Model) : Float.Model.pack x.unpack = x := by
  obtain ⟨bits, hvalid⟩ := x
  have hbits := pack_unpack_of_valid hvalid
  simp only [Float.Model.pack, Float.Model.unpack, hbits]

section Float

variable {x : Float} {s : Sign}

/-- A finite float is a zero or has a mantissa. -/
theorem unpack_of_isFinite (hfinite : x.isFinite = true) : (∃ s, x.toModel.unpack = .zero s) ∨
    ∃ s m e hm, x.toModel.unpack = .finite s m e hm := by
  have hmodel : x.toModel.unpack.isFinite = true := hfinite
  cases hx : x.toModel.unpack with
  | notANumber =>
    rw [hx] at hmodel
    cases hmodel
  | infinity s =>
    rw [hx] at hmodel
    cases hmodel
  | zero s => exact .inl ⟨s, rfl⟩
  | finite s m e hm => exact .inr ⟨s, m, e, hm, rfl⟩

/-- A finite float is a number. -/
theorem isNaN_of_isFinite (hfinite : x.isFinite = true) : x.isNaN = false := by
  show x.toModel.unpack.isNaN = false
  rcases unpack_of_isFinite hfinite with ⟨s, hx⟩ | ⟨s, m, e, hm, hx⟩ <;> rw [hx] <;> rfl

/-- A finite float whose sign bit is clear is zero, or a positive number. -/
theorem unpack_of_clear (hfinite : x.isFinite = true)
    (hclear : x.toBits.toNat < 2 ^ 63) : x.toModel.unpack = .zero .positive ∨
      ∃ m e hm, x.toModel.unpack = .finite .positive m e hm := by
  have hsign := sign_of_clear (show x.toBits.toBitVec.toNat < 2 ^ 63 from hclear)
  rcases unpack_of_isFinite hfinite with ⟨s, hu⟩ | ⟨s, m, e, hm, hu⟩
  · have hbits : x.toBits.toBitVec = packedZero spec s :=
      (unpack_eq_zero_iff_of_valid x.toModel.valid).mp hu
    rw [hbits, packedZero, unpackSign_packComponents, Sign.ofBitVec_toBitVec] at hsign
    rw [hsign] at hu
    exact .inl hu
  · obtain rfl := (unpack_finite hu).1.trans hsign
    exact .inr ⟨m, e, hm, hu⟩

/-! ## Equality -/

/-- A number equals itself. -/
theorem beq_self (h : x.isNaN = false) : (x == x) = true := by
  rw [Float.isNaN_eq_decide_eq_nan, decide_eq_false_iff_not] at h
  exact Float.beq_self_iff.mpr h

/-- Both zeros equal zero. -/
theorem beq_zero (hx : x.toModel.unpack = .zero s) : (x == zero) = true := by
  show x.toModel.unpack.beq zero.toModel.unpack = true
  rw [hx]
  cases s <;> decide

end Float

end ExprSandbox.Number
