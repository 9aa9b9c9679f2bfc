import ExprSandbox.Proofs.Arithmetic

/-!
# Whole numbers

The integer that a float equals is the one that has its exact value (`whole?_eq_some_iff`).  It is
rounded to the float again (`ofInt_of_whole?`), where both zeros count as one number, and up to
`maxSafe` every integer is a float that equals it and no other integer (`safeWhole?_ofInt`).
-/

namespace ExprSandbox.Number

open Float.Model (UnpackedFloat)
open Float.Model.UnpackedFloat

variable {x : Float} {s : Sign} {m : Nat} {e : Int} {hm : 0 < m} {n : Int}

/-! ## The integer that a float equals -/

/-- **The integer that a finite float equals has its sign and its magnitude.** -/
theorem whole?_eq_some_iff (hx : x.toModel.unpack = .finite s m e hm) :
    whole? x = some n ↔ ∃ k : Nat, n = s.apply k ∧ (k : ℚ) = m * 2 ^ e := by
  rw [whole?, hx]
  dsimp only
  rcases le_or_gt 0 e with he | he
  · obtain ⟨j, rfl⟩ := Int.eq_ofNat_of_zero_le he
    have hvalue (k : Nat) : (k : ℚ) = m * 2 ^ (j : Int) ↔ k = m * 2 ^ j := by
      rw [zpow_natCast]
      exact_mod_cast Iff.rfl
    simp only [if_pos he, Int.toNat_natCast, Nat.pow_eq, hvalue, exists_eq_right, Option.some.injEq,
      eq_comm]
  · obtain ⟨j, hj⟩ := Int.eq_ofNat_of_zero_le (show 0 ≤ -e by omega)
    obtain rfl : e = -j := by omega
    have hpow : 0 < 2 ^ j := Nat.two_pow_pos j
    have hvalue (k : Nat) : (k : ℚ) = m * 2 ^ (-j : Int) ↔ k * 2 ^ j = m := by
      rw [zpow_neg, zpow_natCast, ← div_eq_mul_inv, eq_div_iff (by positivity)]
      exact_mod_cast Iff.rfl
    rw [if_neg (by omega), Int.neg_neg, Int.toNat_natCast, Nat.pow_eq]
    simp only [hvalue]
    constructor
    · intro h
      split at h
      · next hzero =>
        have hdvd : 2 ^ j ∣ m := Nat.dvd_of_mod_eq_zero hzero
        exact ⟨m / 2 ^ j, (Option.some.inj h).symm, Nat.div_mul_cancel hdvd⟩
      · cases h
    · rintro ⟨k, rfl, rfl⟩
      rw [if_pos (Nat.mul_mod_left _ _), Nat.mul_div_cancel _ hpow]

/-- A float that equals an integer is finite. -/
theorem isFinite_of_whole? (h : whole? x = some n) : x.isFinite = true := by
  show x.toModel.unpack.isFinite = true
  cases hx : x.toModel.unpack with
  | notANumber =>
    rw [whole?, hx] at h
    cases h
  | infinity =>
    rw [whole?, hx] at h
    cases h
  | zero => rfl
  | finite => rfl

/-! ## Rounding an integer -/

/-- An integer is rounded by its magnitude. -/
theorem ofInt_apply (s : Sign) {k : Nat} (hk : 0 < k) :
    ofInt (s.apply k) = .ofModel (.pack (roundedTo s k)) := by
  have hround (s : Sign) : UnpackedFloat.round spec s k 0 = roundedTo s k := by
    rw [round_eq hk, zpow_zero, mul_one]
  show Float.ofModel (.pack (UnpackedFloat.ofInt spec (s.apply k))) = _
  rw [UnpackedFloat.ofInt, UnpackedFloat.normalize]
  cases s with
  | positive =>
    have hcompare : compare (k : Int) 0 = .gt := Int.compare_eq_gt.mpr (by omega)
    rw [Sign.apply, hcompare]
    dsimp only
    rw [Int.toNat_natCast, hround]
  | negative =>
    have hcompare : compare (-k : Int) 0 = .lt := Int.compare_eq_lt.mpr (by omega)
    rw [Sign.apply, hcompare]
    dsimp only
    rw [Int.neg_neg, Int.toNat_natCast, hround]

/-- The integer that a finite float equals is rounded to the float. -/
theorem ofInt_of_whole? (hx : x.toModel.unpack = .finite s m e hm) (h : whole? x = some n) :
    ofInt n = x := by
  have hcanonical := canonical_of_unpack hx
  obtain ⟨k, rfl, hk⟩ := (whole?_eq_some_iff hx).mp h
  have hpos : 0 < k := by
    have := hcanonical.value_pos
    rw [← hk] at this
    exact_mod_cast this
  rw [ofInt_apply s hpos, hk, hcanonical.roundedTo, ← hx, pack_unpack_self]

/-- **A float that equals an integer is equal to what the integer is rounded to.** -/
theorem ofInt_beq (h : whole? x = some n) : (ofInt n == x) = true := by
  have hfinite := isFinite_of_whole? h
  rcases unpack_of_isFinite hfinite with ⟨s, hx⟩ | ⟨s, m, e, hm, hx⟩
  · rw [whole?, hx] at h
    obtain rfl := Option.some.inj h
    exact BEq.symm (beq_zero hx)
  · rw [ofInt_of_whole? hx h]
    exact beq_self (isNaN_of_isFinite hfinite)

/-- A natural number of at most 53 bits is the value of a canonical pair. -/
theorem exists_canonical {k : Nat} (hpos : 0 < k) (hlt : k < 2 ^ 53) :
    ∃ (m : Nat) (e : Int), Canonical m e ∧ e ≤ 971 ∧ (k : ℚ) = m * 2 ^ e := by
  have hvalue : HasValue (ofNat k).toModel.unpack k := equals_ofNat hlt
  generalize hu : (ofNat k).toModel.unpack = u, hv : (k : ℚ) = v at hvalue
  cases hvalue with
  | zero => exact absurd (Nat.cast_eq_zero.mp hv) (Nat.ne_of_gt hpos)
  | @finite m e hcanonical => exact ⟨m, e, hcanonical, exponent_le_of_unpack hu, rfl⟩

/-- **Up to `maxSafe` a rounded integer equals the integer.** -/
theorem safeWhole?_ofInt (h : n.natAbs ≤ maxSafe) : safeWhole? (ofInt n) = some n := by
  refine Option.filter_eq_some_iff.mpr ⟨?_, decide_eq_true h⟩
  obtain ⟨s, k, hk, rfl⟩ : ∃ (s : Sign) (k : Nat), k ≤ maxSafe ∧ n = s.apply k := by
    rcases Int.natAbs_eq n with hn | hn
    · exact ⟨.positive, n.natAbs, h, hn⟩
    · exact ⟨.negative, n.natAbs, h, hn⟩
  have hlt : k < 2 ^ 53 := Nat.lt_of_le_of_lt hk (by decide)
  rcases Nat.eq_zero_or_pos k with rfl | hpos
  · have hzero : s.apply (0 : Nat) = 0 := by cases s <;> rfl
    have hunpack : (ofInt 0).toModel.unpack = .zero .positive := unpack_pack_zero .positive
    rw [hzero, whole?, hunpack]
  · obtain ⟨m, e, hcanonical, he, hvalue⟩ := exists_canonical hpos hlt
    have hunpack : (ofInt (s.apply k)).toModel.unpack = .finite s m e hcanonical.pos := by
      rw [ofInt_apply s hpos, hvalue, hcanonical.roundedTo]
      exact unpack_pack hcanonical s he
    exact (whole?_eq_some_iff hunpack).mpr ⟨k, rfl, hvalue⟩

end ExprSandbox.Number
