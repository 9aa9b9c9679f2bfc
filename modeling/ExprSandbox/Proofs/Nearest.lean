import ExprSandbox.Number.Decimal
import ExprSandbox.Proofs.Rounding

/-!
# The nearest float

Packing a rounded number gives the float nearest to it (`nearest`), which is infinity where the
number is too great, and never anything that is no number.  Integers (`ofNat_eq_nearest`) and
decimals (`toFloat_eq_nearest`) are read as the float nearest to them: they are rounded once.
-/

namespace ExprSandbox.Number

open Float.Model (Format UnpackedFloat totalExponent)
open Float.Model.UnpackedFloat

/-! ## Packing -/

section Pack

variable {m : Nat} {e : Int}

/-- An exponent that is too great is packed as infinity. -/
theorem pack_overflow {s : Sign} {hm : 0 < m} (he : 971 < e) :
    Float.Model.pack (.finite s m e hm) = .pack (.infinity s) := by
  have hlarge : 2 ^ spec.exponentBits ≤
      (e + spec.exponentBias + spec.mantissaBitsWithoutImplicit).toNat + 1 := by
    show 2 ^ 11 ≤ (e + (1023 : Nat) + (52 : Nat)).toNat + 1
    omega
  simp only [Float.Model.pack, pack, if_pos hlarge]

/-- Infinity is unpacked again. -/
theorem unpack_pack_infinity (s : Sign) :
    (Float.Model.pack (.infinity s)).unpack = .infinity s := by
  show unpack spec (packedInfinity spec s) = _
  simp [unpack, packedInfinity]

/-- Zero is unpacked again. -/
theorem unpack_pack_zero (s : Sign) : (Float.Model.pack (.zero s)).unpack = .zero s :=
  unpack_packedZero

/-- A normal number is unpacked from its fields. -/
theorem unpack_normal (s : Sign) (b : Nat) (hpos : 0 < b) (hlt : b < 2047) (hfull : 2 ^ 52 ≤ m)
    (hm : m < 2 ^ 53) : unpack spec (packComponents spec s (BitVec.ofNat _ b) (BitVec.ofNat _ m)) =
      .finite s m (b - 1075) (Nat.lt_of_lt_of_le (Nat.two_pow_pos 52) hfull) := by
  have hexponent : (BitVec.ofNat 11 b).toNat = b := by
    rw [BitVec.toNat_ofNat, Nat.mod_eq_of_lt (by omega)]
  have hmantissa : (BitVec.ofNat 52 m).toNat = m - 2 ^ 52 := by
    rw [BitVec.toNat_ofNat]
    omega
  have hinfinite : BitVec.ofNat 11 b ≠ -1#11 := fun h => by
    have := congrArg BitVec.toNat h
    rw [hexponent] at this
    exact absurd this (Nat.ne_of_lt hlt)
  have hzero : BitVec.ofNat 11 b ≠ 0#11 := fun h => by
    have := congrArg BitVec.toNat h
    rw [hexponent] at this
    exact absurd this (Nat.ne_of_gt hpos)
  rw [unpack]
  simp only [unpackExponent_packComponents, unpackMantissa_packComponents,
    unpackSign_packComponents, Sign.ofBitVec_toBitVec]
  rw [if_neg hinfinite, if_neg hzero, UnpackedFloat.finite.injEq, toNat_implicit, hmantissa,
    hexponent]
  refine ⟨rfl, by omega, ?_⟩
  show (b : Int) - ((1023 : Nat) + (52 : Nat)) = _
  omega

/-- A number with the least exponent is unpacked from its mantissa. -/
theorem unpack_subnormal (s : Sign) (hpos : 0 < m) (hm : m < 2 ^ 52) :
    unpack spec (packComponents spec s 0#11 (BitVec.ofNat 52 m)) =
      .finite s m (-1074) hpos := by
  have hmantissa : (BitVec.ofNat 52 m).toNat = m := by
    rw [BitVec.toNat_ofNat, Nat.mod_eq_of_lt hm]
  have hne : BitVec.ofNat 52 m ≠ 0#52 := fun h => by
    have := congrArg BitVec.toNat h
    rw [hmantissa] at this
    exact absurd this (Nat.ne_of_gt hpos)
  have hinfinite : (0#11 : BitVec 11) ≠ -1#11 := by decide
  rw [unpack]
  simp only [unpackExponent_packComponents, unpackMantissa_packComponents,
    unpackSign_packComponents, Sign.ofBitVec_toBitVec]
  rw [if_neg hinfinite, if_pos trivial, dif_neg hne, UnpackedFloat.finite.injEq, hmantissa]
  exact ⟨rfl, rfl, rfl⟩

/-- **Unpacking gives what was packed.** -/
theorem unpack_pack (h : Canonical m e) (s : Sign) (he : e ≤ 971) :
    (Float.Model.pack (.finite s m e h.pos)).unpack = .finite s m e h.pos := by
  obtain ⟨hpos, hlt, hleast, hfull⟩ := h
  have hsmall : ¬ 2 ^ spec.exponentBits ≤
      (e + spec.exponentBias + spec.mantissaBitsWithoutImplicit).toNat + 1 := by
    show ¬ 2 ^ 11 ≤ (e + (1023 : Nat) + (52 : Nat)).toNat + 1
    omega
  show unpack spec (pack spec (.finite s m e hpos)) = _
  rw [pack, if_neg hsmall]
  have hlog : m.log2 + 1 = 53 ↔ 2 ^ 52 ≤ m := by
    rw [← Nat.le_log2 (Nat.ne_of_gt hpos)]
    have := (Nat.log2_lt (Nat.ne_of_gt hpos)).mpr hlt
    omega
  split
  · next hnormal =>
    have hexponent : (e + spec.exponentBias + spec.mantissaBitsWithoutImplicit).toNat =
        (e + 1075).toNat := by
      show (e + (1023 : Nat) + (52 : Nat)).toNat = _
      omega
    rw [hexponent, unpack_normal s _ (by omega) (by omega) (hlog.mp hnormal) hlt,
      UnpackedFloat.finite.injEq]
    exact ⟨rfl, rfl, by omega⟩
  · next hsubnormal =>
    obtain rfl : e = -1074 := hfull.resolve_left fun h => hsubnormal (hlog.mpr h)
    exact unpack_subnormal s hpos (Nat.lt_of_not_le fun h => hsubnormal (hlog.mpr h))

/-- The exponents of floats are not too great. -/
theorem exponent_le_of_unpack {x : Float} {s : Sign} {hm : 0 < m}
    (h : x.toModel.unpack = .finite s m e hm) : e ≤ 971 := by
  rcases (unpack_finite h).2 with ⟨-, -, he⟩ | ⟨-, hlt, -, he⟩ <;> omega

/-- The magnitude of a finite float. -/
theorem unpack_abs {x : Float} {s : Sign} {hm : 0 < m}
    (h : x.toModel.unpack = .finite s m e hm) :
    x.abs.toModel.unpack = .finite .positive m e hm := by
  show (Float.Model.pack x.toModel.unpack.abs).unpack = _
  rw [h]
  exact unpack_pack (canonical_of_unpack h) .positive (exponent_le_of_unpack h)

/-- The negative of a number is a number. -/
theorem isNaN_neg {x : Float} (h : x.isNaN = false) : (-x).isNaN = false := by
  show (Float.Model.pack x.toModel.unpack.neg).unpack.isNaN = false
  replace h : x.toModel.unpack.isNaN = false := h
  cases hx : x.toModel.unpack with
  | notANumber =>
    rw [hx] at h
    cases h
  | infinity s =>
    rw [UnpackedFloat.neg, unpack_pack_infinity]
    rfl
  | zero s =>
    rw [UnpackedFloat.neg, unpack_pack_zero]
    rfl
  | finite s m e hm =>
    rw [UnpackedFloat.neg, unpack_pack (canonical_of_unpack hx) _ (exponent_le_of_unpack hx)]
    rfl

/-- A positive float is its own magnitude. -/
theorem abs_of_positive {x : Float} {hm : 0 < m} (h : x.toModel.unpack = .finite .positive m e hm) :
    x.abs = x := by
  show Float.ofModel (.pack x.toModel.unpack.abs) = x
  rw [h, UnpackedFloat.abs, ← h, pack_unpack_self]

end Pack

/-! ## The nearest float -/

/-- The float nearest to a number that is not negative: infinity, where the number is too great. -/
def nearest (v : ℚ) : Float :=
  .ofModel (.pack (roundedTo .positive v))

section Nearest

variable {v : ℚ} {m : Nat} {e : Int}

/-- A number that is too great is packed as infinity. -/
theorem nearest_overflow (hv : 2 ^ 1024 ≤ v) : nearest v = infinity := by
  have hpos : 0 < v := lt_of_lt_of_le (by norm_num) hv
  have hlast : 971 < lastExponent v := by
    have hlog : 1024 ≤ Int.log 2 v := by
      rw [← Int.zpow_le_iff_le_log (by decide) hpos]
      exact_mod_cast hv
    unfold lastExponent
    omega
  have hfull := (two_pow_le_nearestEven hpos).resolve_right (by omega)
  unfold nearest roundedTo infinity
  dsimp only
  rw [dif_neg (by omega)]
  split
  · rw [pack_overflow (by omega)]
  · rw [pack_overflow hlast]

/-- **An integer is the float nearest to it.** -/
theorem ofNat_eq_nearest (n : Nat) : ofNat n = nearest n := by
  show Float.ofModel (.pack (UnpackedFloat.ofInt spec n)) = _
  rw [nearest, UnpackedFloat.ofInt, UnpackedFloat.normalize]
  rcases Nat.eq_zero_or_pos n with rfl | hn
  · have hzero : ((0 : Nat) : ℚ) = 0 := Nat.cast_zero
    rw [hzero, roundedTo_zero]
    rfl
  · have hcompare : compare (n : Int) 0 = .gt := Int.compare_eq_gt.mpr (by omega)
    rw [hcompare]
    dsimp only
    rw [Int.toNat_natCast, round_eq hn, zpow_zero, mul_one]

/-- The nearest float is infinity, or it has the value of the nearest multiple. -/
theorem unpack_nearest (hv : 0 < v) : (nearest v).toModel.unpack = .infinity .positive ∨
    HasValue (nearest v).toModel.unpack (rounded v) := by
  have hvalue := hasValue_roundedTo hv
  show (Float.Model.pack (roundedTo .positive v)).unpack = _ ∨
    HasValue (Float.Model.pack (roundedTo .positive v)).unpack _
  generalize roundedTo .positive v = u, rounded v = w at hvalue ⊢
  cases hvalue with
  | zero =>
    rw [unpack_pack_zero]
    exact .inr .zero
  | @finite m e hcanonical =>
    rcases le_or_gt e 971 with he | he
    · rw [unpack_pack hcanonical _ he]
      exact .inr (.finite hcanonical)
    · rw [pack_overflow he, unpack_pack_infinity]
      exact .inl rfl

/-- The nearest float is a number. -/
theorem isNaN_nearest (hv : 0 ≤ v) : (nearest v).isNaN = false := by
  show (nearest v).toModel.unpack.isNaN = false
  rcases eq_or_lt_of_le hv with rfl | hpos
  · rw [nearest, roundedTo_zero, unpack_pack_zero]
    rfl
  · rcases unpack_nearest hpos with hinfinite | hvalue
    · rw [hinfinite]
      rfl
    · generalize (nearest v).toModel.unpack = u, rounded v = w at hvalue ⊢
      cases hvalue <;> rfl

/-- The nearest float is a given one where the nearest multiple has the value of the float. -/
theorem nearest_eq_iff {x : Float} {hm : 0 < m} (hx : x.toModel.unpack = .finite .positive m e hm)
    (hv : 0 < v) : nearest v = x ↔ rounded v = m * 2 ^ e := by
  have hcanonical := canonical_of_unpack hx
  constructor
  · rintro rfl
    rcases unpack_nearest hv with hinfinite | hvalue
    · rw [hinfinite] at hx
      cases hx
    · generalize rounded v = w at hvalue
      rw [hx] at hvalue
      cases hvalue
      rfl
  · intro h
    have hvalue := hasValue_roundedTo hv
    rw [h] at hvalue
    rw [nearest, hvalue.eq_roundedTo, hcanonical.roundedTo, ← hx, pack_unpack_self]

end Nearest

end ExprSandbox.Number

namespace ExprSandbox.Decimal

open Float.Model (UnpackedFloat totalExponent)
open Float.Model.UnpackedFloat
open Number

/-- The number that a decimal is. -/
def toRat (d : Decimal) : ℚ :=
  d.coefficient * 10 ^ d.exponent

section OfScientific

variable {c k : Nat}

/-- A decimal without a fraction is rounded once. -/
theorem ofScientific_natCast (hc : 0 < c) (hk : k ≤ 2048) :
    ofScientific spec c k = roundedTo .positive (c * 10 ^ k) := by
  have hlarge : ¬ (k : Int) > 2 ^ spec.exponentBits := by
    show ¬ (k : Int) > 2048
    omega
  have hsmall : ¬ (k : Int) < -((2 ^ spec.exponentBits : Int) + c.log2) := by
    show ¬ (k : Int) < -(2048 + c.log2)
    omega
  rw [ofScientific, dif_neg (Nat.ne_of_gt hc), if_neg hlarge, if_neg hsmall,
    if_pos (Int.natCast_nonneg k)]
  show roundWithAccuracy spec .positive (c <<< 53 * 10 ^ k) (-53 + 0) .exact = _
  have hvalue : ((c <<< 53 * 10 ^ k : Nat) : ℚ) * 2 ^ (-53 + 0 : Int) = c * 10 ^ k := by
    have hunit : (2 : ℚ) ^ (-53 + 0 : Int) = 1 / 2 ^ 53 := by norm_num
    rw [Nat.shiftLeft_eq, hunit]
    push_cast
    ring
  have hpos : (0 : ℚ) < (c <<< 53 * 10 ^ k : Nat) := by
    rw [Nat.shiftLeft_eq]
    push_cast
    positivity
  have hlog : 0 ≤ Int.log 2 ((c : ℚ) * 10 ^ k) := by
    have hcast : (c : ℚ) * 10 ^ k = (c * 10 ^ k : Nat) := by push_cast; rfl
    rw [hcast, Int.log_natCast]
    exact Int.natCast_nonneg _
  rw [roundWithAccuracy_eq (holds_exact _) hpos, hvalue]
  rw [hvalue, lastExponent]
  omega

/-- The quotient of a decimal with a fraction has bits enough. -/
theorem targetExponent_div_le (hc : 0 < c) (k : Nat) :
    spec.targetExponent (totalExponent c 0 - totalExponent (10 ^ k) 0) ≤
      lastExponent (c / 10 ^ k) := by
  have hcast : (0 : ℚ) < c := by exact_mod_cast hc
  have hten : (0 : ℚ) < 10 ^ k := by positivity
  have hlower : (2 : ℚ) ^ c.log2 ≤ c := by exact_mod_cast Nat.log2_self_le (Nat.ne_of_gt hc)
  have hupper : (10 : ℚ) ^ k ≤ 2 ^ ((10 ^ k).log2 + 1) := by
    exact_mod_cast Nat.le_of_lt Nat.lt_log2_self
  have hlog : (c.log2 : Int) - (10 ^ k).log2 - 1 ≤ Int.log 2 ((c : ℚ) / 10 ^ k) := by
    rw [← Int.zpow_le_iff_le_log (by decide) (div_pos hcast hten), le_div_iff₀ hten]
    generalize (10 ^ k).log2 = n at hupper
    calc ((2 : Nat) : ℚ) ^ ((c.log2 : Int) - n - 1) * 10 ^ k
        ≤ ((2 : Nat) : ℚ) ^ ((c.log2 : Int) - n - 1) * 2 ^ (n + 1) :=
          mul_le_mul_of_nonneg_left hupper (by positivity)
      _ = 2 ^ c.log2 := by
          rw [Nat.cast_ofNat, ← zpow_natCast, ← zpow_natCast, ← zpow_add₀ two_ne_zero]
          congr 1
          push_cast
          ring
      _ ≤ c := hlower
  rw [targetExponent_eq, totalExponent, totalExponent, lastExponent]
  omega

/-- A decimal with a fraction is rounded once. -/
theorem ofScientific_neg (hc : 0 < c) (hk : 0 < k) (hle : k ≤ 2048 + c.log2) :
    ofScientific spec c (-k) = roundedTo .positive (c / 10 ^ k) := by
  have hlarge : ¬ -(k : Int) > 2 ^ spec.exponentBits := by
    show ¬ -(k : Int) > 2048
    omega
  have hsmall : ¬ -(k : Int) < -((2 ^ spec.exponentBits : Int) + c.log2) := by
    show ¬ -(k : Int) < -(2048 + c.log2)
    omega
  have hneg : ¬ 0 ≤ -(k : Int) := by omega
  have hten : 0 < 10 ^ k := Nat.pow_pos (by decide)
  have htarget := targetExponent_div_le hc k
  rw [ofScientific, dif_neg (Nat.ne_of_gt hc), if_neg hlarge, if_neg hsmall, if_neg hneg]
  simp only [Int.neg_neg, Int.toNat_natCast, UnpackedFloat.div, divCore]
  generalize spec.targetExponent (totalExponent c 0 - totalExponent (10 ^ k) 0) = t at htarget ⊢
  obtain ⟨n, hn⟩ : ∃ n : Nat, min (0 - 0) t = -n := ⟨(-(min (0 - 0) t)).toNat, by omega⟩
  have hshift : ((0 : Int) - 0 - -n).toNat = n := by omega
  have hvalue : ((c <<< n : Nat) : ℚ) / (10 ^ k : Nat) * 2 ^ (-n : Int) = c / 10 ^ k := by
    rw [Nat.shiftLeft_eq, zpow_neg, zpow_natCast]
    push_cast
    field_simp
  have hpos : (0 : ℚ) < (c <<< n : Nat) / (10 ^ k : Nat) := by
    rw [Nat.shiftLeft_eq]
    push_cast
    positivity
  rw [hn, hshift]
  rw [roundWithAccuracy_eq (holds_quotient _ hten) hpos, hvalue]
  · rfl
  · rw [hvalue]
    omega

end OfScientific

/-- **A decimal is read as the float nearest to it.** -/
theorem toFloat_eq_nearest (d : Decimal) : d.toFloat = nearest d.toRat := by
  obtain ⟨c, q⟩ := d
  show Float.ofModel (.pack (ofScientific spec c q)) = nearest (c * 10 ^ q)
  rcases Nat.eq_zero_or_pos c with rfl | hc
  · rw [ofScientific, dif_pos rfl, nearest]
    norm_num [roundedTo_zero]
  have hone : (1 : ℚ) ≤ c := by exact_mod_cast hc
  -- exponents beyond the cuts are infinity and zero, as the nearest float is
  rcases lt_or_ge 2048 q with hlarge | hlarge
  · rw [ofScientific, dif_neg (Nat.ne_of_gt hc), if_pos (show q > 2 ^ 11 from hlarge),
      nearest_overflow]
    · rfl
    calc (2 : ℚ) ^ 1024 ≤ 10 ^ 1024 := pow_le_pow_left₀ (by norm_num) (by norm_num) _
      _ = 10 ^ (1024 : Int) := (zpow_natCast _ _).symm
      _ ≤ 10 ^ q := zpow_le_zpow_right₀ (by norm_num) (by omega)
      _ ≤ c * 10 ^ q := le_mul_of_one_le_left (by positivity) hone
  rcases lt_or_ge q (-(2048 + c.log2)) with hsmall | hsmall
  · have hcut : q < -((2 : Int) ^ 11 + c.log2) := hsmall
    rw [ofScientific, dif_neg (Nat.ne_of_gt hc), if_neg (by show ¬ q > 2048; omega), if_pos hcut,
      nearest, roundedTo_underflow]
    · positivity
    have hlog : (c : ℚ) < 2 ^ (c.log2 + 1) := by exact_mod_cast Nat.lt_log2_self
    have hbase : (10 : ℚ) ^ q ≤ 2 ^ q := by
      obtain ⟨k, hk⟩ := Int.eq_ofNat_of_zero_le (show 0 ≤ -q by omega)
      obtain rfl : q = -k := by omega
      rw [zpow_neg, zpow_neg, zpow_natCast, zpow_natCast]
      exact inv_anti₀ (by positivity) (pow_le_pow_left₀ (by norm_num) (by norm_num) _)
    calc (c : ℚ) * 10 ^ q ≤ c * 2 ^ q := mul_le_mul_of_nonneg_left hbase (by positivity)
      _ < 2 ^ (c.log2 + 1) * 2 ^ q := mul_lt_mul_of_pos_right hlog (by positivity)
      _ = 2 ^ ((c.log2 + 1 : Nat) + q) := by rw [zpow_add₀ two_ne_zero, zpow_natCast]
      _ ≤ 2 ^ (-1075 : Int) := zpow_le_zpow_right₀ (by norm_num) (by push_cast; omega)
  rcases le_or_gt 0 q with hnonneg | hneg
  · obtain ⟨k, rfl⟩ := Int.eq_ofNat_of_zero_le hnonneg
    rw [ofScientific_natCast hc (by omega), nearest, zpow_natCast]
  · obtain ⟨k, hk⟩ := Int.eq_ofNat_of_zero_le (show 0 ≤ -q by omega)
    obtain rfl : q = -k := by omega
    rw [ofScientific_neg hc (by omega) (by omega), nearest, zpow_neg, zpow_natCast, div_eq_mul_inv]

/-- A decimal is read as a number. -/
theorem isNaN_toFloat (d : Decimal) : d.toFloat.isNaN = false := by
  rw [toFloat_eq_nearest]
  exact isNaN_nearest (mul_nonneg (Nat.cast_nonneg _) (by positivity))

end ExprSandbox.Decimal
