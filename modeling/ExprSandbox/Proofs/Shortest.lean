import ExprSandbox.Number.Shortest
import ExprSandbox.Proofs.WholeNumbers

/-!
# The shortest decimal

The shortest decimal of a float reads back as its magnitude, its digits do not end with a zero,
and no decimal of fewer digits reads back (`isShortest_shortest`).  The decimals that read back lie
side by side around the float, so on every grid one of the two neighbours of the float is among
them as soon as any multiple is, and on the grid of seventeen digits the nearer neighbour always
is.
-/

namespace ExprSandbox.Decimal

open Float.Model (UnpackedFloat)
open Float.Model.UnpackedFloat
open Number

/-! ## Digits without zeros at the end -/

/-- The zeros that are taken away are powers of ten. -/
theorem strip_eq (d : Decimal) :
    ∃ k : Nat, d.coefficient = d.strip.coefficient * 10 ^ k ∧
      d.strip.exponent = d.exponent + k := by
  fun_induction strip d with
  | case1 d h ih =>
    obtain ⟨k, hcoefficient, hexponent⟩ := ih
    refine ⟨k + 1, ?_, by rw [hexponent]; dsimp only; omega⟩
    dsimp only at hcoefficient
    rw [Nat.pow_succ, ← Nat.mul_assoc, ← hcoefficient]
    omega
  | case2 d h => exact ⟨0, (Nat.mul_one _).symm, (Int.add_zero _).symm⟩

/-- No zero is left at the end. -/
theorem strip_significant {d : Decimal} (h : 0 < d.coefficient) :
    d.strip.coefficient % 10 ≠ 0 := by
  fun_induction strip d with
  | case1 d h' ih => exact ih (by dsimp only; omega)
  | case2 d h' => exact fun hzero => h' ⟨Nat.ne_of_gt h, hzero⟩

/-- Taking zeros away does not change the number. -/
theorem toRat_strip (d : Decimal) : d.strip.toRat = d.toRat := by
  obtain ⟨k, hcoefficient, hexponent⟩ := strip_eq d
  rw [toRat, toRat, hcoefficient, hexponent, zpow_add₀ (by norm_num), zpow_natCast]
  push_cast
  ring

/-- Taking zeros away does not change the float. -/
theorem toFloat_strip (d : Decimal) : d.strip.toFloat = d.toFloat := by
  rw [toFloat_eq_nearest, toRat_strip, ← toFloat_eq_nearest]

/-! ## Ratios -/

namespace Ratio

/-- The rational number. -/
def toRat (r : Ratio) : ℚ :=
  r.num / r.den

/-- Both numbers are positive. -/
structure Positive (r : Ratio) : Prop where
  num : 0 < r.num
  den : 0 < r.den

section Ratio

variable {r : Ratio}

/-- A positive ratio is a positive number. -/
theorem Positive.toRat (h : Positive r) : 0 < r.toRat :=
  div_pos (by exact_mod_cast h.num) (by exact_mod_cast h.den)

/-- The ratio of a binary number is the number. -/
theorem toRat_ofBinary (m : Nat) (e : Int) : (ofBinary m e).toRat = m * 2 ^ e := by
  unfold ofBinary Ratio.toRat
  split
  · next he =>
    obtain ⟨k, rfl⟩ := Int.eq_ofNat_of_zero_le he
    simp
  · next he =>
    obtain ⟨k, hk⟩ := Int.eq_ofNat_of_zero_le (show 0 ≤ -e by omega)
    obtain rfl : e = -k := by omega
    simp [div_eq_mul_inv]

/-- The ratio of a positive binary number is positive. -/
theorem positive_ofBinary {m : Nat} (hm : 0 < m) (e : Int) : Positive (ofBinary m e) := by
  unfold ofBinary
  split
  · exact ⟨Nat.mul_pos hm (Nat.two_pow_pos _), Nat.one_pos⟩
  · exact ⟨hm, Nat.two_pow_pos _⟩

/-- Scaling divides by a power of ten. -/
theorem toRat_scale (r : Ratio) (g : Int) : (r.scale g).toRat = r.toRat / 10 ^ g := by
  unfold scale Ratio.toRat
  split
  · next hg =>
    obtain ⟨k, rfl⟩ := Int.eq_ofNat_of_zero_le hg
    simp [div_div]
  · next hg =>
    obtain ⟨k, hk⟩ := Int.eq_ofNat_of_zero_le (show 0 ≤ -g by omega)
    obtain rfl : g = -k := by omega
    simp
    ring

/-- The quotient is the whole part. -/
theorem floor_toRat (r : Ratio) : ⌊r.toRat⌋₊ = r.num / r.den :=
  Nat.floor_div_eq_div r.num r.den

/-- The number of digits tells the power of ten below a number. -/
theorem pow_length_toDigits {n : Nat} (h : 0 < n) :
    10 ^ ((Nat.toDigits 10 n).length - 1) ≤ n ∧ n < 10 ^ (Nat.toDigits 10 n).length := by
  have hpos : 0 < (Nat.toDigits 10 n).length := Nat.length_toDigits_pos
  refine ⟨?_, (Nat.length_toDigits_le_iff (by decide) hpos).mp (le_refl _)⟩
  rcases Nat.eq_zero_or_pos ((Nat.toDigits 10 n).length - 1) with hzero | hone
  · rw [hzero]
    exact h
  · refine Nat.le_of_not_lt fun hlt => ?_
    have hle := (Nat.length_toDigits_le_iff (by decide) hone).mpr hlt
    omega

/-- **The magnitude is the power of ten below a number.** -/
theorem magnitude_spec (h : Positive r) :
    10 ^ r.magnitude ≤ r.toRat ∧ r.toRat < 10 ^ (r.magnitude + 1) := by
  obtain ⟨a, b⟩ := r
  obtain ⟨ha, hb⟩ := h
  dsimp only at ha hb
  have hb' : (0 : ℚ) < b := by exact_mod_cast hb
  have ha' : (0 : ℚ) < a := by exact_mod_cast ha
  unfold magnitude Ratio.toRat
  dsimp only
  split
  · next hle =>
    obtain ⟨hlower, hupper⟩ := pow_length_toDigits (Nat.div_pos hle hb)
    have hlength : 0 < (Nat.toDigits 10 (a / b)).length := Nat.length_toDigits_pos
    generalize (Nat.toDigits 10 (a / b)).length = l at *
    obtain ⟨k, rfl⟩ : ∃ k, l = k + 1 := ⟨l - 1, by omega⟩
    have hexponent : ((k + 1 : Nat) : Int) - 1 = k := by omega
    rw [Nat.add_sub_cancel, Nat.le_div_iff_mul_le hb] at hlower
    rw [Nat.div_lt_iff_lt_mul hb] at hupper
    rw [hexponent, le_div_iff₀ hb', div_lt_iff₀ hb', zpow_natCast]
    constructor
    · exact_mod_cast hlower
    · rw [zpow_add_one₀ (by norm_num), zpow_natCast, ← pow_succ]
      exact_mod_cast hupper
  · next hgt =>
    have hpos : 0 < (b - 1) / a := Nat.div_pos (by omega) ha
    obtain ⟨hlower, hupper⟩ := pow_length_toDigits hpos
    have hlength : 0 < (Nat.toDigits 10 ((b - 1) / a)).length := Nat.length_toDigits_pos
    generalize (Nat.toDigits 10 ((b - 1) / a)).length = l at *
    obtain ⟨k, rfl⟩ : ∃ k, l = k + 1 := ⟨l - 1, by omega⟩
    have hexponent : -((k + 1 : Nat) : Int) + 1 = -k := by omega
    rw [Nat.add_sub_cancel, Nat.le_div_iff_mul_le ha] at hlower
    rw [Nat.div_lt_iff_lt_mul ha] at hupper
    rw [hexponent, zpow_neg, zpow_neg, zpow_natCast, zpow_natCast, le_div_iff₀ hb',
      div_lt_iff₀ hb', inv_mul_le_iff₀ (by positivity), lt_inv_mul_iff₀ (by positivity)]
    constructor
    · have : b ≤ 10 ^ (k + 1) * a := by omega
      exact_mod_cast this
    · have : 10 ^ k * a < b := by omega
      exact_mod_cast this

end Ratio

end Ratio

/-! ## Neighbours on a grid -/

section Neighbours

variable {r : Ratio} {g : Int} {d : Decimal}

/-- The neighbours are the multiples beside the whole part. -/
theorem mem_neighbours : d ∈ neighbours r g ↔
    d = (Decimal.mk ⌊r.toRat / 10 ^ g⌋₊ g).strip ∨
      d = (Decimal.mk (⌊r.toRat / 10 ^ g⌋₊ + 1) g).strip := by
  unfold neighbours
  rw [← Ratio.toRat_scale, Ratio.floor_toRat]
  dsimp only
  split
  · simp
  · rw [List.mem_cons, List.mem_singleton, or_comm]

/-- One of the neighbours is not more than half a multiple away. -/
theorem exists_near_neighbour (hr : r.Positive) (g : Int) :
    ∃ d ∈ neighbours r g, |d.toRat - r.toRat| ≤ 10 ^ g / 2 := by
  have hpow : (0 : ℚ) < 10 ^ g := by positivity
  have hpos : 0 < r.toRat / 10 ^ g := div_pos hr.toRat hpow
  have hlower := Nat.floor_le (le_of_lt hpos)
  have hupper := Nat.lt_floor_add_one (r.toRat / 10 ^ g)
  rw [le_div_iff₀ hpow] at hlower
  rw [div_lt_iff₀ hpow] at hupper
  rcases le_total (r.toRat - ⌊r.toRat / 10 ^ g⌋₊ * 10 ^ g) (10 ^ g / 2) with hnear | hfar
  · refine ⟨_, mem_neighbours.mpr (.inl rfl), ?_⟩
    rw [toRat_strip, toRat, abs_le]
    constructor <;> linarith
  · refine ⟨_, mem_neighbours.mpr (.inr rfl), ?_⟩
    rw [toRat_strip, toRat, abs_le]
    push_cast
    constructor <;> linarith

variable {n : Nat}

/-- On the grid of `n + 1` digits the whole part has `n + 1` digits. -/
theorem floor_bounds (hr : r.Positive) (n : Nat) :
    10 ^ n ≤ ⌊r.toRat / 10 ^ (r.magnitude - n)⌋₊ ∧
      ⌊r.toRat / 10 ^ (r.magnitude - n)⌋₊ < 10 ^ (n + 1) := by
  have hpow : (0 : ℚ) < 10 ^ (r.magnitude - n) := by positivity
  have hsplit : ∀ k : Nat,
      (10 : ℚ) ^ k * 10 ^ (r.magnitude - n) = 10 ^ (r.magnitude + (k - n)) := by
    intro k
    rw [← zpow_natCast, ← zpow_add₀ (by norm_num)]
    congr 1
    ring
  obtain ⟨hlower, hupper⟩ := Ratio.magnitude_spec hr
  constructor
  · rw [Nat.le_floor_iff (le_of_lt (div_pos hr.toRat hpow)), le_div_iff₀ hpow]
    push_cast
    rw [hsplit]
    simpa using hlower
  · rw [Nat.floor_lt (le_of_lt (div_pos hr.toRat hpow)), div_lt_iff₀ hpow]
    push_cast
    rw [hsplit]
    simpa using hupper

/-- A power of ten has one digit without its zeros. -/
theorem length_digits_strip {c : Nat} (hpos : 0 < c) (hle : c ≤ 10 ^ (n + 1)) :
    (Decimal.mk c g).strip.digits.length ≤ n + 1 := by
  obtain ⟨k, hcoefficient, -⟩ := strip_eq ⟨c, g⟩
  have hsignificant := strip_significant (d := ⟨c, g⟩) hpos
  generalize (Decimal.mk c g).strip = d at hcoefficient hsignificant ⊢
  dsimp only at hcoefficient
  have hd : d.coefficient ≤ 10 ^ (n + 1) :=
    le_trans (Nat.le_of_dvd hpos ⟨_, hcoefficient⟩) hle
  have hne : d.coefficient ≠ 10 ^ (n + 1) := fun h => hsignificant (by rw [h, Nat.pow_succ']; omega)
  exact (Nat.length_toDigits_le_iff (by decide) (Nat.succ_pos n)).mpr (lt_of_le_of_ne hd hne)

/-- A neighbour on the grid of `n + 1` digits has no more digits, and none of them is a zero at
the end. -/
theorem digits_neighbour (hr : r.Positive) (h : d ∈ neighbours r (r.magnitude - n)) :
    d.digits.length ≤ n + 1 ∧ d.coefficient % 10 ≠ 0 := by
  obtain ⟨hlower, hupper⟩ := floor_bounds hr n
  have hpos : 0 < 10 ^ n := Nat.pow_pos (by decide)
  rcases mem_neighbours.mp h with rfl | rfl
  · exact ⟨length_digits_strip (by omega) (by omega), strip_significant (by dsimp only; omega)⟩
  · exact ⟨length_digits_strip (by omega) (by omega), strip_significant (by dsimp only; omega)⟩

/-- A decimal of `n + 1` digits that is not below the magnitude is a multiple on the grid. -/
theorem exists_multiple (hd : d.coefficient < 10 ^ (n + 1)) (hle : 10 ^ (g + n) ≤ d.toRat) :
    ∃ k : Nat, d.toRat = k * 10 ^ g := by
  have hexponent : g ≤ d.exponent := by
    by_contra hlt
    have hcast : (d.coefficient : ℚ) < 10 ^ (n + 1) := by exact_mod_cast hd
    have habsurd : d.toRat < 10 ^ (g + n) :=
      calc d.toRat < 10 ^ (n + 1) * 10 ^ d.exponent :=
            mul_lt_mul_of_pos_right hcast (by positivity)
        _ = 10 ^ ((n + 1 : Nat) + d.exponent) := by rw [zpow_add₀ (by norm_num), zpow_natCast]
        _ ≤ 10 ^ (g + n) := zpow_le_zpow_right₀ (by norm_num) (by push_cast; omega)
    linarith
  obtain ⟨j, hj⟩ := Int.le.dest hexponent
  refine ⟨d.coefficient * 10 ^ j, ?_⟩
  rw [toRat, ← hj, zpow_add₀ (by norm_num), zpow_natCast]
  push_cast
  ring

/-- On the grid of a decimal, or a finer one, a neighbour stands between the decimal and the
number. -/
theorem exists_neighbour_between (hr : r.Positive) (hd : d.coefficient < 10 ^ (n + 1)) :
    ∃ d' ∈ neighbours r (r.magnitude - n), (d.toRat ≤ d'.toRat ∧ d'.toRat ≤ r.toRat) ∨
      (r.toRat ≤ d'.toRat ∧ d'.toRat ≤ d.toRat) := by
  have hpow : (0 : ℚ) < 10 ^ (r.magnitude - n) := by positivity
  have hpos : 0 ≤ r.toRat / 10 ^ (r.magnitude - n) := le_of_lt (div_pos hr.toRat hpow)
  have hfloor := Nat.floor_le hpos
  have hnext := Nat.lt_floor_add_one (r.toRat / 10 ^ (r.magnitude - n))
  rw [le_div_iff₀ hpow] at hfloor
  rw [div_lt_iff₀ hpow] at hnext
  have hmultiple : 10 ^ r.magnitude ≤ d.toRat → ∃ k : Nat, d.toRat = k * 10 ^ (r.magnitude - n) :=
    fun h => exists_multiple hd (by rwa [Int.sub_add_cancel])
  rcases le_or_gt d.toRat r.toRat with hbelow | habove
  · refine ⟨_, mem_neighbours.mpr (.inl rfl), .inl ?_⟩
    rw [toRat_strip]
    refine ⟨?_, hfloor⟩
    rcases le_or_gt (10 ^ r.magnitude) d.toRat with hle | hlt
    · obtain ⟨k, hk⟩ := hmultiple hle
      rw [hk, ← le_div_iff₀ hpow, ← Nat.le_floor_iff hpos] at hbelow
      rw [hk]
      exact mul_le_mul_of_nonneg_right (by exact_mod_cast hbelow) (le_of_lt hpow)
    · have hbound : (10 ^ n : ℚ) ≤ ⌊r.toRat / 10 ^ (r.magnitude - n)⌋₊ := by
        exact_mod_cast (floor_bounds hr n).1
      calc d.toRat ≤ 10 ^ r.magnitude := le_of_lt hlt
        _ = 10 ^ n * 10 ^ (r.magnitude - n) := by
          rw [← zpow_natCast, ← zpow_add₀ (by norm_num)]
          congr 1
          ring
        _ ≤ _ := mul_le_mul_of_nonneg_right hbound (le_of_lt hpow)
  · refine ⟨_, mem_neighbours.mpr (.inr rfl), .inr ?_⟩
    rw [toRat_strip]
    refine ⟨by rw [toRat]; push_cast; exact le_of_lt hnext, ?_⟩
    obtain ⟨k, hk⟩ := hmultiple (le_trans (Ratio.magnitude_spec hr).1 (le_of_lt habove))
    rw [hk, ← div_lt_iff₀ hpow, ← Nat.floor_lt hpos] at habove
    rw [hk]
    exact mul_le_mul_of_nonneg_right (by exact_mod_cast habove) (le_of_lt hpow)

end Neighbours

/-! ## Decimals that read back -/

section Finite

variable {m : Nat} {e : Int} {x : Float} {hm : 0 < m} {d d' : Decimal}

/-- A decimal is a positive number where its coefficient is. -/
theorem toRat_pos (h : 0 < d.coefficient) : 0 < d.toRat :=
  mul_pos (by exact_mod_cast h) (by positivity)

/-- What reads as a positive float is no zero. -/
theorem coefficient_pos (hx : x.toModel.unpack = .finite .positive m e hm) (h : d.toFloat = x) :
    0 < d.coefficient := by
  refine Nat.pos_of_ne_zero fun hzero => ?_
  have hrat : d.toRat = 0 := by rw [toRat, hzero, Nat.cast_zero, zero_mul]
  rw [← h, toFloat_eq_nearest, hrat, nearest, roundedTo_zero] at hx
  cases (unpack_pack_zero .positive).symm.trans hx

/-- A decimal reads as a float where it is rounded to the value of the float. -/
theorem toFloat_eq_iff (hx : x.toModel.unpack = .finite .positive m e hm)
    (hd : 0 < d.coefficient) : d.toFloat = x ↔ rounded d.toRat = m * 2 ^ e := by
  rw [toFloat_eq_nearest, nearest_eq_iff hx (toRat_pos hd)]

/-- The value of a float is rounded to itself. -/
theorem rounded_value (hx : x.toModel.unpack = .finite .positive m e hm) :
    rounded (m * 2 ^ e) = m * 2 ^ e :=
  rounded_of_lt (canonical_of_unpack hx).lt (canonical_of_unpack hx).least

/-- **What stands between a float and a decimal that reads back reads back, too.** -/
theorem toFloat_of_between (hx : x.toModel.unpack = .finite .positive m e hm)
    (h : d.toFloat = x) (hbetween : (d.toRat ≤ d'.toRat ∧ d'.toRat ≤ m * 2 ^ e) ∨
      (m * 2 ^ e ≤ d'.toRat ∧ d'.toRat ≤ d.toRat)) : d'.toFloat = x := by
  have hd := coefficient_pos hx h
  have hpos : 0 < d'.toRat := by
    have := toRat_pos hd
    have := (canonical_of_unpack hx).value_pos
    rcases hbetween with ⟨h, -⟩ | ⟨h, -⟩ <;> linarith
  have hrounded := (toFloat_eq_iff hx hd).mp h
  rw [toFloat_eq_nearest, nearest_eq_iff hx hpos]
  rcases hbetween with ⟨hle, hle'⟩ | ⟨hle, hle'⟩
  · refine le_antisymm ?_ ?_
    · rw [← rounded_value hx]
      exact rounded_mono hpos hle'
    · rw [← hrounded]
      exact rounded_mono (toRat_pos hd) hle
  · refine le_antisymm ?_ ?_
    · rw [← hrounded]
      exact rounded_mono hpos hle'
    · rw [← rounded_value hx]
      exact rounded_mono (canonical_of_unpack hx).value_pos hle

/-- **Seventeen digits are enough.** -/
theorem exists_seventeen (hx : x.toModel.unpack = .finite .positive m e hm) :
    ∃ d ∈ neighbours (.ofBinary m e) ((Ratio.ofBinary m e).magnitude - (16 : Nat)),
      d.toFloat = x := by
  have hcanonical := canonical_of_unpack hx
  have hr := Ratio.positive_ofBinary hm e
  obtain ⟨d, hmem, hnear⟩ := exists_near_neighbour hr
    ((Ratio.ofBinary m e).magnitude - (16 : Nat))
  have hmagnitude := (Ratio.magnitude_spec hr).1
  have hgrid : (10 : ℚ) ^ ((Ratio.ofBinary m e).magnitude - (16 : Nat)) * 10 ^ 16 ≤ m * 2 ^ e := by
    rw [← Ratio.toRat_ofBinary, ← zpow_natCast (10 : ℚ) 16, ← zpow_add₀ (by norm_num),
      Int.sub_add_cancel]
    exact hmagnitude
  rw [Ratio.toRat_ofBinary] at hnear
  generalize (10 : ℚ) ^ ((Ratio.ofBinary m e).magnitude - (16 : Nat)) = u at hnear hgrid
  refine ⟨d, hmem, ?_⟩
  -- half a multiple is less than half a last bit, and than a quarter of it at a power of two
  have hpow : (0 : ℚ) < 2 ^ e := by positivity
  have hlt : (m : ℚ) < 2 ^ 53 := by exact_mod_cast hcanonical.lt
  have hvalue : (m : ℚ) * 2 ^ e < 2 ^ 53 * 2 ^ e := mul_lt_mul_of_pos_right hlt hpow
  have hone : (1 : ℚ) ≤ m := by exact_mod_cast hm
  obtain ⟨hlower, hupper⟩ := abs_le.mp hnear
  have hpos : 0 < d.toRat := by nlinarith
  rw [toFloat_eq_nearest, nearest_eq_iff hx hpos]
  refine hcanonical.rounded_of_near ?_ fun hpower => ?_
  · rw [abs_lt]
    constructor <;> linarith
  · rw [hpower] at hlower hgrid
    rw [hpower]
    push_cast at hlower hgrid ⊢
    linarith

/-- On the grid of a decimal that reads back, or a finer one, a neighbour reads back. -/
theorem exists_neighbour (hx : x.toModel.unpack = .finite .positive m e hm) (h : d.toFloat = x)
    {n : Nat} (hd : d.coefficient < 10 ^ (n + 1)) :
    ∃ d' ∈ neighbours (.ofBinary m e) ((Ratio.ofBinary m e).magnitude - n), d'.toFloat = x := by
  obtain ⟨d', hmem, hbetween⟩ := exists_neighbour_between (Ratio.positive_ofBinary hm e) hd
  rw [Ratio.toRat_ofBinary] at hbetween
  exact ⟨d', hmem, toFloat_of_between hx h hbetween⟩

/-! ## The shortest decimal -/

/-- The decimal reads as the float, no zero stands at its end, and no decimal of fewer digits
reads as the float. -/
structure IsShortest (x : Float) (d : Decimal) : Prop where
  reads : d.toFloat = x
  significant : d.coefficient % 10 ≠ 0
  fewest : ∀ d' : Decimal, d'.toFloat = x → d.digits.length ≤ d'.digits.length

/-- The digits of a decimal bound its coefficient. -/
theorem coefficient_lt (d : Decimal) : d.coefficient < 10 ^ d.digits.length :=
  (Nat.length_toDigits_le_iff (by decide) Nat.length_toDigits_pos).mp (le_refl _)

/-- **The candidate that is found is the shortest decimal.** -/
theorem exists_find?_candidates (hx : x.toModel.unpack = .finite .positive m e hm) :
    ∃ d, (candidates (.ofBinary m e)).find? (fun d => d.toFloat = x) = some d ∧ IsShortest x d := by
  have hr := Ratio.positive_ofBinary hm e
  obtain ⟨d₀, hmem, hreads⟩ := exists_seventeen hx
  have hcandidate : d₀ ∈ candidates (.ofBinary m e) :=
    List.mem_flatMap.mpr ⟨16, by decide, hmem⟩
  obtain ⟨d, hfind⟩ : ∃ d, (candidates (.ofBinary m e)).find? (fun d => d.toFloat = x) = some d :=
    Option.isSome_iff_exists.mp (List.find?_isSome.mpr ⟨d₀, hcandidate, decide_eq_true hreads⟩)
  refine ⟨d, hfind, ?_⟩
  rw [candidates, List.find?_flatMap, List.findSome?_eq_some_iff] at hfind
  obtain ⟨before, n, after, hrange, hfound, hbefore⟩ := hfind
  -- the grids before the one of the decimal are those of fewer digits
  have hcoarser : ∀ k < n, k ∈ before := by
    intro k hk
    have hsorted := List.pairwise_lt_range (n := 17)
    rw [hrange] at hsorted
    have hn : n ∈ List.range 17 := by simp [hrange]
    have hk' : k ∈ List.range 17 := List.mem_range.mpr (lt_trans hk (List.mem_range.mp hn))
    rw [hrange, List.mem_append, List.mem_cons] at hk'
    rcases hk' with h | rfl | h
    · exact h
    · exact absurd hk (lt_irrefl k)
    · have hafter := (List.pairwise_cons.mp (List.pairwise_append.mp hsorted).2.1).1 k h
      exact absurd hk (Nat.lt_asymm hafter)
  obtain ⟨hlength, hsignificant⟩ := digits_neighbour hr (List.mem_of_find?_eq_some hfound)
  have hreads := List.find?_some hfound
  refine ⟨of_decide_eq_true hreads, hsignificant, fun d' hd' => ?_⟩
  by_contra hfewer
  obtain ⟨j, hj⟩ : ∃ j, d'.digits.length = j + 1 :=
    ⟨d'.digits.length - 1, by have : 0 < d'.digits.length := Nat.length_toDigits_pos; omega⟩
  have hcoefficient := coefficient_lt d'
  rw [hj] at hcoefficient
  obtain ⟨d'', hmem'', hreads''⟩ := exists_neighbour hx hd' hcoefficient
  have hnone := hbefore j (hcoarser j (by omega))
  rw [List.find?_eq_none] at hnone
  exact hnone d'' hmem'' (decide_eq_true hreads'')

/-- The integer that a positive float equals. -/
theorem whole?_eq (hx : x.toModel.unpack = .finite .positive m e hm) {n : Int}
    (h : whole? x = some n) : (n.toNat : ℚ) = m * 2 ^ e := by
  obtain ⟨k, rfl, hk⟩ := (whole?_eq_some_iff hx).mp h
  exact hk

/-- A natural number of at most 53 bits is rounded to itself. -/
theorem rounded_natCast {n : Nat} (h : n < 2 ^ 53) : rounded n = n := by
  have hrounded := rounded_of_lt (e := 0) h (by decide)
  rwa [zpow_zero, mul_one] at hrounded

/-- Multiples of powers of ten that are equal have the same digits before the zeros, or more. -/
theorem le_of_mul_pow_eq {a b j k : Nat} (ha : a % 10 ≠ 0) (h : a * 10 ^ j = b * 10 ^ k) :
    a ≤ b := by
  rcases le_or_gt k j with hle | hlt
  · obtain ⟨i, rfl⟩ := Nat.exists_eq_add_of_le hle
    rw [Nat.pow_add, Nat.mul_left_comm, Nat.mul_comm b] at h
    rw [← Nat.eq_of_mul_eq_mul_left (Nat.pow_pos (by decide)) h]
    exact Nat.le_mul_of_pos_right a (Nat.pow_pos (by decide))
  · obtain ⟨i, rfl⟩ := Nat.exists_eq_add_of_lt hlt
    rw [Nat.add_assoc, Nat.pow_add, Nat.mul_left_comm, Nat.mul_comm a] at h
    refine absurd ?_ ha
    rw [Nat.eq_of_mul_eq_mul_left (Nat.pow_pos (by decide)) h, Nat.pow_succ', Nat.mul_left_comm,
      Nat.mul_mod_right]

/-- What is at least `2 ^ 53` is not rounded to less. -/
theorem le_rounded {n : Nat} (h : 2 ^ 53 ≤ n) : 2 ^ 53 ≤ rounded n := by
  have hpower : rounded ((2 ^ 52 : Nat) * 2 ^ (1 : Int)) = (2 ^ 52 : Nat) * 2 ^ (1 : Int) :=
    rounded_of_lt (by norm_num) (by norm_num)
  have hle : ((2 ^ 52 : Nat) : ℚ) * 2 ^ (1 : Int) ≤ n := by
    rw [zpow_one]
    exact_mod_cast h
  have hmono := rounded_mono (by positivity) hle
  rw [hpower] at hmono
  norm_num at hmono ⊢
  exact hmono

/-- Without its last digit a decimal is so much less that it is rounded to less. -/
theorem rounded_lt_of_fraction {n : Nat} (hd : 0 < d.coefficient) (hfraction : d.exponent < 0)
    (hle : d.coefficient ≤ n) (hten : 10 ≤ n) (hsafe : n < 2 ^ 53) : rounded d.toRat < n := by
  have htenth : d.toRat ≤ d.coefficient * (10 : ℚ) ^ (-1 : Int) :=
    mul_le_mul_of_nonneg_left (zpow_le_zpow_right₀ (by norm_num) (by omega)) (by positivity)
  obtain ⟨k, rfl⟩ : ∃ k, n = k + 1 := ⟨n - 1, by omega⟩
  have hcoefficient : (d.coefficient : ℚ) ≤ k + 1 := by exact_mod_cast hle
  have hnine : (9 : ℚ) ≤ k := by exact_mod_cast (show 9 ≤ k by omega)
  have hbelow : d.toRat ≤ k := by
    rw [zpow_neg_one] at htenth
    linarith
  have hmono := rounded_mono (toRat_pos hd) hbelow
  rw [rounded_natCast (by omega)] at hmono
  push_cast
  linarith

/-- Another decimal that reads as a whole number has no fewer digits than the number. -/
theorem le_of_toFloat_whole (hx : x.toModel.unpack = .finite .positive m e hm) {s k : Nat}
    (hvalue : ((s * 10 ^ k : Nat) : ℚ) = m * 2 ^ e) (hsafe : s * 10 ^ k < 2 ^ 53)
    (hs : s % 10 ≠ 0) (h : d.toFloat = x) : s < 10 ^ d.digits.length := by
  by_contra hfewer
  have hfewer := not_lt.mp hfewer
  have hd := coefficient_pos hx h
  have hlt := coefficient_lt d
  have hrounded := (toFloat_eq_iff hx hd).mp h
  rw [← hvalue] at hrounded
  have hle : s ≤ s * 10 ^ k := Nat.le_mul_of_pos_right s (Nat.pow_pos (by decide))
  rcases le_or_gt 0 d.exponent with hwhole | hfraction
  · obtain ⟨q, hq⟩ := Int.eq_ofNat_of_zero_le hwhole
    have hrat : d.toRat = (d.coefficient * 10 ^ q : Nat) := by
      rw [toRat, hq, zpow_natCast]
      push_cast
      rfl
    rw [hrat] at hrounded
    rcases lt_or_ge (d.coefficient * 10 ^ q) (2 ^ 53) with hsmall | hlarge
    · -- both are exact, so they are the same number
      rw [rounded_natCast hsmall] at hrounded
      have hsame : s * 10 ^ k = d.coefficient * 10 ^ q := by exact_mod_cast hrounded.symm
      have := le_of_mul_pow_eq hs hsame
      omega
    · have hle' := le_rounded hlarge
      rw [hrounded] at hle'
      have : 2 ^ 53 ≤ s * 10 ^ k := by exact_mod_cast hle'
      omega
  · have hten : 10 ≤ 10 ^ d.digits.length :=
      Nat.le_self_pow (Nat.ne_of_gt Nat.length_toDigits_pos) 10
    have hless := rounded_lt_of_fraction hd hfraction (by omega) (by omega) hsafe
    exact absurd hrounded (ne_of_lt hless)

/-- **The digits of a whole number are the shortest decimal.** -/
theorem isShortest_whole (hx : x.toModel.unpack = .finite .positive m e hm) {n : Int}
    (h : safeWhole? x = some n) : IsShortest x (Decimal.mk n.toNat 0).strip := by
  obtain ⟨hwhole, hsafe⟩ := Option.filter_eq_some_iff.mp h
  have hvalue := whole?_eq hx hwhole
  have hsafe : n.natAbs ≤ 9007199254740991 := of_decide_eq_true hsafe
  have hpos : 0 < n.toNat := by
    have := (canonical_of_unpack hx).value_pos
    rw [← hvalue] at this
    exact_mod_cast this
  have hrat : (Decimal.mk n.toNat 0).toRat = m * 2 ^ e := by
    rw [toRat, zpow_zero, mul_one, hvalue]
  have hsignificant := strip_significant (d := ⟨n.toNat, 0⟩) hpos
  refine ⟨?_, hsignificant, fun d' hd' => ?_⟩
  · rw [toFloat_strip, toFloat_eq_iff hx hpos, hrat, rounded_value hx]
  · obtain ⟨k, hcoefficient, -⟩ := strip_eq ⟨n.toNat, 0⟩
    dsimp only at hcoefficient
    have hlt := le_of_toFloat_whole (k := k) hx (by rw [← hcoefficient, hvalue])
      (by rw [← hcoefficient]; omega) hsignificant hd'
    exact (Nat.length_toDigits_le_iff (by decide) Nat.length_toDigits_pos).mpr hlt

/-- The search finds the shortest decimal. -/
theorem isShortest_shortestOf (hx : x.toModel.unpack = .finite .positive m e hm) :
    IsShortest x (shortestOf x m e) := by
  rw [shortestOf]
  cases hwhole : safeWhole? x with
  | some n => exact isShortest_whole hx hwhole
  | none =>
    obtain ⟨d, hfind, hshortest⟩ := exists_find?_candidates hx
    rw [Option.map_none, hfind]
    exact hshortest

end Finite

/-- **The shortest decimal of a float reads as its magnitude, and no shorter one does.** -/
theorem isShortest_shortest {x : Float} {s : Sign} {m : Nat} {e : Int} {hm : 0 < m}
    (hx : x.toModel.unpack = .finite s m e hm) : IsShortest x.abs (shortest x) := by
  rw [shortest, hx]
  exact isShortest_shortestOf (unpack_abs hx)

end ExprSandbox.Decimal
