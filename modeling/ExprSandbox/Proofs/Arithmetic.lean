import ExprSandbox.Proofs.Nearest

/-!
# Sums and products of floats

Products and sums of floats that are not negative are rounded once (`mul_eq_nearest`,
`add_eq_nearest`).  So a power of two as a factor moves the exponent only, also where the product
is too great for a float (`ofPair_mul`), and a summand that is less than half of the last bit is
lost (`ofPair_add`).
-/

namespace ExprSandbox.Number

open Float.Model (Format UnpackedFloat totalExponent)
open Float.Model.UnpackedFloat

/-! ## Values of floats -/

/-- The float is zero or positive, and it equals the number. -/
abbrev Equals (x : Float) (v : ℚ) : Prop :=
  HasValue x.toModel.unpack v

section Equals

variable {x y : Float} {v w : ℚ} {m : Nat} {e : Int}

/-- A number of at most 53 bits is a float where it is not too great. -/
theorem equals_nearest (hm : m < 2 ^ 53) (hleast : -1074 ≤ e) (he : e ≤ 971) :
    Equals (nearest (m * 2 ^ e)) (m * 2 ^ e) := by
  rcases Nat.eq_zero_or_pos m with rfl | hpos
  · have hzero : ((0 : Nat) : ℚ) * 2 ^ e = 0 := by rw [Nat.cast_zero, zero_mul]
    unfold Equals nearest
    rw [hzero, roundedTo_zero, unpack_pack_zero]
    exact .zero
  · have hv : (0 : ℚ) < m * 2 ^ e := mul_pos (by exact_mod_cast hpos) (by positivity)
    have hvalue := hasValue_roundedTo hv
    have hlast := lastExponent_le hm hpos hleast
    rw [rounded_of_lt hm hleast] at hvalue
    unfold Equals nearest
    generalize roundedTo .positive (m * 2 ^ e) = u at hvalue ⊢
    generalize (m : ℚ) * 2 ^ e = v at hvalue hlast hv ⊢
    cases hvalue with
    | zero => exact absurd hv (lt_irrefl 0)
    | finite hcanonical =>
      rw [hcanonical.lastExponent] at hlast
      rw [unpack_pack hcanonical _ (by omega)]
      exact .finite hcanonical

/-- **A product is rounded once.** -/
theorem mul_eq_nearest (hx : Equals x v) (hy : Equals y w) : x * y = nearest (v * w) := by
  show Float.ofModel (.pack (UnpackedFloat.mul spec x.toModel.unpack y.toModel.unpack)) = _
  unfold Equals at hx hy
  generalize x.toModel.unpack = a at hx
  generalize y.toModel.unpack = b at hy
  cases hx with
  | zero =>
    rw [zero_mul, nearest, roundedTo_zero]
    cases hy <;> rfl
  | @finite m e hm =>
    cases hy with
    | zero =>
      rw [mul_zero, nearest, roundedTo_zero]
      rfl
    | @finite n f hn =>
      have hpos : (0 : ℚ) < (m * n : Nat) := by exact_mod_cast Nat.mul_pos hm.pos hn.pos
      have hvalue : (m : ℚ) * 2 ^ e * (n * 2 ^ f) = (m * n : Nat) * 2 ^ (e + f) := by
        rw [zpow_add₀ two_ne_zero]
        push_cast
        ring
      have hE : e + f ≤ lastExponent ((m * n : Nat) * 2 ^ (e + f)) := by
        have hfull : 2 ^ 52 ≤ m ∨ 2 ^ 52 ≤ n → 52 ≤ Nat.log 2 (m * n) := by
          refine fun h => Nat.le_log_of_pow_le (by decide) (h.elim (fun h => ?_) fun h => ?_)
          · exact Nat.le_trans h (Nat.le_mul_of_pos_right m hn.pos)
          · exact Nat.le_trans h (Nat.le_mul_of_pos_left n hm.pos)
        have := hm.full
        have := hn.full
        rw [lastExponent, log_mul_zpow hpos, Int.log_natCast]
        omega
      have hround := roundWithAccuracy_eq (s := .positive) (holds_exact (m * n)) hpos hE
      rw [hvalue, nearest, ← hround]
      rfl

/-- **A sum is rounded once.** -/
theorem add_eq_nearest (hx : Equals x v) (hy : Equals y w) : x + y = nearest (v + w) := by
  show Float.ofModel (.pack (UnpackedFloat.add spec x.toModel.unpack y.toModel.unpack)) = _
  unfold Equals at hx hy
  generalize x.toModel.unpack = a at hx
  generalize y.toModel.unpack = b at hy
  cases hx with
  | zero =>
    rw [zero_add, nearest, ← HasValue.eq_roundedTo hy]
    cases hy <;> rfl
  | @finite m e hm =>
    cases hy with
    | zero =>
      rw [add_zero, nearest, hm.roundedTo]
      rfl
    | @finite n f hn =>
      obtain ⟨i, hi⟩ : ∃ i : Nat, e = min e f + i := ⟨(e - min e f).toNat, by omega⟩
      obtain ⟨j, hj⟩ : ∃ j : Nat, f = min e f + j := ⟨(f - min e f).toNat, by omega⟩
      have hsum : 0 < m <<< i + n <<< j := by
        rw [Nat.shiftLeft_eq]
        exact Nat.add_pos_left (Nat.mul_pos hm.pos (Nat.two_pow_pos i)) _
      have hvalue : ((m <<< i + n <<< j : Nat) : ℚ) * 2 ^ min e f = m * 2 ^ e + n * 2 ^ f := by
        have hleft : (2 : ℚ) ^ e = 2 ^ min e f * 2 ^ i := by
          rw [← zpow_natCast, ← zpow_add₀ two_ne_zero, ← hi]
        have hright : (2 : ℚ) ^ f = 2 ^ min e f * 2 ^ j := by
          rw [← zpow_natCast, ← zpow_add₀ two_ne_zero, ← hj]
        rw [hleft, hright, Nat.shiftLeft_eq, Nat.shiftLeft_eq]
        push_cast
        ring
      have hround := round_eq hsum .positive (min e f)
      rw [hvalue] at hround
      have hleft : (e - min e f).toNat = i := by omega
      have hright : (f - min e f).toNat = j := by omega
      have hcast : ((m <<< i : Nat) : Int) + (n <<< j : Nat) = (m <<< i + n <<< j : Nat) := by
        push_cast
        rfl
      have hcompare : compare ((m <<< i + n <<< j : Nat) : Int) 0 = .gt :=
        Int.compare_eq_gt.mpr (by exact_mod_cast hsum)
      rw [nearest, ← hround]
      simp only [UnpackedFloat.add, decreaseExponent, hleft, hright, Sign.apply, hcast,
        UnpackedFloat.normalize, hcompare, Int.toNat_natCast]

/-- A natural number of at most 53 bits is a float. -/
theorem equals_ofNat {n : Nat} (h : n < 2 ^ 53) : Equals (ofNat n) n := by
  have hvalue := equals_nearest (e := 0) h (by decide) (by decide)
  rwa [zpow_zero, mul_one, ← ofNat_eq_nearest] at hvalue

/-- Infinity is not changed by a positive factor. -/
theorem infinity_mul (hy : Equals y w) (hw : 0 < w) : infinity * y = infinity := by
  show Float.ofModel (.pack (UnpackedFloat.mul spec infinity.toModel.unpack y.toModel.unpack)) = _
  have hinfinity : infinity.toModel.unpack = .infinity .positive := unpack_pack_infinity _
  unfold Equals at hy
  rw [hinfinity]
  generalize y.toModel.unpack = b at hy
  cases hy with
  | zero => exact absurd hw (lt_irrefl 0)
  | finite => rfl

/-- Infinity is not changed by a summand. -/
theorem infinity_add (hy : Equals y w) : infinity + y = infinity := by
  show Float.ofModel (.pack (UnpackedFloat.add spec infinity.toModel.unpack y.toModel.unpack)) = _
  have hinfinity : infinity.toModel.unpack = .infinity .positive := unpack_pack_infinity _
  unfold Equals at hy
  rw [hinfinity]
  generalize y.toModel.unpack = b at hy
  cases hy <;> rfl

end Equals

/-! ## Pairs -/

section OfPair

variable {m : Nat} {e : Int}

/-- The float of a canonical pair: infinity, where its exponent is too great. -/
def ofPair (h : Canonical m e) : Float :=
  .ofModel (.pack (.finite .positive m e h.pos))

/-- A number is the float of the pair that it is rounded to. -/
theorem nearest_eq_ofPair {v : ℚ} (hv : 0 < v) (h : Canonical m e)
    (hrounded : rounded v = m * 2 ^ e) : nearest v = ofPair h := by
  have hvalue := hasValue_roundedTo hv
  rw [hrounded] at hvalue
  rw [nearest, hvalue.eq_roundedTo, h.roundedTo, ofPair]

/-- A number is the float of a pair. -/
theorem nearest_value (h : Canonical m e) : nearest (m * 2 ^ e) = ofPair h :=
  nearest_eq_ofPair h.value_pos h (rounded_of_lt h.lt h.least)

/-- A pair whose exponent is not too great is a float of its value. -/
theorem equals_ofPair (h : Canonical m e) (he : e ≤ 971) : Equals (ofPair h) (m * 2 ^ e) := by
  rw [← nearest_value h]
  exact equals_nearest h.lt h.least he

/-- A pair whose exponent is too great is infinity. -/
theorem ofPair_overflow (h : Canonical m e) (he : 971 < e) : ofPair h = infinity := by
  rw [ofPair, pack_overflow he, infinity]

/-- **A power of two as a factor is added to the exponent.** -/
theorem ofPair_mul {j : Nat} (h : Canonical m e) (h' : Canonical m (e + j)) (hj : j < 53) :
    ofPair h * ofNat (2 ^ j) = ofPair h' := by
  have hfactor : Equals (ofNat (2 ^ j)) (2 ^ j : Nat) :=
    equals_ofNat (Nat.pow_lt_pow_right (by decide) hj)
  rcases le_or_gt e 971 with he | he
  · have hvalue : (m : ℚ) * 2 ^ e * (2 ^ j : Nat) = m * 2 ^ (e + j) := by
      rw [zpow_add₀ two_ne_zero, zpow_natCast]
      push_cast
      ring
    rw [mul_eq_nearest (equals_ofPair h he) hfactor, hvalue, nearest_value h']
  · rw [ofPair_overflow h he, ofPair_overflow h' (by omega), infinity_mul hfactor (by positivity)]

/-- **A summand that is less than half of the last bit is lost.** -/
theorem ofPair_add {d : Nat} (h : Canonical m e) (hd : d < 2 ^ 53) (hless : (d : ℚ) < 2 ^ e / 2) :
    ofPair h + ofNat d = ofPair h := by
  have hsummand := equals_ofNat hd
  rcases le_or_gt e 971 with he | he
  · have hpos := h.value_pos
    have hnonneg : (0 : ℚ) ≤ d := Nat.cast_nonneg d
    have hpow : (0 : ℚ) < 2 ^ e := by positivity
    rw [add_eq_nearest (equals_ofPair h he) hsummand]
    refine nearest_eq_ofPair (by linarith) h (h.rounded_of_near ?_ fun _ => by linarith)
    rw [add_sub_cancel_left, abs_of_nonneg hnonneg]
    exact hless
  · rw [ofPair_overflow h he, infinity_add hsummand]

end OfPair

end ExprSandbox.Number
