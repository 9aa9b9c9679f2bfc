import ExprSandbox.Proofs.Canonical

/-!
# Rounding to the nearest float

A positive rational number has a last bit (`lastExponent`), the least one that a float of its size
can have.  Rounding takes the nearest multiple of this bit, and of two that are equally near the
even one (`roundedTo`).  What the float operations compute with round and sticky bits is this
multiple (`roundWithAccuracy_eq`).
-/

namespace ExprSandbox.Number

open Float.Model (Format UnpackedFloat totalExponent)
open Float.Model.UnpackedFloat

/-! ## The nearest natural number -/

/-- The natural number nearest to a number that is not negative; a half goes to the even
neighbour. -/
def nearestEven (q : ℚ) : Nat :=
  if q < ⌊q⌋₊ + 1 / 2 then ⌊q⌋₊ else if q = ⌊q⌋₊ + 1 / 2 then ⌊q⌋₊ + ⌊q⌋₊ % 2 else ⌊q⌋₊ + 1

section NearestEven

variable {q : ℚ} {n : Nat}

/-- Nearest means not more than a half away, and a half away only if even. -/
theorem nearestEven_eq_iff (hq : 0 ≤ q) :
    nearestEven q = n ↔ |q - n| ≤ 1 / 2 ∧ (|q - n| = 1 / 2 → Even n) := by
  have hfloor : (⌊q⌋₊ : ℚ) ≤ q := Nat.floor_le hq
  have hlt : q < ⌊q⌋₊ + 1 := Nat.lt_floor_add_one q
  -- two numbers that are equally near follow each other, and only one of them is even
  have hunique : ∀ a b : Nat, a < b → |q - a| ≤ 1 / 2 → |q - b| ≤ 1 / 2 →
      (|q - a| = 1 / 2 → Even a) → ¬ (|q - b| = 1 / 2 → Even b) := by
    intro a b hab ha hb heven heven'
    have hstep : (a : ℚ) + 1 ≤ b := by exact_mod_cast hab
    have hhalf : q - a = 1 / 2 := by linarith [(abs_le.mp ha).2, (abs_le.mp hb).1]
    have hhalf' : q - b = -(1 / 2) := by linarith [(abs_le.mp ha).2, (abs_le.mp hb).1]
    obtain rfl : b = a + 1 := by
      have : (b : ℚ) = ((a + 1 : Nat) : ℚ) := by push_cast; linarith
      exact_mod_cast this
    have := heven (by rw [hhalf]; norm_num)
    have := heven' (by rw [hhalf']; norm_num)
    grind
  have hnearest : |q - nearestEven q| ≤ 1 / 2 ∧
      (|q - nearestEven q| = 1 / 2 → Even (nearestEven q)) := by
    unfold nearestEven
    split
    · next hbelow =>
      have habs : |q - ⌊q⌋₊| < 1 / 2 := abs_lt.mpr ⟨by linarith, by linarith⟩
      exact ⟨le_of_lt habs, fun h => absurd h (ne_of_lt habs)⟩
    split
    · next htie =>
      rcases Nat.even_or_odd ⌊q⌋₊ with heven | hodd
      · rw [Nat.even_iff.mp heven, Nat.add_zero]
        have habs : |q - ⌊q⌋₊| = 1 / 2 := abs_eq (by norm_num) |>.mpr (.inl (by linarith))
        exact ⟨le_of_eq habs, fun _ => heven⟩
      · rw [Nat.odd_iff.mp hodd]
        have habs : |q - (⌊q⌋₊ + 1 : Nat)| = 1 / 2 :=
          abs_eq (by norm_num) |>.mpr (.inr (by push_cast; linarith))
        exact ⟨le_of_eq habs, fun _ => hodd.add_one⟩
    · next hbelow hne =>
      have habove : (⌊q⌋₊ : ℚ) + 1 / 2 < q := lt_of_le_of_ne (not_lt.mp hbelow) (Ne.symm hne)
      have habs : |q - (⌊q⌋₊ + 1 : Nat)| < 1 / 2 :=
        abs_lt.mpr ⟨by push_cast; linarith, by push_cast; linarith⟩
      exact ⟨le_of_lt habs, fun h => absurd h (ne_of_lt habs)⟩
  constructor
  · rintro rfl
    exact hnearest
  · rintro ⟨hle, heven⟩
    rcases Nat.lt_trichotomy (nearestEven q) n with hlt | heq | hgt
    · exact absurd heven (hunique _ _ hlt hnearest.1 hle hnearest.2)
    · exact heq
    · exact absurd hnearest.2 (hunique _ _ hgt hle hnearest.1 heven)

/-- Less than a half away is nearest. -/
theorem nearestEven_eq_of_lt (hq : 0 ≤ q) (h : |q - n| < 1 / 2) : nearestEven q = n :=
  (nearestEven_eq_iff hq).mpr ⟨le_of_lt h, fun heq => absurd heq (ne_of_lt h)⟩

/-- A natural number is the nearest one to itself. -/
theorem nearestEven_natCast (n : Nat) : nearestEven n = n :=
  nearestEven_eq_of_lt (Nat.cast_nonneg n) (by norm_num)

/-- The greater number has the greater neighbour. -/
theorem nearestEven_mono {q' : ℚ} (hq : 0 ≤ q) (h : q ≤ q') : nearestEven q ≤ nearestEven q' := by
  obtain ⟨hle, -⟩ := (nearestEven_eq_iff hq).mp rfl
  obtain ⟨hle', -⟩ := (nearestEven_eq_iff (le_trans hq h)).mp rfl
  by_contra hlt
  have hstep : (nearestEven q' : ℚ) + 1 ≤ nearestEven q := by exact_mod_cast not_le.mp hlt
  have hsame : q = q' := by linarith [(abs_le.mp hle).1, (abs_le.mp hle').2]
  exact hlt (le_of_eq (congrArg nearestEven hsame))

/-- No natural number is rounded to a lesser one. -/
theorem le_nearestEven (h : (n : ℚ) ≤ q) : n ≤ nearestEven q := by
  have hmono := nearestEven_mono (Nat.cast_nonneg n) h
  rwa [nearestEven_natCast] at hmono

/-- No natural number is rounded to a greater one. -/
theorem nearestEven_le (hq : 0 ≤ q) (h : q ≤ n) : nearestEven q ≤ n := by
  have hmono := nearestEven_mono hq h
  rwa [nearestEven_natCast] at hmono

end NearestEven

/-! ## Round and sticky bits -/

/-- The mantissa is the whole part of the number, the round bit says whether a half is left of it,
and the sticky bit whether more than that is left. -/
def Holds (em : ExtendedMantissa) (q : ℚ) : Prop :=
  ∃ r : ℚ, 0 ≤ r ∧ r < 1 / 2 ∧ q = em.mantissa + (em.roundBit.toNat : ℚ) / 2 + r ∧
    (em.stickyBit = true ↔ r ≠ 0)

section Holds

variable {em : ExtendedMantissa} {q : ℚ}

/-- A mantissa alone is a whole number. -/
theorem holds_exact (m : Nat) : Holds (.ofMantissaAndAccuracy m .exact) m :=
  ⟨0, by simp [ExtendedMantissa.ofMantissaAndAccuracy]⟩

/-- The bits of a quotient are those of its remainder. -/
theorem holds_quotient (a : Nat) {b : Nat} (hb : 0 < b) :
    Holds (.ofMantissaAndAccuracy (a / b) (accuracyOfFraction (a % b) b)) (a / b) := by
  have hpos : (0 : ℚ) < b := by exact_mod_cast hb
  have hdiv : (a : ℚ) = b * (a / b : Nat) + (a % b : Nat) := by
    exact_mod_cast (Nat.div_add_mod a b).symm
  have hmod : ((a % b : Nat) : ℚ) < b := by exact_mod_cast Nat.mod_lt a hb
  obtain ⟨r, hr⟩ : ∃ r : ℚ, r = (a % b : Nat) / (b : ℚ) := ⟨_, rfl⟩
  have hscaled : r * b = (a % b : Nat) := by rw [hr, div_mul_cancel₀ _ (ne_of_gt hpos)]
  have hvalue : (a : ℚ) / b = (a / b : Nat) + r := by
    rw [div_eq_iff (ne_of_gt hpos), hdiv, add_mul, hscaled, mul_comm]
  have hnonneg : 0 ≤ r := by rw [hr]; positivity
  have hlt : r < 1 := by rwa [hr, div_lt_one hpos]
  unfold accuracyOfFraction
  split
  · next hzero =>
    have hr0 : r = 0 := by rw [hr, hzero, Nat.cast_zero, zero_div]
    exact ⟨0, le_refl 0, by norm_num, by simp [ExtendedMantissa.ofMantissaAndAccuracy, hvalue, hr0],
      by simp [ExtendedMantissa.ofMantissaAndAccuracy]⟩
  · next hne =>
    have hne' : (0 : ℚ) < (a % b : Nat) := by exact_mod_cast Nat.pos_of_ne_zero hne
    have hr0 : 0 < r := by rw [hr]; positivity
    cases hcompare : compare (2 * (a % b)) b with
    | lt =>
      have hcast : 2 * ((a % b : Nat) : ℚ) < b := by exact_mod_cast Nat.compare_eq_lt.mp hcompare
      have hbelow : r < 1 / 2 := by rw [hr, div_lt_iff₀ hpos]; linarith
      exact ⟨r, hnonneg, hbelow, by simp [ExtendedMantissa.ofMantissaAndAccuracy, hvalue],
        by simpa [ExtendedMantissa.ofMantissaAndAccuracy] using ne_of_gt hr0⟩
    | eq =>
      have hcast : 2 * ((a % b : Nat) : ℚ) = b := by exact_mod_cast Nat.compare_eq_eq.mp hcompare
      have htie : r = 1 / 2 := by rw [hr, div_eq_iff (ne_of_gt hpos)]; linarith
      exact ⟨0, le_refl 0, by norm_num,
        by simp [ExtendedMantissa.ofMantissaAndAccuracy, hvalue, htie],
        by simp [ExtendedMantissa.ofMantissaAndAccuracy]⟩
    | gt =>
      have hcast : (b : ℚ) < 2 * ((a % b : Nat) : ℚ) := by
        exact_mod_cast Nat.compare_eq_gt.mp hcompare
      have habove : 1 / 2 < r := by rw [hr, lt_div_iff₀ hpos]; linarith
      refine ⟨r - 1 / 2, by linarith, by linarith, ?_, ?_⟩
      · simp only [ExtendedMantissa.ofMantissaAndAccuracy, hvalue, Bool.toNat_true, Nat.cast_one]
        ring
      · simpa [ExtendedMantissa.ofMantissaAndAccuracy, sub_eq_zero] using ne_of_gt habove

/-- A shift halves the number. -/
theorem Holds.shiftRightOne (h : Holds em q) : Holds em.shiftRightOne (q / 2) := by
  obtain ⟨r, hnonneg, hlt, rfl, hsticky⟩ := h
  have hmantissa : (em.mantissa : ℚ) = 2 * (em.mantissa / 2 : Nat) + (em.mantissa % 2 : Nat) := by
    exact_mod_cast (Nat.div_add_mod em.mantissa 2).symm
  have hround : em.shiftRightOne.roundBit.toNat = em.mantissa % 2 := by
    show (em.mantissa % 2 != 0).toNat = _
    rcases Nat.mod_two_eq_zero_or_one em.mantissa with hmod | hmod <;> rw [hmod] <;> rfl
  refine ⟨((em.roundBit.toNat : ℚ) / 2 + r) / 2, by positivity, ?_, ?_, ?_⟩
  · cases em.roundBit <;> norm_num <;> linarith
  · rw [hround, ExtendedMantissa.shiftRightOne, hmantissa]
    ring
  · rw [ExtendedMantissa.shiftRightOne, Bool.or_eq_true, hsticky]
    cases em.roundBit with
    | false => simp
    | true => simpa using ne_of_gt (show 0 < 1 / 2 + r by linarith)

/-- Shifts divide the number by a power of two. -/
theorem Holds.shiftRight (h : Holds em q) (k : Nat) : Holds (em >>> k) (q / 2 ^ k) := by
  induction k with
  | zero =>
    rw [pow_zero, div_one]
    exact h
  | succ k ih =>
    rw [pow_succ, ← div_div]
    exact ih.shiftRightOne

/-- The mantissa is the whole part. -/
theorem Holds.mantissa (h : Holds em q) : em.mantissa = ⌊q⌋₊ := by
  obtain ⟨r, hnonneg, hlt, rfl, -⟩ := h
  symm
  rw [Nat.floor_eq_iff (by positivity)]
  cases em.roundBit <;> constructor <;> norm_num <;> linarith

/-- Rounding the mantissa takes the nearest natural number. -/
theorem Holds.roundedMantissa (h : Holds em q) : em.roundedMantissa = nearestEven q := by
  have hfloor := h.mantissa
  obtain ⟨r, hnonneg, hlt, hq, hsticky⟩ := h
  unfold nearestEven
  rw [← hfloor]
  obtain ⟨m, round, sticky⟩ := em
  dsimp only at hq hsticky
  cases round with
  | false =>
    have hbelow : q < m + 1 / 2 := by rw [hq]; norm_num; linarith
    rw [if_pos hbelow]
    cases sticky <;> rfl
  | true =>
    have hvalue : q = m + 1 / 2 + r := by rw [hq]; norm_num
    rw [if_neg (not_lt.mpr (by linarith))]
    cases sticky with
    | false =>
      have hzero : r = 0 := by simpa using hsticky
      rw [if_pos (by rw [hvalue, hzero, add_zero])]
      rfl
    | true =>
      have hpos : r ≠ 0 := hsticky.mp rfl
      rw [if_neg fun h => hpos (by linarith)]
      rfl

end Holds

/-! ## The last bit -/

/-- The exponent of the last bit that a float near the number has. -/
def lastExponent (v : ℚ) : Int :=
  max (Int.log 2 v - 52) (-1074)

section LastExponent

variable {v : ℚ} {g : Int}

/-- The exponent that rounding aims at. -/
theorem targetExponent_eq (t : Int) : spec.targetExponent t = max (t - 53) (-1074) := rfl

/-- No exponent is less than the least one. -/
theorem le_lastExponent (v : ℚ) : -1074 ≤ lastExponent v := le_max_right _ _

/-- A number is less than `2 ^ 53` last bits. -/
theorem lt_two_pow_lastExponent (v : ℚ) : v < 2 ^ 53 * 2 ^ lastExponent v := by
  have hlog : v < (2 : ℚ) ^ (Int.log 2 v + 1) := Int.lt_zpow_succ_log_self (by decide) v
  have hle : Int.log 2 v + 1 ≤ 53 + lastExponent v := by
    have := le_max_left (Int.log 2 v - 52) (-1074)
    unfold lastExponent
    omega
  calc v < (2 : ℚ) ^ (Int.log 2 v + 1) := hlog
    _ ≤ 2 ^ (53 + lastExponent v) := zpow_le_zpow_right₀ (by norm_num) hle
    _ = 2 ^ 53 * 2 ^ lastExponent v := by rw [zpow_add₀ two_ne_zero]; norm_num

/-- A number is at least `2 ^ 52` last bits, unless the last bit is the least one. -/
theorem two_pow_lastExponent_le (hv : 0 < v) :
    2 ^ 52 * 2 ^ lastExponent v ≤ v ∨ lastExponent v = -1074 := by
  rcases max_choice (Int.log 2 v - 52) (-1074) with hlog | hleast
  · refine .inl ?_
    calc (2 : ℚ) ^ 52 * 2 ^ lastExponent v = 2 ^ (52 + lastExponent v) := by
          rw [zpow_add₀ two_ne_zero]; norm_num
      _ = 2 ^ Int.log 2 v := by rw [lastExponent, hlog]; congr 1; omega
      _ ≤ v := by exact_mod_cast Int.zpow_log_le_self (by decide) hv
  · exact .inr hleast

/-- These bounds tell the last bit. -/
theorem lastExponent_eq (hv : 0 < v) (least : -1074 ≤ g) (lt : v < 2 ^ 53 * 2 ^ g)
    (full : 2 ^ 52 * 2 ^ g ≤ v ∨ g = -1074) : lastExponent v = g := by
  have hupper : Int.log 2 v < 53 + g := by
    rw [← Int.lt_zpow_iff_log_lt (by decide) hv]
    calc v < 2 ^ 53 * 2 ^ g := lt
      _ = ((2 : Nat) : ℚ) ^ (53 + g) := by
        rw [Nat.cast_ofNat, zpow_add₀ two_ne_zero]; norm_num
  rcases full with hlower | rfl
  · have hle : 52 + g ≤ Int.log 2 v := by
      rw [← Int.zpow_le_iff_le_log (by decide) hv]
      calc ((2 : Nat) : ℚ) ^ (52 + g) = 2 ^ 52 * 2 ^ g := by
            rw [Nat.cast_ofNat, zpow_add₀ two_ne_zero]; norm_num
        _ ≤ v := hlower
    unfold lastExponent
    omega
  · unfold lastExponent
    omega

/-- The greater number has the greater last bit. -/
theorem lastExponent_mono {w : ℚ} (hv : 0 < v) (h : v ≤ w) : lastExponent v ≤ lastExponent w :=
  max_le_max_right _ (Int.sub_le_sub_right (Int.log_mono_right hv h) 52)

/-- A power of two as a factor adds to the logarithm. -/
theorem log_mul_zpow {q : ℚ} (hq : 0 < q) (E : Int) : Int.log 2 (q * 2 ^ E) = Int.log 2 q + E := by
  have hpow : (0 : ℚ) < 2 ^ E := by positivity
  have hle : ∀ n, n ≤ Int.log 2 (q * 2 ^ E) ↔ n ≤ Int.log 2 q + E := by
    intro n
    have hcast : ((2 : Nat) : ℚ) = 2 := Nat.cast_ofNat
    rw [← sub_le_iff_le_add, ← Int.zpow_le_iff_le_log (by decide) (mul_pos hq hpow),
      ← Int.zpow_le_iff_le_log (by decide) hq, hcast, zpow_sub₀ two_ne_zero, div_le_iff₀ hpow]
  exact le_antisymm ((hle _).mp (le_refl _)) ((hle _).mpr (le_refl _))

/-- The whole part of a number tells the exponent that rounding aims at. -/
theorem targetExponent_floor {q : ℚ} (hq : 0 < q) {E : Int} (hE : E ≤ lastExponent (q * 2 ^ E)) :
    spec.targetExponent (totalExponent ⌊q⌋₊ E) = lastExponent (q * 2 ^ E) := by
  have hlast : lastExponent (q * 2 ^ E) = max (Int.log 2 q + E - 52) (-1074) := by
    rw [lastExponent, log_mul_zpow hq]
  rw [hlast] at hE ⊢
  rw [targetExponent_eq, totalExponent]
  rcases le_or_gt 1 q with hone | hone
  · rw [Int.log_of_one_le_right 2 hone, Nat.log2_eq_log_two]
    omega
  · have hneg : Int.log 2 q < 0 := by
      rw [← Int.lt_zpow_iff_log_lt (by decide) hq, zpow_zero]
      exact hone
    have hzero : Nat.log2 0 = 0 := by decide
    rw [Nat.floor_eq_zero.mpr hone, hzero]
    omega

/-- A mantissa tells the last bit. -/
theorem targetExponent_natCast {m : Nat} (hm : 0 < m) (e : Int) :
    spec.targetExponent (totalExponent m e) = lastExponent (m * 2 ^ e) := by
  have hpos : (0 : ℚ) < m := by exact_mod_cast hm
  rw [lastExponent, log_mul_zpow hpos, Int.log_natCast, targetExponent_eq, totalExponent,
    Nat.log2_eq_log_two]
  omega

end LastExponent

/-! ## The nearest float -/

/-- The nearest multiple of the last bit, as an unpacked float of the given sign. -/
def roundedTo (s : Sign) (v : ℚ) : UnpackedFloat :=
  let g := lastExponent v
  let m := nearestEven (v / 2 ^ g)
  if hm : m = 0 then .zero s
  else if m = 2 ^ 53 then .finite s (2 ^ 52) (g + 1) (Nat.two_pow_pos 52)
  else .finite s m g (Nat.pos_of_ne_zero hm)

section RoundedTo

variable {v : ℚ} {s : Sign}

/-- The multiple has at most 53 bits, or it is the next power of two. -/
theorem nearestEven_le_two_pow (hv : 0 ≤ v) :
    nearestEven (v / 2 ^ lastExponent v) ≤ 2 ^ 53 := by
  have hpow : (0 : ℚ) < 2 ^ lastExponent v := by positivity
  refine nearestEven_le (by positivity) ?_
  rw [div_le_iff₀ hpow]
  exact_mod_cast le_of_lt (lt_two_pow_lastExponent v)

/-- The multiple has 53 bits, unless the last bit is the least one. -/
theorem two_pow_le_nearestEven (hv : 0 < v) :
    2 ^ 52 ≤ nearestEven (v / 2 ^ lastExponent v) ∨ lastExponent v = -1074 := by
  have hpow : (0 : ℚ) < 2 ^ lastExponent v := by positivity
  refine (two_pow_lastExponent_le hv).imp_left fun hfull => le_nearestEven ?_
  rw [le_div_iff₀ hpow]
  exact_mod_cast hfull

/-- The first shift leaves the bits behind the last one as round and sticky bits. -/
theorem shiftToTargetExponent_eq {m : Nat} {E : Int} {acc : Accuracy} {q : ℚ}
    (h : Holds (.ofMantissaAndAccuracy m acc) q) (hq : 0 < q)
    (hE : E ≤ lastExponent (q * 2 ^ E)) :
    ∃ em, shiftToTargetExponent spec m E acc = (em, lastExponent (q * 2 ^ E)) ∧
      Holds em (q * 2 ^ E / 2 ^ lastExponent (q * 2 ^ E)) := by
  have hm : m = ⌊q⌋₊ := by
    rw [← h.mantissa]
    rcases acc with _ | ⟨_ | _ | _⟩ <;> rfl
  have htarget := targetExponent_floor hq hE
  generalize lastExponent (q * 2 ^ E) = g at hE htarget ⊢
  obtain ⟨k, rfl⟩ : ∃ k : Nat, g = E + k := Int.le.dest_sub hE |>.elim fun k hk => ⟨k, by omega⟩
  have hshift : (E + (k : Int) - E).toNat = k := by omega
  have hvalue : q * 2 ^ E / 2 ^ (E + k) = q / 2 ^ k := by
    rw [zpow_add₀ two_ne_zero, zpow_natCast]
    field_simp
  rw [shiftToTargetExponent, hm, htarget, shiftToExponent, hshift, hvalue, ← hm]
  exact ⟨_, rfl, h.shiftRight k⟩

/-- The second shift takes the next power of two to 53 bits again. -/
theorem shiftToTargetExponent_carry {n : Nat} {g : Int} (hn : n ≤ 2 ^ 53) (hg : -1074 ≤ g) :
    shiftToTargetExponent spec n g .exact =
      if n = 2 ^ 53 then (⟨2 ^ 52, false, false⟩, g + 1) else (⟨n, false, false⟩, g) := by
  rw [shiftToTargetExponent, targetExponent_eq, totalExponent, shiftToExponent]
  split
  · next hcarry =>
    have hlog : n.log2 = 53 := by rw [hcarry, Nat.log2_two_pow]
    have hshift : (max ((n.log2 : Int) + 1 + g - 53) (-1074) - g).toNat = 1 := by omega
    rw [hshift, hcarry]
    rfl
  · next hne =>
    have hlog : n.log2 ≤ 52 := by
      rcases Nat.eq_zero_or_pos n with rfl | hpos
      · decide
      · exact Nat.le_of_lt_succ ((Nat.log2_lt (Nat.ne_of_gt hpos)).mpr (by omega))
    have hshift : (max ((n.log2 : Int) + 1 + g - 53) (-1074) - g).toNat = 0 := by omega
    rw [hshift, Int.natCast_zero, Int.add_zero]
    rfl

/-- **Rounding with round and sticky bits takes the nearest multiple of the last bit.** -/
theorem roundWithAccuracy_eq {m : Nat} {E : Int} {acc : Accuracy} {q : ℚ}
    (h : Holds (.ofMantissaAndAccuracy m acc) q) (hq : 0 < q)
    (hE : E ≤ lastExponent (q * 2 ^ E)) :
    roundWithAccuracy spec s m E acc = roundedTo s (q * 2 ^ E) := by
  obtain ⟨em, hfirst, hem⟩ := shiftToTargetExponent_eq h hq hE
  have hle := nearestEven_le_two_pow (v := q * 2 ^ E) (by positivity)
  have hsecond := shiftToTargetExponent_carry hle (le_lastExponent (q * 2 ^ E))
  simp only [roundWithAccuracy, hfirst, hem.roundedMantissa, hsecond, roundedTo]
  by_cases hcarry : nearestEven (q * 2 ^ E / 2 ^ lastExponent (q * 2 ^ E)) = 2 ^ 53
  · simp only [hcarry, if_true]
    rfl
  · simp only [hcarry, if_false]

/-- **Rounding takes the nearest multiple of the last bit.** -/
theorem round_eq {m : Nat} (hm : 0 < m) (s : Sign) (e : Int) :
    UnpackedFloat.round spec s m e = roundedTo s (m * 2 ^ e) := by
  have hpos : (0 : ℚ) < m := by exact_mod_cast hm
  rw [UnpackedFloat.round, targetExponent_natCast hm, decreaseExponent]
  obtain ⟨k, hk⟩ : ∃ k : Nat, k = (e - lastExponent (m * 2 ^ e)).toNat := ⟨_, rfl⟩
  have hvalue : ((m <<< k : Nat) : ℚ) * 2 ^ (e - k) = m * 2 ^ e := by
    rw [Nat.shiftLeft_eq, zpow_sub₀ two_ne_zero, zpow_natCast]
    push_cast
    field_simp
  have hshifted : (0 : ℚ) < (m <<< k : Nat) := by
    rw [Nat.shiftLeft_eq]
    push_cast
    positivity
  have hE : e - k ≤ lastExponent ((m <<< k : Nat) * 2 ^ (e - k)) := by
    rw [hvalue]
    omega
  dsimp only
  rw [← hk, roundWithAccuracy_eq (holds_exact _) hshifted hE, hvalue]

/-- A number that is too small is zero. -/
theorem roundedTo_underflow (s : Sign) (hv : 0 < v) (h : v < 2 ^ (-1075 : Int)) :
    roundedTo s v = .zero s := by
  have hlast : lastExponent v = -1074 := by
    refine lastExponent_eq hv (le_refl _) (lt_trans h ?_) (.inr rfl)
    rw [← zpow_natCast, ← zpow_add₀ two_ne_zero]
    exact zpow_lt_zpow_right₀ (by norm_num) (by norm_num)
  have hzero : nearestEven (v / 2 ^ lastExponent v) = 0 := by
    refine nearestEven_eq_of_lt (by positivity) ?_
    rw [Nat.cast_zero, sub_zero, abs_of_nonneg (by positivity), hlast, div_lt_iff₀ (by positivity)]
    calc v < 2 ^ (-1075 : Int) := h
      _ = 1 / 2 * 2 ^ (-1074 : Int) := by
        rw [show (-1075 : Int) = -1 + -1074 by rfl, zpow_add₀ two_ne_zero]
        norm_num
  unfold roundedTo
  rw [dif_pos hzero]

/-- The value of the nearest multiple. -/
def rounded (v : ℚ) : ℚ :=
  nearestEven (v / 2 ^ lastExponent v) * 2 ^ lastExponent v

/-- The last bit of a number of at most 53 bits is not above its unit. -/
theorem lastExponent_le {m : Nat} {e : Int} (hm : m < 2 ^ 53) (hpos : 0 < m) (he : -1074 ≤ e) :
    lastExponent (m * 2 ^ e) ≤ e := by
  have hlog : Nat.log 2 m < 53 := Nat.log_lt_of_lt_pow (Nat.ne_of_gt hpos) hm
  rw [lastExponent, log_mul_zpow (by exact_mod_cast hpos), Int.log_natCast]
  omega

/-- **A number of at most 53 bits is rounded to itself.** -/
theorem rounded_of_lt {m : Nat} {e : Int} (hm : m < 2 ^ 53) (he : -1074 ≤ e) :
    rounded (m * 2 ^ e) = m * 2 ^ e := by
  rcases Nat.eq_zero_or_pos m with rfl | hpos
  · have hzero : nearestEven 0 = 0 := by exact_mod_cast nearestEven_natCast 0
    simp [rounded, hzero]
  have hlast := lastExponent_le hm hpos he
  obtain ⟨k, hk⟩ := Int.le.dest hlast
  have hpow : (0 : ℚ) < 2 ^ lastExponent (m * 2 ^ e) := by positivity
  have hmultiple : (m : ℚ) * 2 ^ e = (m * 2 ^ k : Nat) * 2 ^ lastExponent (m * 2 ^ e) := by
    have hsplit : (2 : ℚ) ^ e = 2 ^ lastExponent (m * 2 ^ e) * 2 ^ k := by
      rw [← zpow_natCast, ← zpow_add₀ two_ne_zero, hk]
    push_cast
    rw [mul_assoc, mul_comm ((2 : ℚ) ^ k), ← hsplit]
  have hunits : (m : ℚ) * 2 ^ e / 2 ^ lastExponent (m * 2 ^ e) = (m * 2 ^ k : Nat) := by
    rw [div_eq_iff (ne_of_gt hpow), ← hmultiple]
  rw [rounded, hunits, nearestEven_natCast, ← hmultiple]

/-- A power of two as a factor moves the last bit. -/
theorem rounded_mul_two_pow (hv : 1 ≤ v) (j : Nat) : rounded (v * 2 ^ j) = rounded v * 2 ^ j := by
  have hlast : lastExponent (v * 2 ^ j) = lastExponent v + j := by
    have hlog : 0 ≤ Int.log 2 v := by
      rw [← Int.zpow_le_iff_le_log (by decide) (by linarith), zpow_zero]
      exact hv
    rw [lastExponent, lastExponent, ← zpow_natCast, log_mul_zpow (by linarith)]
    omega
  have hpow : (2 : ℚ) ^ (lastExponent v + j) = 2 ^ lastExponent v * 2 ^ j := by
    rw [zpow_add₀ two_ne_zero, zpow_natCast]
  rw [rounded, rounded, hlast, hpow, mul_div_mul_right _ _ (by positivity), mul_assoc]

/-- The greater number is rounded to the greater float. -/
theorem rounded_mono {w : ℚ} (hv : 0 < v) (h : v ≤ w) : rounded v ≤ rounded w := by
  have hpow : ∀ e : Int, (0 : ℚ) < 2 ^ e := fun e => by positivity
  unfold rounded
  rcases eq_or_lt_of_le (lastExponent_mono hv h) with hsame | hless
  · rw [hsame]
    have hdiv : v / 2 ^ lastExponent w ≤ w / 2 ^ lastExponent w :=
      div_le_div_of_nonneg_right h (le_of_lt (hpow _))
    have hmono := nearestEven_mono (by positivity) hdiv
    exact mul_le_mul_of_nonneg_right (by exact_mod_cast hmono) (le_of_lt (hpow _))
  · -- the greater number has at least `2 ^ 52` of its last bits, the less one at most `2 ^ 53`
    have hleast := le_lastExponent v
    have hlower : (2 ^ 52 : Nat) ≤ nearestEven (w / 2 ^ lastExponent w) :=
      (two_pow_le_nearestEven (lt_of_lt_of_le hv h)).resolve_right (by omega)
    have hupper := nearestEven_le_two_pow (le_of_lt hv)
    calc (nearestEven (v / 2 ^ lastExponent v) : ℚ) * 2 ^ lastExponent v
        ≤ (2 ^ 53 : Nat) * 2 ^ lastExponent v :=
          mul_le_mul_of_nonneg_right (by exact_mod_cast hupper) (le_of_lt (hpow _))
      _ = (2 ^ 52 : Nat) * 2 ^ (lastExponent v + 1) := by
          rw [zpow_add_one₀ two_ne_zero]; push_cast; ring
      _ ≤ (2 ^ 52 : Nat) * 2 ^ lastExponent w :=
          mul_le_mul_of_nonneg_left (zpow_le_zpow_right₀ (by norm_num) (by omega)) (by positivity)
      _ ≤ nearestEven (w / 2 ^ lastExponent w) * 2 ^ lastExponent w :=
          mul_le_mul_of_nonneg_right (by exact_mod_cast hlower) (le_of_lt (hpow _))

end RoundedTo

/-! ## Values of unpacked floats -/

/-- The unpacked float is positive zero, or positive and in canonical form, and it equals the
number. -/
inductive HasValue : UnpackedFloat → ℚ → Prop
  | zero : HasValue (.zero .positive) 0
  | finite {m : Nat} {e : Int} (h : Canonical m e) :
      HasValue (.finite .positive m e h.pos) (m * 2 ^ e)

section HasValue

variable {m : Nat} {e : Int} {u u' : UnpackedFloat} {v : ℚ}

/-- A canonical pair is a positive number. -/
theorem Canonical.value_pos (h : Canonical m e) : (0 : ℚ) < m * 2 ^ e :=
  mul_pos (by exact_mod_cast h.pos) (by positivity)

/-- A canonical exponent is that of the last bit. -/
theorem Canonical.lastExponent (h : Canonical m e) : lastExponent (m * 2 ^ e) = e := by
  have hpow : (0 : ℚ) < 2 ^ e := by positivity
  refine lastExponent_eq h.value_pos h.least ?_ (h.full.imp_left fun hfull => ?_)
  · exact mul_lt_mul_of_pos_right (by exact_mod_cast h.lt) hpow
  · exact mul_le_mul_of_nonneg_right (by exact_mod_cast hfull) (le_of_lt hpow)

/-- The value of a canonical pair is rounded to the pair. -/
theorem Canonical.roundedTo (h : Canonical m e) (s : Sign) :
    roundedTo s (m * 2 ^ e) = .finite s m e h.pos := by
  have hpow : (2 : ℚ) ^ e ≠ 0 := by positivity
  have hlt := h.lt
  have hne := h.pos
  simp only [Number.roundedTo, h.lastExponent, mul_div_cancel_right₀ _ hpow, nearestEven_natCast]
  rw [dif_neg (Nat.ne_of_gt hne), if_neg (Nat.ne_of_lt hlt)]

/-- What is nearer to a canonical pair than half the gap to its neighbours is rounded to it.  The
gap below a power of two is half the gap above. -/
theorem Canonical.rounded_of_near (h : Canonical m e) (hnear : |v - m * 2 ^ e| < 2 ^ e / 2)
    (hbelow : m = 2 ^ 52 → m * 2 ^ e - v < 2 ^ e / 4) : Number.rounded v = m * 2 ^ e := by
  have hpow : (0 : ℚ) < 2 ^ e := by positivity
  have hone : (1 : ℚ) ≤ m := by exact_mod_cast h.pos
  have hlt : (m : ℚ) + 1 ≤ 2 ^ 53 := by exact_mod_cast h.lt
  have hleast := h.least
  obtain ⟨hlower, hupper⟩ := abs_lt.mp hnear
  have hv : 0 < v := by nlinarith
  have hfew : v < 2 ^ 53 * 2 ^ e := by nlinarith
  rcases em (2 ^ 52 * 2 ^ e ≤ v ∨ e = -1074) with hfull | hcarry
  · have hunits : |v / 2 ^ e - m| < 1 / 2 := by
      rw [div_sub' (ne_of_gt hpow), abs_div, abs_of_pos hpow, div_lt_iff₀ hpow, mul_comm]
      linarith
    rw [Number.rounded, lastExponent_eq hv h.least hfew hfull,
      nearestEven_eq_of_lt (by positivity) hunits]
  · -- below a power of two the last bit is half as great
    obtain ⟨hless, hne⟩ := not_or.mp hcarry
    have hless := not_le.mp hless
    have hfull : (2 ^ 52 : ℚ) ≤ m := by exact_mod_cast h.full.resolve_right hne
    obtain rfl : m = 2 ^ 52 := by
      refine Nat.le_antisymm ?_ (h.full.resolve_right hne)
      have hm : (m : ℚ) < (2 ^ 52 + 1 : Nat) := by
        push_cast
        nlinarith
      exact Nat.le_of_lt_succ (by exact_mod_cast hm)
    have hhalf : (2 : ℚ) ^ e = 2 * 2 ^ (e - 1) := by
      rw [zpow_sub_one₀ two_ne_zero]
      ring
    have hpow' : (0 : ℚ) < 2 ^ (e - 1) := by positivity
    have hquarter := hbelow rfl
    rw [hhalf] at hquarter hless ⊢
    push_cast at hquarter ⊢
    have hunits : |v / 2 ^ (e - 1) - (2 ^ 53 : Nat)| < 1 / 2 := by
      rw [div_sub' (ne_of_gt hpow'), abs_div, abs_of_pos hpow', div_lt_iff₀ hpow', abs_lt]
      push_cast
      constructor <;> linarith
    have hlast : Number.lastExponent v = e - 1 :=
      lastExponent_eq hv (by omega) (by linarith) (.inl (by linarith))
    rw [Number.rounded, hlast, nearestEven_eq_of_lt (by positivity) hunits]
    push_cast
    ring

/-- Zero is rounded to zero. -/
theorem roundedTo_zero (s : Sign) : roundedTo s 0 = .zero s := by
  have hzero : nearestEven (0 / 2 ^ Number.lastExponent 0) = 0 := by
    rw [zero_div]
    exact_mod_cast nearestEven_natCast 0
  unfold Number.roundedTo
  rw [dif_pos hzero]

/-- An unpacked float is what its value is rounded to. -/
theorem HasValue.eq_roundedTo (h : HasValue u v) : u = Number.roundedTo .positive v := by
  cases h with
  | zero => rw [roundedTo_zero]
  | finite hcanonical => rw [hcanonical.roundedTo]

/-- The nearest multiple is zero, or the value of a canonical pair. -/
theorem roundedTo_cases (hv : 0 < v) :
    (Number.roundedTo .positive v = .zero .positive ∧ rounded v = 0) ∨
      ∃ (m : Nat) (e : Int) (h : Canonical m e), Number.lastExponent v ≤ e ∧
        Number.roundedTo .positive v = .finite .positive m e h.pos ∧ rounded v = m * 2 ^ e := by
  have hle := nearestEven_le_two_pow (le_of_lt hv)
  have hleast := le_lastExponent v
  unfold Number.roundedTo rounded
  dsimp only
  split
  · next hzero => exact .inl ⟨rfl, by rw [hzero, Nat.cast_zero, zero_mul]⟩
  split
  · next hcarry =>
    refine .inr ⟨2 ^ 52, Number.lastExponent v + 1, ⟨by decide, by decide, by omega,
      .inl (le_refl _)⟩, by omega, rfl, ?_⟩
    rw [hcarry, zpow_add_one₀ two_ne_zero]
    push_cast
    ring
  · next hzero hcarry =>
    exact .inr ⟨_, _, ⟨Nat.pos_of_ne_zero hzero, by omega, hleast, two_pow_le_nearestEven hv⟩,
      le_refl _, rfl, rfl⟩

/-- The nearest float has the value of the nearest multiple. -/
theorem hasValue_roundedTo (hv : 0 < v) :
    HasValue (Number.roundedTo .positive v) (rounded v) := by
  rcases roundedTo_cases hv with ⟨hround, hvalue⟩ | ⟨m, e, h, -, hround, hvalue⟩
  · rw [hround, hvalue]
    exact .zero
  · rw [hround, hvalue]
    exact .finite h

end HasValue

end ExprSandbox.Number
