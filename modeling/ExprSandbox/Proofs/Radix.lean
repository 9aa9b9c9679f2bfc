import ExprSandbox.Number.Reading
import ExprSandbox.Proofs.Arithmetic
import ExprSandbox.Proofs.Digits

/-!
# Digits accumulated in float arithmetic

The number behind a radix prefix is accumulated digit by digit.  While the value is less than
`2 ^ 53`, every step is exact.  The step that takes the value beyond is rounded, and from then on
the value is so great that a further digit is less than half of its last bit: it only multiplies by
the radix (`step_large`).  So the digits mean the float nearest to a number in which the digits
behind that step are zeros (`ofRadixDigits_eq`).
-/

namespace ExprSandbox.Number

/-! ## Steps -/

section Step

variable {n j d : Nat}

/-- **While the value is small, a step is rounded once.** -/
theorem step_small (hn : n < 2 ^ 53) (hj : j < 53) (hd : d < 2 ^ j) :
    ofNat n * ofNat (2 ^ j) + ofNat d = ofNat (n * 2 ^ j + d) := by
  have hj' : 2 ^ j < 2 ^ 53 := Nat.pow_lt_pow_right (by decide) hj
  have hproduct : Equals (ofNat n * ofNat (2 ^ j)) (n * 2 ^ j : Nat) := by
    have hvalue := equals_nearest (e := j) hn (by omega) (by omega)
    rw [mul_eq_nearest (equals_ofNat hn) (equals_ofNat hj')]
    push_cast
    rwa [zpow_natCast] at hvalue
  rw [add_eq_nearest hproduct (equals_ofNat (by omega)), ofNat_eq_nearest]
  push_cast
  rfl

/-- **Once the value is great, a step multiplies by the radix.** -/
theorem step_large (hn : 2 ^ 53 ≤ n) (hj : j < 53) (hd : d < 2 ^ j) :
    ofNat n * ofNat (2 ^ j) + ofNat d = ofNat (n * 2 ^ j) := by
  have hcast : (2 ^ 53 : ℚ) ≤ n := by exact_mod_cast hn
  have hpos : (0 : ℚ) < n := by linarith
  have hlast : 1 ≤ lastExponent n := by
    have hlog : 53 ≤ Int.log 2 (n : ℚ) := by
      rw [Int.log_natCast]
      exact_mod_cast Nat.le_log_of_pow_le (by decide) hn
    unfold lastExponent
    omega
  have hone : (1 : ℚ) ≤ n := by linarith
  -- the last bit is at least two, so half a last bit of the product is at least the radix
  obtain ⟨m, e, h, he, hrounded⟩ : ∃ m e, Canonical m e ∧ 1 ≤ e ∧ rounded n = m * 2 ^ e := by
    rcases roundedTo_cases hpos with ⟨-, hzero⟩ | ⟨m, e, h, he, -, hrounded⟩
    · have hmono := rounded_mono one_pos hone
      have hunit : rounded 1 = 1 := by simpa using rounded_of_lt (m := 1) (e := 0) (by decide)
      rw [hzero, hunit] at hmono
      exact absurd hmono (by norm_num)
    · exact ⟨m, e, h, by omega, hrounded⟩
  have h' : Canonical m (e + j) := ⟨h.pos, h.lt, by omega, .inl (h.full.resolve_right (by omega))⟩
  have hscaled : rounded (n * 2 ^ j : Nat) = m * 2 ^ (e + j) := by
    push_cast
    rw [rounded_mul_two_pow hone, hrounded, zpow_add₀ two_ne_zero, zpow_natCast, mul_assoc]
  have hless : (d : ℚ) < 2 ^ (e + j : Int) / 2 := by
    have hd' : (d : ℚ) < 2 ^ j := by exact_mod_cast hd
    have hpow : (2 : ℚ) ^ (j + 1 : Int) ≤ 2 ^ (e + j : Int) :=
      zpow_le_zpow_right₀ (by norm_num) (by omega)
    rw [zpow_add_one₀ two_ne_zero, zpow_natCast] at hpow
    linarith
  have hpos' : (0 : ℚ) < (n * 2 ^ j : Nat) := by
    push_cast
    positivity
  have hd' : d < 2 ^ 53 := lt_trans hd (Nat.pow_lt_pow_right (by decide) hj)
  rw [ofNat_eq_nearest n, ofNat_eq_nearest (n * 2 ^ j), nearest_eq_ofPair hpos h hrounded,
    nearest_eq_ofPair hpos' h' hscaled, ofPair_mul h h' hj, ofPair_add h' hd' hless]

end Step

/-! ## Lost digits -/

/-- The number with the digits replaced by zeros that follow after the value has reached
`2 ^ 53`. -/
def truncated (radix n : Nat) : Nat :=
  if _h : 1 < radix ∧ 2 ^ 53 * radix ≤ n then truncated radix (n / radix) * radix else n
termination_by n
decreasing_by exact Nat.div_lt_self (by omega) _h.1

section Truncated

variable {radix n d : Nat}

/-- A number keeps its digits until its value without the last one has reached `2 ^ 53`. -/
theorem truncated_of_lt (h : n < 2 ^ 53 * radix) : truncated radix n = n := by
  rw [truncated, dif_neg (by omega)]

/-- A further digit counts as a zero where the value has reached `2 ^ 53`. -/
theorem truncated_concat (hd : d < radix) (hradix : 1 < radix) :
    truncated radix (n * radix + d) =
      if n < 2 ^ 53 then n * radix + d else truncated radix n * radix := by
  have hdiv : (n * radix + d) / radix = n := by
    rw [Nat.add_comm, Nat.add_mul_div_right _ _ (by omega), Nat.div_eq_of_lt hd, Nat.zero_add]
  have hreached : 2 ^ 53 * radix ≤ n * radix + d ↔ 2 ^ 53 ≤ n := by
    rw [← Nat.le_div_iff_mul_le (by omega), hdiv]
  rw [truncated, hdiv]
  split
  · next h => rw [if_neg (by omega)]
  · next h => rw [if_pos (by omega)]

/-- Digits that are lost do not take the value below `2 ^ 53` again. -/
theorem le_truncated (hradix : 1 < radix) (h : 2 ^ 53 ≤ n) : 2 ^ 53 ≤ truncated radix n := by
  induction n using Nat.strongRecOn with
  | _ n ih =>
    rw [truncated]
    split
    · next hreached =>
      have hdiv : 2 ^ 53 ≤ n / radix := (Nat.le_div_iff_mul_le (by omega)).mpr hreached.2
      have hlt : n / radix < n := Nat.div_lt_self (by omega) hradix
      exact Nat.le_trans (ih _ hlt hdiv) (Nat.le_mul_of_pos_right _ (by omega))
    · exact h

end Truncated

/-! ## Digits -/

section Digits

variable {j n : Nat} {ds : List Nat} {cs : List Char}

/-- **Accumulated digits mean the float nearest to the number without the lost digits.** -/
theorem ofRadixDigits_eq (hpos : 0 < j) (hj : j < 53) (hds : ∀ d ∈ ds, d < 2 ^ j) :
    ofRadixDigits (2 ^ j) ds = ofNat (truncated (2 ^ j) (Nat.ofDigits (2 ^ j) ds.reverse)) := by
  have hradix : 1 < 2 ^ j := Nat.one_lt_two_pow (Nat.ne_of_gt hpos)
  -- digits are accumulated from the left, so the last one is the last step
  induction ds using List.reverseRecOn with
  | nil =>
    rw [List.reverse_nil, Nat.ofDigits_nil, truncated_of_lt (by omega)]
    rfl
  | append_singleton ds d ih =>
    have hd : d < 2 ^ j := hds d (by simp)
    have hfirst := ih fun d' hd' => hds d' (List.mem_append_left _ hd')
    rw [ofDigits_reverse_concat, truncated_concat hd hradix]
    show ofRadixDigits (2 ^ j) (ds ++ [d]) = _
    rw [ofRadixDigits, List.foldl_append, List.foldl_cons, List.foldl_nil]
    show ofRadixDigits (2 ^ j) ds * ofNat (2 ^ j) + ofNat d = _
    rw [hfirst]
    split
    · next hsmall =>
      rw [truncated_of_lt (by nlinarith), step_small hsmall hj hd]
    · next hlarge =>
      rw [step_large (le_truncated hradix (Nat.le_of_not_lt hlarge)) hj hd]

/-- The digits of a text are looked up one by one. -/
theorem mapM_eq_some_iff {α β : Type} {f : α → Option β} {as : List α} {bs : List β} :
    as.mapM f = some bs ↔ as.map f = bs.map some := by
  induction as generalizing bs with
  | nil => cases bs <;> simp
  | cons a as ih =>
    simp only [List.mapM_cons, Option.bind_eq_bind, Option.bind_eq_some_iff, Option.pure_def,
      Option.some.injEq]
    constructor
    · rintro ⟨b, hb, bs, hbs, rfl⟩
      rw [List.map_cons, hb, ih.mp hbs, List.map_cons]
    · intro h
      cases bs with
      | nil => cases h
      | cons b bs =>
        obtain ⟨hb, hbs⟩ := List.cons.inj h
        exact ⟨b, hb, bs, ih.mpr hbs, rfl⟩

/-- The digits of a radix are less than the radix. -/
theorem lt_of_radixDigit? {radix d : Nat} {c : Char} (h : radixDigit? radix c = some d) :
    d < radix := by
  have hfilter := (Option.filter_eq_some_iff.mp h).2
  exact of_decide_eq_true hfilter

/-- **Digits behind a radix prefix mean the float nearest to the number without the lost
digits.** -/
theorem readRadix_eq (hpos : 0 < j) (hj : j < 53) (hne : cs ≠ [])
    (h : SpellsInteger (2 ^ j) cs n) : readRadix (2 ^ j) cs = ofNat (truncated (2 ^ j) n) := by
  obtain ⟨ds, hds, rfl⟩ := h
  have hless : ∀ d ∈ ds, d < 2 ^ j := by
    intro d hd
    have hmem : some d ∈ cs.map (radixDigit? (2 ^ j)) := hds ▸ List.mem_map_of_mem hd
    obtain ⟨c, -, hc⟩ := List.mem_map.mp hmem
    exact lt_of_radixDigit? hc
  obtain ⟨c, cs, rfl⟩ := List.exists_cons_of_ne_nil hne
  unfold readRadix
  rw [mapM_eq_some_iff.mpr hds]
  exact ofRadixDigits_eq hpos hj hless

end Digits

end ExprSandbox.Number
