import ExprSandbox.Number.Text
import ExprSandbox.Proofs.Scanning
import ExprSandbox.Proofs.Shortest

/-!
# Numbers that are written and read back

The digits of a decimal are laid out as a tidy numeral of the decimal (`denotes_decimalText`), with
or without a point and an exponent.  A numeral is one number literal, and it is read as the parts
it was written from.  So the text of a float that is not negative stands for the float
(`value_text`).
-/

namespace ExprSandbox

open Lexer

namespace Numeral

/-! ## Written numerals -/

/-- The text behind the digits gives the exponent, which is `0` where there is none. -/
inductive WritesExponent : List Char → Int → Prop
  | none : WritesExponent [] 0
  | signed {e : Int} : WritesExponent (Number.exponentText e) e

/-- The text writes the numeral. -/
inductive Writes : List Char → Numeral → Prop
  | whole {ds tail : List Char} {e : Int} (nonempty : ds ≠ [])
      (digits : ∀ c ∈ ds, isDigit c = true) (exponent : WritesExponent tail e) :
      Writes (ds ++ tail) ⟨ds, [], e⟩
  | point {ds fs tail : List Char} {e : Int} (nonempty : ds ≠ [])
      (whole : ∀ c ∈ ds, isDigit c = true) (fraction : ∀ c ∈ fs, isDigit c = true)
      (exponent : WritesExponent tail e) : Writes (ds ++ '.' :: (fs ++ tail)) ⟨ds, fs, e⟩

/-! ## Digits -/

/-- The digits of a natural number are digits. -/
theorem isDigit_of_mem_toDigits {n : Nat} {c : Char} (h : c ∈ Nat.toDigits 10 n) :
    isDigit c = true :=
  isDigit_iff.mpr
    (Char.isDigit_iff_toNat.mp (Nat.isDigit_of_mem_toDigits (by decide) (by decide) h))

/-- The digits of a natural number spell it. -/
theorem natOfDigits_toDigits (n : Nat) : natOfDigits (Nat.toDigits 10 n) = n :=
  Nat.ofDigitChars_ten_toDigits

/-- Zeros behind digits multiply by a power of ten. -/
theorem natOfDigits_append_zeros (cs : List Char) (k : Nat) :
    natOfDigits (cs ++ List.replicate k '0') = natOfDigits cs * 10 ^ k := by
  show Nat.ofDigitChars 10 (cs ++ List.replicate k '0') 0 = Nat.ofDigitChars 10 cs 0 * 10 ^ k
  rw [Nat.ofDigitChars_append, Nat.ofDigitChars_replicate_zero, Nat.mul_comm]

/-- Zeros before digits count nothing. -/
theorem natOfDigits_zeros_append (k : Nat) (cs : List Char) :
    natOfDigits (List.replicate k '0' ++ cs) = natOfDigits cs := by
  show Nat.ofDigitChars 10 (List.replicate k '0' ++ cs) 0 = Nat.ofDigitChars 10 cs 0
  rw [Nat.ofDigitChars_append, Nat.ofDigitChars_replicate_zero, Nat.mul_zero]

/-- The character of a digit other than zero is not that of zero. -/
theorem digitChar_ne_zero {d : Nat} (hpos : 0 < d) (hlt : d < 10) : d.digitChar ≠ '0' := by
  interval_cases d <;> decide

/-- The first digit of a positive number is not zero. -/
theorem head_toDigits {n : Nat} (h : 0 < n) : (Nat.toDigits 10 n).head? ≠ some '0' := by
  induction n using Nat.base_induction 10 (by decide) with
  | single m hm =>
    rw [Nat.toDigits_of_lt_base hm]
    exact fun hhead => digitChar_ne_zero h hm (Option.some.inj hhead)
  | digit m k hk hm ih =>
    rw [← Nat.toDigits_append_toDigits (by decide) hm hk,
      List.head?_append_of_ne_nil _ Nat.toDigits_ne_nil]
    exact ih hm

/-- The last digit of a number is not zero where ten does not divide the number. -/
theorem getLast_toDigits {n : Nat} (h : n % 10 ≠ 0) :
    (Nat.toDigits 10 n).getLast? ≠ some '0' := by
  have hne := digitChar_ne_zero (Nat.pos_of_ne_zero h) (Nat.mod_lt n (by decide))
  rw [Nat.toDigits_eq_if (by decide)]
  split
  · next hlt =>
    rw [Nat.mod_eq_of_lt hlt] at hne
    exact fun hlast => hne (Option.some.inj hlast)
  · rw [List.getLast?_append]
    exact fun hlast => hne (Option.some.inj hlast)

/-- The digits of a natural number are read as a magnitude. -/
theorem magnitude?_toDigits (n : Nat) :
    signed?.magnitude? (Nat.toDigits 10 n) = some (n : Int) := by
  have hall : (Nat.toDigits 10 n).all isDigit = true :=
    List.all_eq_true.mpr fun _ => isDigit_of_mem_toDigits
  rw [signed?.magnitude?, if_pos ⟨Nat.toDigits_ne_nil, hall⟩, natOfDigits_toDigits]

/-! ## Reading -/

section Exponent

variable {tail : List Char} {e : Int}

/-- A written exponent is read back. -/
theorem WritesExponent.exponent? (h : WritesExponent tail e) : exponent? tail = some e := by
  cases h with
  | none => rfl
  | signed =>
    rw [Number.exponentText, Numeral.exponent?, if_pos (.inl rfl)]
    by_cases he : 0 ≤ e
    · rw [if_pos he, signed?, magnitude?_toDigits, Int.natAbs_of_nonneg he]
    · have habs : -(e.natAbs : Int) = e := by omega
      rw [if_neg he, signed?, magnitude?_toDigits]
      exact congrArg some habs

/-- An exponent begins with a letter. -/
theorem WritesExponent.head (h : WritesExponent tail e) : ∀ d ∈ tail.head?, d = 'e' := by
  cases h with
  | none => exact nofun
  | signed => exact fun d hd => (Option.some.inj hd).symm

/-- The digits before an exponent end at it. -/
theorem WritesExponent.isDigit_head (h : WritesExponent tail e) :
    ∀ d ∈ tail.head?, isDigit d = false :=
  fun d hd => h.head d hd ▸ rfl

end Exponent

section Writes

variable {text : List Char} {n : Numeral}

/-- **A written numeral is read back.** -/
theorem Writes.read? (h : Writes text n) : read? text = some n := by
  unfold Numeral.read?
  cases h with
  | @whole ds tail e nonempty digits exponent =>
    rw [takeWhile_run digits exponent.isDigit_head, dropWhile_run digits exponent.isDigit_head]
    have hpoint : ∀ rest, tail ≠ '.' :: rest := by
      rintro rest rfl
      exact absurd (exponent.head '.' rfl) (by decide)
    split
    · next rest => exact absurd rfl (hpoint rest)
    · rw [if_neg nonempty, exponent.exponent?, Option.map_some]
  | @point ds fs tail e nonempty whole fraction exponent =>
    have hpoint : ∀ d ∈ ('.' :: (fs ++ tail)).head?, isDigit d = false :=
      fun d hd => Option.some.inj hd ▸ rfl
    rw [takeWhile_run whole hpoint, dropWhile_run whole hpoint]
    split
    · next rest hrest =>
      obtain rfl := (List.cons.inj hrest).2
      rw [takeWhile_run fraction exponent.isDigit_head,
        dropWhile_run fraction exponent.isDigit_head, if_neg fun h => nonempty h.1,
        exponent.exponent?, Option.map_some]
    · next hne => exact absurd rfl (hne _)

/-- A written numeral is a number. -/
theorem Writes.spells (h : Writes text n) : SpellsNumber text := by
  have hscaled : ∀ {m tail : List Char} {e : Int}, SpellsMantissa m → WritesExponent tail e →
      SpellsNumber (m ++ tail) := by
    intro m tail e mantissa exponent
    cases exponent with
    | none =>
      rw [List.append_nil]
      exact .plain mantissa
    | signed =>
      have hsign : [if 0 ≤ e then '+' else '-'] ∈ [[], ['+'], ['-']] := by
        by_cases he : 0 ≤ e
        · rw [if_pos he]
          decide
        · rw [if_neg he]
          decide
      exact .scaled mantissa rfl hsign Nat.toDigits_ne_nil fun c hc => isDigit_of_mem_toDigits hc
  cases h with
  | whole nonempty digits exponent => exact hscaled (.whole nonempty digits) exponent
  | @point ds fs tail e nonempty whole fraction exponent =>
    have hnumber := hscaled (.point (.inl nonempty) whole fraction) exponent
    rwa [List.append_assoc] at hnumber

end Writes

end Numeral

namespace Number

open Numeral

/-! ## Layout -/

/-- No digit stands behind a zero before the point, and no zero stands at the end behind it. -/
structure Tidy (n : Numeral) : Prop where
  whole : ∀ rest, n.whole = '0' :: rest → rest = []
  fraction : n.fraction.getLast? ≠ some '0'

/-- The text is a tidy numeral of the number. -/
def Denotes (text : List Char) (q : ℚ) : Prop :=
  ∃ n, Writes text n ∧ n.toDecimal.toRat = q ∧ Tidy n

/-- Digits of which neither the first nor the last is a zero. -/
structure Significant (ds : List Char) : Prop where
  nonempty : ds ≠ []
  digits : ∀ c ∈ ds, isDigit c = true
  first : ds.head? ≠ some '0'
  last : ds.getLast? ≠ some '0'

/-- The digits of a number that ten does not divide. -/
theorem significant_toDigits {n : Nat} (h : n % 10 ≠ 0) : Significant (Nat.toDigits 10 n) where
  nonempty := Nat.toDigits_ne_nil
  digits _ := isDigit_of_mem_toDigits
  first := head_toDigits (Nat.pos_of_ne_zero fun hzero => h (by rw [hzero]))
  last := getLast_toDigits h

section Layout

variable {ds : List Char} {point : Int}

/-- Zeros are digits. -/
theorem isDigit_of_mem_zeros {k : Nat} {c : Char} (h : c ∈ List.replicate k '0') :
    isDigit c = true := by
  rw [List.eq_of_mem_replicate h]
  rfl

/-- Digits that do not begin with a zero. -/
theorem Significant.tidy_whole (h : Significant ds) (zeros : List Char) :
    ∀ rest, ds ++ zeros = '0' :: rest → rest = [] := by
  intro rest heq
  have hhead : (ds ++ zeros).head? = some '0' := by rw [heq, List.head?_cons]
  rw [List.head?_append_of_ne_nil _ h.nonempty] at hhead
  exact absurd hhead h.first

/-- Digits and zeros behind them. -/
theorem denotes_padded (h : Significant ds) (k : Nat) :
    Denotes (ds ++ List.replicate k '0') (natOfDigits ds * 10 ^ (k : Int)) := by
  have hdigits : ∀ c ∈ ds ++ List.replicate k '0', isDigit c = true :=
    fun c hc => (List.mem_append.mp hc).elim (h.digits c) isDigit_of_mem_zeros
  have hwrites := Writes.whole (List.append_ne_nil_of_left_ne_nil h.nonempty _) hdigits .none
  rw [List.append_nil] at hwrites
  refine ⟨_, hwrites, ?_, h.tidy_whole _, nofun⟩
  rw [toDecimal, Decimal.toRat, List.append_nil, natOfDigits_append_zeros]
  simp

/-- Digits with a point among them. -/
theorem denotes_inside (h : Significant ds) {k : Nat} (hpos : 0 < k) (hlt : k < ds.length) :
    Denotes (ds.take k ++ '.' :: ds.drop k) (natOfDigits ds * 10 ^ ((k : Int) - ds.length)) := by
  have htake : ds.take k ≠ [] := by
    rw [← List.length_pos_iff, List.length_take]
    omega
  have hdrop : ∀ c ∈ ds.drop k, isDigit c = true := fun c hc => h.digits c (List.mem_of_mem_drop hc)
  have hwrites := Writes.point htake (fun c hc => h.digits c (List.mem_of_mem_take hc)) hdrop .none
  rw [List.append_nil] at hwrites
  refine ⟨_, hwrites, ?_, fun rest heq => ?_, ?_⟩
  · rw [toDecimal, Decimal.toRat, List.take_append_drop, List.length_drop]
    congr 2
    show 0 - ((ds.length - k : Nat) : Int) = k - ds.length
    omega
  · have hwhole : ds.take k = '0' :: rest := heq
    have hhead : (ds.take k).head? = some '0' := by rw [hwhole, List.head?_cons]
    rw [List.head?_take, if_neg (Nat.ne_of_gt hpos)] at hhead
    exact absurd hhead h.first
  · show (ds.drop k).getLast? ≠ some '0'
    rw [List.getLast?_drop, if_neg (by omega)]
    exact h.last

/-- Digits behind a point and zeros. -/
theorem denotes_below (h : Significant ds) (k : Nat) :
    Denotes ('0' :: '.' :: (List.replicate k '0' ++ ds))
      (natOfDigits ds * 10 ^ (-(k : Int) - ds.length)) := by
  have hzero : ∀ c ∈ ['0'], isDigit c = true := fun c hc => isDigit_of_mem_zeros (k := 1) hc
  have hfraction : ∀ c ∈ List.replicate k '0' ++ ds, isDigit c = true :=
    fun c hc => (List.mem_append.mp hc).elim isDigit_of_mem_zeros (h.digits c)
  have hvalue : natOfDigits (['0'] ++ (List.replicate k '0' ++ ds)) = natOfDigits ds :=
    natOfDigits_zeros_append (k + 1) ds
  have hwrites := Writes.point (List.cons_ne_nil '0' []) hzero hfraction .none
  rw [List.append_nil] at hwrites
  refine ⟨_, hwrites, ?_, fun rest heq => (List.cons.inj heq).2.symm, ?_⟩
  · rw [toDecimal, Decimal.toRat, hvalue, List.length_append, List.length_replicate]
    congr 2
    push_cast
    ring
  · show (List.replicate k '0' ++ ds).getLast? ≠ some '0'
    rw [List.getLast?_append_of_ne_nil _ h.nonempty]
    exact h.last

/-- One digit and an exponent. -/
theorem denotes_single {d : Char} (h : Significant [d]) (e : Int) :
    Denotes (d :: exponentText e) (natOfDigits [d] * 10 ^ e) := by
  refine ⟨_, .whole h.nonempty h.digits .signed, ?_, h.tidy_whole [], nofun⟩
  rw [toDecimal, Decimal.toRat, List.append_nil, List.length_nil, Int.natCast_zero, Int.sub_zero]

/-- One digit before a point, the others behind it, and an exponent. -/
theorem denotes_scaled {d d' : Char} {rest : List Char} (h : Significant (d :: d' :: rest))
    (e : Int) : Denotes (d :: '.' :: (d' :: rest ++ exponentText e))
      (natOfDigits (d :: d' :: rest) * 10 ^ (e - (d' :: rest).length)) := by
  have hfirst : ∀ c ∈ [d], isDigit c = true :=
    fun c hc => h.digits c (List.mem_singleton.mp hc ▸ List.mem_cons_self)
  have hrest : ∀ c ∈ d' :: rest, isDigit c = true :=
    fun c hc => h.digits c (List.mem_cons_of_mem d hc)
  refine ⟨_, .point (List.cons_ne_nil d []) hfirst hrest .signed, rfl,
    fun rest heq => (List.cons.inj heq).2.symm, ?_⟩
  have hlast := h.last
  rwa [List.getLast?_cons_cons] at hlast

/-- **Digits are laid out as a tidy numeral of their value.** -/
theorem denotes_layout (h : Significant ds) (point : Int) :
    Denotes (layout ds point) (natOfDigits ds * 10 ^ (point - ds.length)) := by
  unfold layout
  by_cases hwhole : ds.length ≤ point ∧ point ≤ mostWholeDigits
  · obtain ⟨k, hk⟩ := Int.eq_ofNat_of_zero_le (show 0 ≤ point - ds.length by omega)
    rw [if_pos hwhole, hk, Int.toNat_natCast]
    exact denotes_padded h k
  rw [if_neg hwhole]
  by_cases hinside : 0 < point ∧ point ≤ mostWholeDigits
  · obtain ⟨k, rfl⟩ := Int.eq_ofNat_of_zero_le (Int.le_of_lt hinside.1)
    have hmost := hinside.2
    rw [if_pos hinside, Int.toNat_natCast]
    exact denotes_inside h (by omega) (by omega)
  rw [if_neg hinside]
  by_cases hbelow : -mostLeadingZeros ≤ point ∧ point ≤ 0
  · obtain ⟨k, hk⟩ := Int.eq_ofNat_of_zero_le (show 0 ≤ -point by omega)
    obtain rfl : point = -k := by omega
    rw [if_pos hbelow, hk, Int.toNat_natCast]
    exact denotes_below h k
  rw [if_neg hbelow]
  match ds with
  | [] => exact absurd rfl h.nonempty
  | [d] => exact denotes_single h (point - 1)
  | d :: d' :: rest =>
    have hexponent : point - (d :: d' :: rest).length = point - 1 - (d' :: rest).length := by
      rw [List.length_cons]
      omega
    rw [hexponent]
    exact denotes_scaled h (point - 1)

/-- An exponent is written where the point is far from the digits. -/
theorem mem_layout (h : Significant ds) :
    'e' ∈ layout ds point ↔ ¬ (-6 < point ∧ point ≤ 21) := by
  have hdigits : 'e' ∉ ds := fun hmem => absurd (h.digits 'e' hmem) (by decide)
  have htake : 'e' ∉ ds.take point.toNat := fun hmem => hdigits (List.mem_of_mem_take hmem)
  have hdrop : 'e' ∉ ds.drop point.toNat := fun hmem => hdigits (List.mem_of_mem_drop hmem)
  have hmost : mostWholeDigits = 21 := rfl
  have hleading : mostLeadingZeros = 5 := rfl
  have hlength : 0 < ds.length := List.length_pos_iff.mpr h.nonempty
  unfold layout
  split
  · simp [hdigits]
    omega
  split
  · simp [htake, hdrop]
    omega
  split
  · simp [hdigits]
    omega
  · have hfar : ¬ (-6 < point ∧ point ≤ 21) := by omega
    simp only [hfar, not_false_iff, iff_true]
    split <;> simp [exponentText]

end Layout

/-- The text of a decimal is a tidy numeral of the decimal. -/
theorem denotes_decimalText {d : Decimal} (h : d.coefficient % 10 ≠ 0) :
    Denotes (decimalText d) d.toRat := by
  have hdenotes := denotes_layout (significant_toDigits h) (d.digits.length + d.exponent)
  have hexponent : (d.digits.length : Int) + d.exponent - d.digits.length = d.exponent := by omega
  rwa [natOfDigits_toDigits, show (Nat.toDigits 10 d.coefficient).length = d.digits.length from rfl,
    hexponent] at hdenotes

/-! ## Texts of numbers -/

/-- The text of a positive float is the one of its shortest decimal. -/
theorem text_of_positive {x : Float} {m : Nat} {e : Int} {hm : 0 < m}
    (hx : x.toModel.unpack = .finite .positive m e hm) :
    (text x).toList = decimalText (.shortest x) := by
  unfold text
  rw [hx]
  exact String.toList_ofList

/-- The float is positive zero, or finite and positive. -/
def Unsigned (x : Float) : Prop :=
  x.toModel.unpack = .zero .positive ∨ ∃ m e hm, x.toModel.unpack = .finite .positive m e hm

/-- The text of an unsigned float is a numeral of the float. -/
theorem writes_text {x : Float} (hx : Unsigned x) :
    ∃ n, Writes (text x).toList n ∧ n.toDecimal.toFloat = x := by
  rcases hx with hx | ⟨m, e, hm, hx⟩
  · have hzero : Decimal.toFloat ⟨0, 0⟩ = x := by
      show Float.ofModel (.pack (.zero .positive)) = x
      rw [← hx, pack_unpack_self]
    have hdigits : ∀ c ∈ ['0'], isDigit c = true := fun c => isDigit_of_mem_zeros (k := 1)
    have hwrites := Writes.whole (List.cons_ne_nil '0' []) hdigits .none
    have htext : "0".toList = ['0'] ++ [] := by decide
    unfold text
    rw [hx]
    dsimp only
    rw [htext]
    exact ⟨_, hwrites, hzero⟩
  · have hshortest := Decimal.isShortest_shortest hx
    obtain ⟨n, hwrites, hvalue, -⟩ := denotes_decimalText hshortest.significant
    rw [text_of_positive hx]
    refine ⟨n, hwrites, ?_⟩
    rw [Decimal.toFloat_eq_nearest, hvalue, ← Decimal.toFloat_eq_nearest, hshortest.reads,
      abs_of_positive hx]

/-- The text of an unsigned float is a number that stands for the float. -/
theorem value_text {x : Float} (hx : Unsigned x) :
    SpellsNumber (text x).toList ∧ NumberLiteral.value (text x).toList = x := by
  obtain ⟨n, hwrites, hvalue⟩ := writes_text hx
  refine ⟨hwrites.spells, ?_⟩
  rw [NumberLiteral.value, toFloat?, hwrites.read?]
  exact hvalue

/-- **The text of a number is a number literal that stands for the number.** -/
theorem spells_text {x : Float} (hfinite : x.isFinite = true) (hclear : x.toBits.toNat < 2 ^ 63) :
    Spells (text x).toList (.literal (.number x)) := by
  obtain ⟨hnumber, hvalue⟩ := value_text (unpack_of_clear hfinite hclear)
  have hspells := Spells.number hnumber
  rwa [hvalue] at hspells

end Number

end ExprSandbox
