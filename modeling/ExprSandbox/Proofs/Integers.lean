import ExprSandbox.Proofs.Numerals
import ExprSandbox.Proofs.Reading

/-!
# Integers that strings spell

A string of decimal digits is the float nearest to the integer that they spell.  Digits behind a
radix prefix are the float nearest to the integer without its lost digits (`truncated`), which is
the same one as long as the integer without its last digit is less than `2 ^ 53`.
-/

namespace ExprSandbox

open Lexer

section Decimal

variable {cs : List Char} {n : Nat}

/-- Decimal digits spell what they are read as. -/
theorem SpellsInteger.decimal (h : SpellsInteger 10 cs n) :
    (∀ c ∈ cs, isDigit c = true) ∧ natOfDigits cs = n := by
  induction cs using List.reverseRecOn generalizing n with
  | nil =>
    obtain rfl := spellsInteger_nil.mp h
    exact ⟨by simp, rfl⟩
  | append_singleton cs c ih =>
    obtain ⟨m, d, hm, hd, rfl⟩ := spellsInteger_concat.mp h
    obtain ⟨hdigits, hvalue⟩ := ih hm
    have hsome : (radixDigit? 10 c).isSome = true := by rw [hd]; rfl
    have hc : isDigit c = true := by
      have := Number.isSome_radixDigit?.mp hsome
      rw [isDigit_iff]
      omega
    have hdigit : c.toNat - '0'.toNat = d := by
      have hfilter := (Option.filter_eq_some_iff.mp hd).1
      rw [digitValue?, if_pos hc] at hfilter
      exact Option.some.inj hfilter
    constructor
    · intro c' hc'
      rcases List.mem_append.mp hc' with hmem | hmem
      · exact hdigits c' hmem
      · rwa [List.mem_singleton.mp hmem]
    · rw [natOfDigits, List.foldl_append, List.foldl_cons, List.foldl_nil, hdigit]
      show 10 * natOfDigits cs + d = _
      rw [hvalue, Nat.mul_comm]

/-- Decimal digits are read as the float nearest to what they spell. -/
theorem SpellsInteger.value (h : SpellsInteger 10 cs n) (hne : cs ≠ []) :
    NumberLiteral.value cs = Number.ofNat n := by
  obtain ⟨hdigits, hvalue⟩ := h.decimal
  have hwrites := Numeral.Writes.whole hne hdigits .none
  rw [List.append_nil] at hwrites
  rw [NumberLiteral.value, Numeral.toFloat?, hwrites.read?, Option.map_some, Option.getD_some,
    Numeral.toDecimal, Decimal.toFloat_eq_nearest, Decimal.toRat, List.append_nil, hvalue]
  simp [Number.ofNat_eq_nearest]

end Decimal

namespace Value

open Number

section ToNumber

variable {s : String} {cs : List Char} {n : Nat}

/-- Decimal digits are rounded once. -/
theorem toNumber_decimal (hs : Stripped s.toList cs) (hne : cs ≠ [])
    (h : SpellsInteger 10 cs n) : toNumber (.string s) = nearest n := by
  have hspells := (Numeral.Writes.whole hne h.decimal.1 .none).spells
  rw [List.append_nil] at hspells
  rw [toNumber_stripped hs, readTrimmed_of_spellsNumber hspells, h.value hne, ofNat_eq_nearest]

/-- Digits behind a prefix are rounded without the lost ones. -/
theorem toNumber_prefixed {letter : Char} {radix : Nat}
    (hs : Stripped s.toList ('0' :: letter :: cs)) (hradix : radixOf? '0' letter = some radix)
    (hne : cs ≠ []) (h : SpellsInteger radix cs n) :
    toNumber (.string s) = nearest (truncated radix n) := by
  obtain ⟨-, alphabet, hmem⟩ := mem_of_radixOf? hradix
  obtain ⟨j, hpos, hj, hradix', -⟩ := radixOf?_of_mem hmem
  obtain rfl : radix = 2 ^ j := Option.some.inj (hradix.symm.trans hradix')
  rw [toNumber_stripped hs, readTrimmed_prefix hradix, readRadix_eq hpos hj hne h,
    ofNat_eq_nearest]

end ToNumber

/-- **Which number an integer in a string is.**  Decimal digits are the float nearest to the
integer.  Digits behind a radix prefix are the float nearest to the integer without its lost
digits, and no digit is lost where the integer is less than `2 ^ 53` times the radix. -/
theorem toNumber_integer (n : Nat) :
    (∀ s cs, Stripped s.toList cs → cs ≠ [] → SpellsInteger 10 cs n →
      toNumber (.string s) = nearest n) ∧
    (∀ s letter radix cs, Stripped s.toList ('0' :: letter :: cs) →
      radixOf? '0' letter = some radix → cs ≠ [] → SpellsInteger radix cs n →
        toNumber (.string s) = nearest (truncated radix n)) ∧
    ∀ radix, n < 2 ^ 53 * radix → truncated radix n = n :=
  ⟨fun _ _ hs hne h => toNumber_decimal hs hne h,
    fun _ _ _ _ hs hradix hne h => toNumber_prefixed hs hradix hne h,
    fun _ h => truncated_of_lt h⟩

/-- The digits of `2 ^ 57 + 17`. -/
theorem spells_beyond_tie : SpellsInteger 10 "144115188075855889".toList 144115188075855889 ∧
    SpellsInteger 16 "200000000000011".toList 144115188075855889 :=
  ⟨⟨[1, 4, 4, 1, 1, 5, 1, 8, 8, 0, 7, 5, 8, 5, 5, 8, 8, 9], by decide, by decide⟩,
    ⟨[2, 0, 0, 0, 0, 0, 0, 0, 0, 0, 0, 0, 0, 1, 1], by decide, by decide⟩⟩

/-- The integer `2 ^ 57 + 17` in decimal and in hexadecimal digits, the last of which is lost, and
an integer that keeps all its digits. -/
theorem toNumber_integer_lost :
    (Stripped "144115188075855889".toList "144115188075855889".toList ∧
      SpellsInteger 10 "144115188075855889".toList 144115188075855889 ∧
        toNumber (.string "144115188075855889") = nearest (144115188075855889 : Nat)) ∧
    (Stripped " 0x200000000000011".toList ('0' :: 'x' :: "200000000000011".toList) ∧
      radixOf? '0' 'x' = some 16 ∧ SpellsInteger 16 "200000000000011".toList 144115188075855889 ∧
        toNumber (.string " 0x200000000000011") =
          nearest (truncated 16 144115188075855889 : Nat)) ∧
    8 < 2 ^ 53 * 2 ∧ truncated 2 8 = 8 := by
  have hdecimal : Stripped "144115188075855889".toList "144115188075855889".toList :=
    stripped_iff.mpr (by decide)
  have hprefixed : Stripped " 0x200000000000011".toList ('0' :: 'x' :: "200000000000011".toList) :=
    stripped_iff.mpr (by decide)
  obtain ⟨hten, hsixteen⟩ := spells_beyond_tie
  obtain ⟨hrounded, htruncated, -⟩ := toNumber_integer 144115188075855889
  exact ⟨⟨hdecimal, hten, hrounded _ _ hdecimal (by decide) hten⟩,
    ⟨hprefixed, rfl, hsixteen, htruncated _ _ _ _ hprefixed rfl (by decide) hsixteen⟩,
    by decide, (toNumber_integer 8).2.2 2 (by decide)⟩

/-- The two spellings of this integer are not the same number: the last hexadecimal digit, which
takes it beyond a tie, is lost. -/
theorem toNumber_spellings_differ :
    SpellsInteger 10 "144115188075855889".toList 144115188075855889 ∧
    SpellsInteger 16 "200000000000011".toList 144115188075855889 ∧
      (toNumber (.string "144115188075855889") == toNumber (.string "0x200000000000011")) =
        false := by
  obtain ⟨hten, hsixteen⟩ := spells_beyond_tie
  have hprefixed : Stripped "0x200000000000011".toList ('0' :: 'x' :: "200000000000011".toList) :=
    stripped_iff.mpr (by decide)
  have htruncated : truncated 16 144115188075855889 = 144115188075855888 := by
    rw [truncated, dif_pos (by decide), truncated, dif_neg (by decide)]
  refine ⟨hten, hsixteen, ?_⟩
  rw [toNumber_decimal (stripped_iff.mpr (by decide)) (by decide) hten,
    toNumber_prefixed hprefixed rfl (by decide) hsixteen, htruncated, ← ofNat_eq_nearest,
    ← ofNat_eq_nearest]
  decide

end Value

end ExprSandbox
