import ExprSandbox.Proofs.Radix
import ExprSandbox.Proofs.Scanning
import ExprSandbox.Value.Coercion

/-!
# The number that a text means

A text means a number where what is left of it without the blanks at its ends (`Stripped`) is
numeric (`NumericText`): a signed `Infinity`, digits behind a radix prefix, or a signed numeral.  An
empty rest means zero, and every other text is no number.  The words that the host reads besides
never come through, because each of them has a letter that no numeral has.
-/

namespace ExprSandbox

open Lexer NumberLiteral

/-! ## Blanks at the ends -/

/-- The rest of a text without the blanks at its two ends. -/
def Stripped (cs rest : List Char) : Prop :=
  ∃ before after, cs = before ++ rest ++ after ∧ (∀ c ∈ before ++ after, isBlank c = true) ∧
    (∀ c ∈ rest.head?, isBlank c = false) ∧ ∀ c ∈ rest.getLast?, isBlank c = false

/-- Blanks are dropped from both ends. -/
theorem stripped_iff {cs rest : List Char} : Stripped cs rest ↔ Number.trim cs = rest := by
  constructor
  · rintro ⟨before, after, rfl, hblank, hhead, hlast⟩
    have hbefore : ∀ c ∈ before, isBlank c = true :=
      fun c hc => hblank c (List.mem_append_left _ hc)
    have hafter : ∀ c ∈ after.reverse, isBlank c = true :=
      fun c hc => hblank c (List.mem_append_right _ (List.mem_reverse.mp hc))
    rcases List.eq_nil_or_concat rest with rfl | ⟨_, _, hne⟩
    · rw [List.append_nil, Number.trim, List.dropWhile_eq_nil_iff.mpr hblank]
      rfl
    · have hhead' : ∀ c ∈ (rest ++ after).head?, isBlank c = false := by
        rwa [List.head?_append_of_ne_nil _ (by simp [hne])]
      have hlast' : ∀ c ∈ rest.reverse.head?, isBlank c = false := by
        rwa [List.head?_reverse]
      rw [Number.trim, List.append_assoc, dropWhile_run hbefore hhead', List.reverse_append,
        dropWhile_run hafter hlast', List.reverse_reverse]
  · rintro rfl
    have hrest : Number.trim cs ++ ((cs.dropWhile isBlank).reverse.takeWhile isBlank).reverse =
        cs.dropWhile isBlank := by
      rw [Number.trim, ← List.reverse_append, List.takeWhile_append_dropWhile,
        List.reverse_reverse]
    refine ⟨cs.takeWhile isBlank, ((cs.dropWhile isBlank).reverse.takeWhile isBlank).reverse,
      ?_, ?_, ?_, ?_⟩
    · rw [List.append_assoc, hrest, List.takeWhile_append_dropWhile]
    · intro c hc
      rcases List.mem_append.mp hc with hc | hc
      · exact List.mem_takeWhile_imp hc
      · exact List.mem_takeWhile_imp (List.mem_reverse.mp hc)
    · intro c hc
      refine @not_of_mem_head?_dropWhile isBlank cs c ?_
      rw [← hrest, List.head?_append, Option.mem_def.mp hc]
      rfl
    · intro c hc
      rw [Number.trim, List.getLast?_reverse] at hc
      exact not_of_mem_head?_dropWhile c hc

/-- A text without blanks is the rest of itself. -/
theorem stripped_self {cs : List Char} (h : ∀ c ∈ cs, isBlank c = false) : Stripped cs cs :=
  ⟨[], [], by simp, by simp, fun c hc => h c (List.mem_of_mem_head? hc),
    fun c hc => h c (List.mem_of_getLast? hc)⟩

/-! ## Numerals -/

namespace Numeral

section Reads

variable {cs tail : List Char}

/-- Digits after an optional sign. -/
def SpellsSigned (cs : List Char) : Prop :=
  ∃ sign ds, sign ∈ [[], ['+'], ['-']] ∧ ds ≠ [] ∧ (∀ c ∈ ds, isDigit c = true) ∧ cs = sign ++ ds

/-- One or more digits are a magnitude. -/
theorem isSome_magnitude? :
    (signed?.magnitude? cs).isSome = true ↔ cs ≠ [] ∧ ∀ c ∈ cs, isDigit c = true := by
  rw [signed?.magnitude?, ← List.all_eq_true]
  split <;> simp_all

/-- A magnitude after an optional sign is an integer. -/
theorem isSome_signed? : (signed? cs).isSome = true ↔ SpellsSigned cs := by
  have hsign : ∀ c ds, (∀ d ∈ (c :: ds), isDigit d = true) → c ≠ '+' ∧ c ≠ '-' := by
    intro c ds h
    constructor <;> rintro rfl <;> exact absurd (h _ List.mem_cons_self) (by decide)
  constructor
  · intro h
    unfold signed? at h
    split at h
    · next ds =>
      obtain ⟨hne, hds⟩ := isSome_magnitude?.mp h
      exact ⟨['+'], ds, by simp, hne, hds, rfl⟩
    · next ds =>
      rw [Option.isSome_map] at h
      obtain ⟨hne, hds⟩ := isSome_magnitude?.mp h
      exact ⟨['-'], ds, by simp, hne, hds, rfl⟩
    · obtain ⟨hne, hds⟩ := isSome_magnitude?.mp h
      exact ⟨[], cs, by simp, hne, hds, rfl⟩
  · rintro ⟨sign, ds, hmem, hne, hds, rfl⟩
    have hmagnitude := isSome_magnitude?.mpr ⟨hne, hds⟩
    simp only [List.mem_cons, List.not_mem_nil, or_false] at hmem
    rcases hmem with rfl | rfl | rfl
    · obtain ⟨c, ds, rfl⟩ := List.exists_cons_of_ne_nil hne
      obtain ⟨hplus, hminus⟩ := hsign c ds hds
      rw [List.nil_append, signed?]
      · exact hmagnitude
      · simpa using fun h => absurd h hplus
      · simpa using fun h => absurd h hminus
    · exact hmagnitude
    · rw [List.singleton_append, signed?, Option.isSome_map]
      exact hmagnitude

/-- Nothing at all, or an integer behind the letter of an exponent. -/
def SpellsExponent (tail : List Char) : Prop :=
  tail = [] ∨ ∃ e cs, isExponentLetter e = true ∧ SpellsSigned cs ∧ tail = e :: cs

/-- What follows a mantissa is an exponent where there is any. -/
theorem isSome_exponent? : (exponent? tail).isSome = true ↔ SpellsExponent tail := by
  unfold SpellsExponent
  cases tail with
  | nil => simp [exponent?]
  | cons c cs =>
    rw [exponent?]
    split
    · next h =>
      rw [isSome_signed?]
      constructor
      · exact fun hcs => .inr ⟨c, cs, isExponentLetter_iff.mpr h, hcs, rfl⟩
      · rintro (hnil | ⟨e, cs', -, hcs, heq⟩)
        · cases hnil
        · rwa [(List.cons.inj heq).2]
    · next h =>
      constructor
      · intro hnone
        cases hnone
      · rintro (hnil | ⟨e, cs', he, -, heq⟩)
        · cases hnil
        · rw [← (List.cons.inj heq).1] at he
          exact absurd (isExponentLetter_iff.mp he) h

/-- An exponent begins with neither a digit nor a point. -/
theorem SpellsExponent.head (h : SpellsExponent tail) :
    ∀ c ∈ tail.head?, isDigit c = false ∧ c ≠ '.' := by
  intro c hc
  rcases h with rfl | ⟨e, cs, he, -, rfl⟩
  · cases hc
  · obtain rfl := Option.some.inj hc
    rcases isExponentLetter_iff.mp he with rfl | rfl <;> decide

/-- The text of a number is a mantissa and what follows it. -/
theorem spellsNumber_iff : SpellsNumber cs ↔
    ∃ m tail, SpellsMantissa m ∧ SpellsExponent tail ∧ cs = m ++ tail := by
  constructor
  · rintro (hm | ⟨hm, he, hsign, hne, hds⟩)
    · exact ⟨_, [], hm, .inl rfl, (List.append_nil _).symm⟩
    · exact ⟨_, _, hm, .inr ⟨_, _, he, ⟨_, _, hsign, hne, hds, rfl⟩, rfl⟩, rfl⟩
  · rintro ⟨m, tail, hm, rfl | ⟨e, _, he, ⟨sign, ds, hsign, hne, hds, rfl⟩, rfl⟩, rfl⟩
    · rw [List.append_nil]
      exact .plain hm
    · exact .scaled hm he hsign hne hds

/-- **The texts of numbers are those that are read as numerals.** -/
theorem isSome_read? : (read? cs).isSome = true ↔ SpellsNumber cs := by
  rw [spellsNumber_iff]
  unfold read?
  constructor
  · intro h
    have hcut := List.takeWhile_append_dropWhile (p := isDigit) (l := cs)
    have hwhole : ∀ c ∈ cs.takeWhile isDigit, isDigit c = true := fun c => List.mem_takeWhile_imp
    dsimp only at h
    split at h
    · next rest hrest =>
      split at h
      · cases h
      · next hne =>
        rw [Option.isSome_map, isSome_exponent?] at h
        have hfraction : ∀ c ∈ rest.takeWhile isDigit, isDigit c = true :=
          fun c => List.mem_takeWhile_imp
        refine ⟨_, _, .point (Decidable.not_and_iff_not_or_not.mp hne) hwhole hfraction, h, ?_⟩
        rw [List.append_assoc, List.cons_append, List.takeWhile_append_dropWhile, ← hrest, hcut]
    · split at h
      · cases h
      · next hne =>
        rw [Option.isSome_map, isSome_exponent?] at h
        exact ⟨_, _, .whole hne hwhole, h, hcut.symm⟩
  · rintro ⟨m, tail, hm, htail, rfl⟩
    have hhead : ∀ c ∈ tail.head?, isDigit c = false := fun c hc => (htail.head c hc).1
    have hexponent := isSome_exponent?.mpr htail
    cases hm with
    | whole nonempty digits =>
      rw [takeWhile_run digits hhead, dropWhile_run digits hhead]
      split
      · next rest => exact absurd rfl (htail.head '.' rfl).2
      · rwa [if_neg nonempty, Option.isSome_map]
    | @point ds fs nonempty whole fraction =>
      have hpoint : ∀ d ∈ ('.' :: (fs ++ tail)).head?, isDigit d = false :=
        fun d hd => Option.some.inj hd ▸ rfl
      rw [List.append_assoc, List.cons_append, takeWhile_run whole hpoint,
        dropWhile_run whole hpoint]
      split
      · next rest hrest =>
        obtain rfl := (List.cons.inj hrest).2
        rwa [takeWhile_run fraction hhead, dropWhile_run fraction hhead,
          if_neg (Decidable.not_and_iff_not_or_not.mpr nonempty), Option.isSome_map]
      · next hne => exact absurd rfl (hne _)

end Reads

end Numeral

namespace Number

/-! ## Texts for the host -/

section Host

variable {cs : List Char}

/-- The letters of the words of the host are not letters of numerals. -/
theorem isForeignLetter_of_toLower {c : Char} (h : c.toLower = 'i' ∨ c.toLower = 'n') :
    isForeignLetter c = true := by
  have hletter : c.toNat = 105 ∨ c.toNat = 73 ∨ c.toNat = 110 ∨ c.toNat = 78 := by
    unfold Char.toLower at h
    split at h
    · next hupper =>
      have hbounds : 65 ≤ c.toNat ∧ c.toNat ≤ 90 := hupper
      have hlower : (c.val + ('a'.val - 'A'.val)).toNat = c.toNat + 32 := by
        rw [UInt32.toNat_add]
        exact Nat.mod_eq_of_lt (show c.toNat + 32 < 2 ^ 32 by omega)
      have hcodes : c.toNat + 32 = 105 ∨ c.toNat + 32 = 110 := by
        rw [← hlower]
        rcases h with h | h
        · exact .inl (congrArg UInt32.toNat (Char.ext_iff.mp h))
        · exact .inr (congrArg UInt32.toNat (Char.ext_iff.mp h))
      omega
    · rcases h with rfl | rfl <;> simp
  have hnot : c ≠ 'e' ∧ c ≠ 'E' := by
    constructor <;> rintro rfl <;> exact absurd hletter (by decide)
  rw [isForeignLetter, Bool.and_eq_true, Bool.and_eq_true, isLetter_iff, bne_iff_ne, bne_iff_ne]
  exact ⟨⟨by omega, hnot.1⟩, hnot.2⟩

/-- A text whose letters numerals have is no word of the host. -/
theorem lookup_hostWords (h : cs.any isForeignLetter = false) :
    hostWords.lookup (String.ofList (cs.map Char.toLower)) = none := by
  -- each of the words begins with one of these two letters
  have hletters : ∀ c ∈ cs, c.toLower ≠ 'i' ∧ c.toLower ≠ 'n' := by
    intro c hc
    have hnot : ¬ isForeignLetter c = true := List.any_eq_false.mp h c hc
    exact ⟨fun hi => hnot (isForeignLetter_of_toLower (.inl hi)),
      fun hn => hnot (isForeignLetter_of_toLower (.inr hn))⟩
  have hhead : ∀ c, (c = 'i' ∨ c = 'n') → (cs.map Char.toLower).head? ≠ some c := by
    intro c hc hhead
    obtain ⟨d, hd, rfl⟩ := List.mem_map.mp (List.mem_of_head? hhead)
    exact hc.elim (hletters d hd).1 (hletters d hd).2
  have hword : ∀ word : String, (word.toList.head? = some 'i' ∨ word.toList.head? = some 'n') →
      (String.ofList (cs.map Char.toLower) != word) = true := by
    intro word hword
    rw [bne_iff_ne]
    rintro rfl
    rw [String.toList_ofList] at hword
    exact hword.elim (hhead 'i' (.inl rfl)) (hhead 'n' (.inr rfl))
  rw [List.lookup_eq_none_iff]
  simp only [hostWords, List.mem_cons, List.not_mem_nil, or_false, forall_eq_or_imp, forall_eq]
  exact ⟨hword _ (.inl rfl), hword _ (.inl rfl), hword _ (.inr rfl)⟩

/-- What the host reads of such a text is a numeral. -/
theorem hostMagnitude?_eq (h : cs.any isForeignLetter = false) :
    hostMagnitude? cs = Numeral.toFloat? cs := by
  rw [hostMagnitude?, lookup_hostWords h]
  cases Numeral.toFloat? cs <;> rfl

/-- A text is read as a number by the host where it is a numeral. -/
theorem isNaN_toFloat? : ((Numeral.toFloat? cs).getD nan).isNaN = false ↔ SpellsNumber cs := by
  rw [← Numeral.isSome_read?, Numeral.toFloat?]
  cases Numeral.read? cs with
  | none => exact iff_of_false (by decide) (by decide)
  | some n => exact iff_of_true n.toDecimal.isNaN_toFloat rfl

/-- The same behind a minus. -/
theorem isNaN_neg_toFloat? :
    (((Numeral.toFloat? cs).map (- ·)).getD nan).isNaN = false ↔ SpellsNumber cs := by
  rw [← Numeral.isSome_read?, Numeral.toFloat?]
  cases Numeral.read? cs with
  | none => exact iff_of_false (by decide) (by decide)
  | some n => exact iff_of_true (isNaN_neg n.toDecimal.isNaN_toFloat) rfl

/-- A numeral after an optional sign. -/
def SpellsDecimal (cs : List Char) : Prop :=
  ∃ sign text, sign ∈ [[], ['+'], ['-']] ∧ SpellsNumber text ∧ cs = sign ++ text

/-- A number begins with no sign. -/
theorem not_spellsNumber_cons {c : Char} (hc : isDigit c = false) (hne : c ≠ '.') :
    ¬ SpellsNumber (c :: cs) := by
  intro h
  have hstarts := h.starts []
  rw [List.append_nil, starts_eq_false hc hne] at hstarts
  cases hstarts

/-- The characters of a number: digits, a point, and the letter and the sign of an exponent. -/
theorem mem_of_spellsNumber (h : SpellsNumber cs) : ∀ c ∈ cs,
    isDigit c = true ∨ c = '.' ∨ isExponentLetter c = true ∨ c = '+' ∨ c = '-' := by
  have hmantissa : ∀ m, SpellsMantissa m → ∀ c ∈ m, isDigit c = true ∨ c = '.' := by
    rintro m hm c hc
    cases hm with
    | whole nonempty digits => exact .inl (digits c hc)
    | point nonempty whole fraction =>
      rcases List.mem_append.mp hc with hc | hc
      · exact .inl (whole c hc)
      rcases List.mem_cons.mp hc with rfl | hc
      · exact .inr rfl
      · exact .inl (fraction c hc)
  intro c hc
  cases h with
  | plain mantissa => exact (hmantissa _ mantissa c hc).imp_right .inl
  | @scaled m sign ds e mantissa letter sign_mem nonempty digits =>
    rcases List.mem_append.mp hc with hc | hc
    · exact (hmantissa _ mantissa c hc).imp_right .inl
    rcases List.mem_cons.mp hc with rfl | hc
    · exact .inr (.inr (.inl letter))
    rcases List.mem_append.mp hc with hc | hc
    · simp only [List.mem_cons, List.not_mem_nil, or_false] at sign_mem
      rcases sign_mem with rfl | rfl | rfl
      · cases hc
      · exact .inr (.inr (.inr (.inl (List.mem_singleton.mp hc))))
      · exact .inr (.inr (.inr (.inr (List.mem_singleton.mp hc))))
    · exact .inl (digits c hc)

/-- The letters of a number are those of numerals. -/
theorem foreign_of_spellsNumber (h : SpellsNumber cs) : ∀ c ∈ cs, isForeignLetter c = false := by
  intro c hc
  rcases mem_of_spellsNumber h c hc with hdigit | rfl | hletter | rfl | rfl
  · have hrange := isDigit_iff.mp hdigit
    have hletter : isLetter c = false := by
      rw [← Bool.not_eq_true, isLetter_iff]
      omega
    rw [isForeignLetter, hletter]
    rfl
  · decide
  · rcases isExponentLetter_iff.mp hletter with rfl | rfl <;> decide
  · decide
  · decide

/-- Behind a sign stands the numeral. -/
theorem spellsDecimal_cons {c : Char} (hc : c = '+' ∨ c = '-') :
    SpellsDecimal (c :: cs) ↔ SpellsNumber cs := by
  have hnot : ¬ SpellsNumber (c :: cs) := by
    rcases hc with rfl | rfl <;> exact not_spellsNumber_cons (by decide) (by decide)
  constructor
  · rintro ⟨sign, text, hsign, htext, heq⟩
    simp only [List.mem_cons, List.not_mem_nil, or_false] at hsign
    rcases hsign with rfl | rfl | rfl
    · rw [List.nil_append] at heq
      exact absurd (heq ▸ htext) hnot
    · rwa [(List.cons.inj heq).2]
    · rwa [(List.cons.inj heq).2]
  · rintro h
    rcases hc with rfl | rfl
    · exact ⟨['+'], cs, by simp, h, rfl⟩
    · exact ⟨['-'], cs, by simp, h, rfl⟩

/-- A signed numeral without a sign is a numeral. -/
theorem spellsDecimal_of_unsigned (hplus : ∀ rest, cs ≠ '+' :: rest)
    (hminus : ∀ rest, cs ≠ '-' :: rest) : SpellsDecimal cs ↔ SpellsNumber cs := by
  constructor
  · rintro ⟨sign, text, hsign, htext, rfl⟩
    simp only [List.mem_cons, List.not_mem_nil, or_false] at hsign
    rcases hsign with rfl | rfl | rfl
    · exact htext
    · exact absurd rfl (hplus text)
    · exact absurd rfl (hminus text)
  · exact fun h => ⟨[], cs, by simp, h, rfl⟩

/-- The letters of a signed numeral are those of numerals. -/
theorem foreign_of_spellsDecimal (h : SpellsDecimal cs) : cs.any isForeignLetter = false := by
  obtain ⟨sign, text, hsign, htext, rfl⟩ := h
  have hforeign : ∀ s ∈ [[], ['+'], ['-']], s.any isForeignLetter = false := by decide
  rw [List.any_append, hforeign sign hsign, Bool.false_or, List.any_eq_false]
  exact fun c hc => Bool.eq_false_iff.mp (foreign_of_spellsNumber htext c hc)

/-- **A text without a prefix is a number where it is a signed numeral.** -/
theorem isNaN_readDecimal : (readDecimal cs).isNaN = false ↔ SpellsDecimal cs := by
  unfold readDecimal
  split
  · next hforeign =>
    refine iff_of_false (by decide) fun h => ?_
    rw [foreign_of_spellsDecimal h] at hforeign
    cases hforeign
  · next hforeign =>
    have hletters := Bool.eq_false_iff.mpr hforeign
    unfold readSigned
    split
    · next rest =>
      rw [List.any_cons, Bool.or_eq_false_iff] at hletters
      rw [hostMagnitude?_eq hletters.2, isNaN_toFloat?, spellsDecimal_cons (.inl rfl)]
    · next rest =>
      rw [List.any_cons, Bool.or_eq_false_iff] at hletters
      rw [hostMagnitude?_eq hletters.2, isNaN_neg_toFloat?, spellsDecimal_cons (.inr rfl)]
    · next hplus hminus =>
      rw [hostMagnitude?_eq hletters, isNaN_toFloat?, spellsDecimal_of_unsigned hplus hminus]

end Host

/-! ## Digits behind a prefix -/

/-- The letters of the radix prefixes, and the digits that may follow. -/
def radixAlphabets : List (Char × String) :=
  [('x', "0123456789abcdefABCDEF"), ('X', "0123456789abcdefABCDEF"), ('o', "01234567"),
    ('O', "01234567"), ('b', "01"), ('B', "01")]

section Radix

variable {radix j : Nat} {cs : List Char}

/-- Digits and letters up to `f` are digits where their value is less than the radix. -/
theorem isSome_radixDigit? {c : Char} : (radixDigit? radix c).isSome = true ↔
    (48 ≤ c.toNat ∧ c.toNat ≤ 57 ∧ c.toNat - 48 < radix) ∨
      (97 ≤ c.toNat ∧ c.toNat ≤ 102 ∧ c.toNat - 97 + 10 < radix) ∨
        (65 ≤ c.toNat ∧ c.toNat ≤ 70 ∧ c.toNat - 65 + 10 < radix) := by
  have hle : ∀ a b : Char, a ≤ b ↔ a.toNat ≤ b.toNat := fun _ _ => Iff.rfl
  have hcodes : 'a'.toNat = 97 ∧ 'f'.toNat = 102 ∧ 'A'.toNat = 65 ∧ 'F'.toNat = 70 ∧
      '0'.toNat = 48 := by decide
  have hfilter : ∀ d, ((some d).filter (· < radix)).isSome = true ↔ d < radix := by
    intro d
    simp [Option.filter]
  unfold radixDigit? digitValue?
  simp only [isDigit_iff, Bool.and_eq_true, decide_eq_true_eq, hle, hcodes]
  split
  · rw [hfilter]
    omega
  split
  · rw [hfilter]
    omega
  split
  · rw [hfilter]
    omega
  · refine iff_of_false (by simp) (by omega)

/-- The letter of a prefix names a radix, and the digits of the radix may follow. -/
theorem radixOf?_of_mem {letter : Char} {alphabet : String}
    (h : (letter, alphabet) ∈ radixAlphabets) : ∃ j, 0 < j ∧ j < 53 ∧
      radixOf? '0' letter = some (2 ^ j) ∧
        ∀ c, (radixDigit? (2 ^ j) c).isSome = true ↔ c ∈ alphabet.toList := by
  have hexadecimal : ∀ c, (radixDigit? (2 ^ 4) c).isSome = true ↔
      c ∈ "0123456789abcdefABCDEF".toList := by
    intro c
    rw [isSome_radixDigit?]
    simp [← Char.toNat_inj]
    omega
  have octal : ∀ c, (radixDigit? (2 ^ 3) c).isSome = true ↔ c ∈ "01234567".toList := by
    intro c
    rw [isSome_radixDigit?]
    simp [← Char.toNat_inj]
    omega
  have binary : ∀ c, (radixDigit? (2 ^ 1) c).isSome = true ↔ c ∈ "01".toList := by
    intro c
    rw [isSome_radixDigit?]
    simp [← Char.toNat_inj]
    omega
  simp only [radixAlphabets, List.mem_cons, List.not_mem_nil, or_false, Prod.mk.injEq] at h
  rcases h with ⟨rfl, rfl⟩ | ⟨rfl, rfl⟩ | ⟨rfl, rfl⟩ | ⟨rfl, rfl⟩ | ⟨rfl, rfl⟩ | ⟨rfl, rfl⟩
  · exact ⟨4, by decide, by decide, rfl, hexadecimal⟩
  · exact ⟨4, by decide, by decide, rfl, hexadecimal⟩
  · exact ⟨3, by decide, by decide, rfl, octal⟩
  · exact ⟨3, by decide, by decide, rfl, octal⟩
  · exact ⟨1, by decide, by decide, rfl, binary⟩
  · exact ⟨1, by decide, by decide, rfl, binary⟩

/-- Only these letters behind a zero name a radix. -/
theorem mem_of_radixOf? {a b : Char} (h : radixOf? a b = some radix) :
    a = '0' ∧ ∃ alphabet, (b, alphabet) ∈ radixAlphabets := by
  unfold radixOf? at h
  split at h
  · exact ⟨rfl, "0123456789abcdefABCDEF", by decide⟩
  · exact ⟨rfl, "0123456789abcdefABCDEF", by decide⟩
  · exact ⟨rfl, "01234567", by decide⟩
  · exact ⟨rfl, "01234567", by decide⟩
  · exact ⟨rfl, "01", by decide⟩
  · exact ⟨rfl, "01", by decide⟩
  · cases h

/-- **Digits behind a prefix are a number where there is one, and all are digits of the radix.** -/
theorem isNaN_readRadix (hpos : 0 < j) (hj : j < 53) : (readRadix (2 ^ j) cs).isNaN = false ↔
    cs ≠ [] ∧ ∀ c ∈ cs, (radixDigit? (2 ^ j) c).isSome = true := by
  constructor
  · intro h
    unfold readRadix at h
    split at h
    · next c cs ds hds =>
      refine ⟨List.cons_ne_nil c cs, fun d hd => ?_⟩
      have hmem := List.mem_map_of_mem (f := radixDigit? (2 ^ j)) hd
      rw [mapM_eq_some_iff.mp hds] at hmem
      obtain ⟨v, -, hv⟩ := List.mem_map.mp hmem
      rw [← hv]
      rfl
    · exact absurd h (by decide)
  · rintro ⟨hne, hall⟩
    obtain ⟨ds, hds⟩ : ∃ ds : List Nat, cs.map (radixDigit? (2 ^ j)) = ds.map some := by
      refine ⟨cs.map fun c => (radixDigit? (2 ^ j) c).getD 0, ?_⟩
      rw [List.map_map]
      refine List.map_congr_left fun c hc => ?_
      obtain ⟨d, hd⟩ := Option.isSome_iff_exists.mp (hall c hc)
      rw [Function.comp_apply, hd, Option.getD_some]
    rw [readRadix_eq hpos hj hne ⟨ds, hds, rfl⟩, ofNat_eq_nearest]
    exact isNaN_nearest (Nat.cast_nonneg _)

end Radix

/-! ## Numeric texts -/

/-- A signed `Infinity`, one or more digits behind the prefix of their radix, or a numeral after an
optional sign. -/
inductive NumericText : List Char → Prop
  | infinity {sign : List Char} (sign_mem : sign ∈ [[], ['+'], ['-']]) :
      NumericText (sign ++ "Infinity".toList)
  | radix {letter : Char} {alphabet : String} {digits : List Char}
      (mem_alphabets : (letter, alphabet) ∈ radixAlphabets) (nonempty : digits ≠ [])
      (mem : ∀ c ∈ digits, c ∈ alphabet.toList) : NumericText ('0' :: letter :: digits)
  | decimal {cs : List Char} (decimal : SpellsDecimal cs) : NumericText cs

section NumericText

variable {cs : List Char}

/-- The signed `Infinity` has three spellings. -/
theorem exists_infinity_iff : (∃ sign, sign ∈ [[], ['+'], ['-']] ∧ cs = sign ++ "Infinity".toList) ↔
    (cs = "Infinity".toList ∨ cs = "+Infinity".toList) ∨ cs = "-Infinity".toList := by
  simp only [List.mem_cons, List.not_mem_nil, or_false, or_and_right, exists_or, exists_eq_left,
    or_assoc]
  rfl

/-- The letter of a prefix is the letter of no numeral. -/
theorem not_spellsDecimal_of_radix {letter : Char} {alphabet : String} {a : Char}
    (h : (letter, alphabet) ∈ radixAlphabets) : ¬ SpellsDecimal (a :: letter :: cs) := by
  have hforeign : ∀ p ∈ radixAlphabets, isForeignLetter p.1 = true := by decide
  intro hdecimal
  have hletters := foreign_of_spellsDecimal hdecimal
  rw [List.any_cons, List.any_cons, hforeign _ h, Bool.true_or, Bool.or_true] at hletters
  cases hletters

/-- Behind a prefix, numeric means digits of the radix. -/
theorem numericText_prefix {letter : Char} {alphabet : String}
    (h : (letter, alphabet) ∈ radixAlphabets) : NumericText ('0' :: letter :: cs) ↔
      cs ≠ [] ∧ ∀ c ∈ cs, c ∈ alphabet.toList := by
  constructor
  · intro hnumeric
    generalize hcs : '0' :: letter :: cs = text at hnumeric
    cases hnumeric with
    | @infinity sign sign_mem =>
      have hhead : ∀ s ∈ [[], ['+'], ['-']], (s ++ "Infinity".toList).head? ≠ some '0' := by decide
      exact absurd (hcs ▸ rfl) (hhead sign sign_mem)
    | radix mem_alphabets nonempty mem =>
      obtain ⟨rfl, rfl⟩ := List.cons.inj (List.cons.inj hcs).2
      obtain ⟨j, -, -, hradix, hdigits⟩ := radixOf?_of_mem h
      obtain ⟨j', -, -, hradix', hdigits'⟩ := radixOf?_of_mem mem_alphabets
      have hsame : 2 ^ j = 2 ^ j' := Option.some.inj (hradix.symm.trans hradix')
      refine ⟨nonempty, fun c hc => ?_⟩
      rw [← hdigits, hsame, hdigits']
      exact mem c hc
    | decimal decimal => exact absurd (hcs ▸ decimal) (not_spellsDecimal_of_radix h)
  · rintro ⟨hne, hall⟩
    exact .radix h hne hall

/-- Without a prefix, numeric means infinite or a signed numeral. -/
theorem numericText_plain (h : ∀ a b rest, cs = a :: b :: rest → radixOf? a b = none) :
    NumericText cs ↔
      (∃ sign, sign ∈ [[], ['+'], ['-']] ∧ cs = sign ++ "Infinity".toList) ∨ SpellsDecimal cs := by
  constructor
  · rintro (@⟨sign, hsign⟩ | @⟨letter, alphabet, digits, hmem, -, -⟩ | hdecimal)
    · exact .inl ⟨sign, hsign, rfl⟩
    · obtain ⟨j, -, -, hradix, -⟩ := radixOf?_of_mem hmem
      cases (h '0' letter digits rfl).symm.trans hradix
    · exact .inr hdecimal
  · rintro (⟨sign, hsign, rfl⟩ | hdecimal)
    · exact .infinity hsign
    · exact .decimal hdecimal

/-- **A text without blanks at its ends is a number where it is numeric.** -/
theorem isNaN_readTrimmed (hne : cs ≠ []) :
    (readTrimmed cs).isNaN = false ↔ NumericText cs := by
  have hplain : ¬ (∃ sign, sign ∈ [[], ['+'], ['-']] ∧ cs = sign ++ "Infinity".toList) →
      (∀ a b rest, cs = a :: b :: rest → radixOf? a b = none) →
        ((readDecimal cs).isNaN = false ↔ NumericText cs) := by
    intro hinfinite hradix
    rw [isNaN_readDecimal, numericText_plain hradix, or_iff_right hinfinite]
  have hinfinity : (∃ sign, sign ∈ [[], ['+'], ['-']] ∧ cs = sign ++ "Infinity".toList) →
      NumericText cs := by
    rintro ⟨sign, hsign, rfl⟩
    exact .infinity hsign
  rw [exists_infinity_iff] at hplain hinfinity
  unfold readTrimmed
  rw [if_neg hne]
  split
  · next hword => exact iff_of_true (by decide) (hinfinity (.inl hword))
  split
  · next hword => exact iff_of_true (by decide) (hinfinity (.inr hword))
  next hword hminus =>
  have hfinite := not_or.mpr ⟨hword, hminus⟩
  split
  · next a b rest =>
    split
    · next radix hradix =>
      obtain ⟨rfl, alphabet, hmem⟩ := mem_of_radixOf? hradix
      obtain ⟨j, hpos, hj, hradix', hdigits⟩ := radixOf?_of_mem hmem
      obtain rfl : radix = 2 ^ j := Option.some.inj (hradix.symm.trans hradix')
      simp only [isNaN_readRadix hpos hj, numericText_prefix hmem, hdigits]
    · next hradix =>
      refine hplain hfinite fun a' b' rest' heq => ?_
      cases heq
      exact hradix
  · next hshort => exact hplain hfinite fun a b rest heq => absurd heq (hshort a b rest)

end NumericText

/-! ## Texts of numbers -/

section SpellsNumber

variable {cs : List Char}

/-- Behind a prefix, digits of the radix are read. -/
theorem readTrimmed_prefix {letter : Char} {radix : Nat} (h : radixOf? '0' letter = some radix) :
    readTrimmed ('0' :: letter :: cs) = readRadix radix cs := by
  have hinfinity : ¬ ('0' :: letter :: cs = "Infinity".toList ∨
      '0' :: letter :: cs = "+Infinity".toList) := by
    rintro (heq | heq) <;> cases heq
  have hminus : '0' :: letter :: cs ≠ "-Infinity".toList := by
    intro heq
    cases heq
  unfold readTrimmed
  rw [if_neg (List.cons_ne_nil _ _), if_neg hinfinity, if_neg hminus]
  dsimp only
  rw [h]

/-- The letter of a prefix stands in no number. -/
theorem radixOf?_of_spellsNumber {a b : Char} {rest : List Char}
    (h : SpellsNumber (a :: b :: rest)) : radixOf? a b = none := by
  rw [Option.eq_none_iff_forall_ne_some]
  intro radix hradix
  obtain ⟨-, alphabet, hmem⟩ := mem_of_radixOf? hradix
  exact not_spellsDecimal_of_radix hmem ⟨[], _, by simp, h, rfl⟩

/-- A number begins with a digit or a point. -/
theorem head_of_spellsNumber (h : SpellsNumber cs) :
    ∃ c rest, cs = c :: rest ∧ (isDigit c = true ∨ c = '.') := by
  cases cs with
  | nil => exact absurd (h.starts []) (by decide)
  | cons c rest =>
    refine ⟨c, rest, rfl, ?_⟩
    by_contra hno
    obtain ⟨hdigit, hpoint⟩ := not_or.mp hno
    exact not_spellsNumber_cons (Bool.eq_false_iff.mpr hdigit) hpoint h

/-- **The text of a number is read as its numeral.** -/
theorem readTrimmed_of_spellsNumber (h : SpellsNumber cs) :
    readTrimmed cs = NumberLiteral.value cs := by
  obtain ⟨c, rest, rfl, hc⟩ := head_of_spellsNumber h
  have hhead : c ≠ '+' ∧ c ≠ '-' ∧ c ≠ 'I' := by
    rcases hc with hc | rfl
    · refine ⟨?_, ?_, ?_⟩ <;> rintro rfl <;> exact absurd hc (by decide)
    · decide
  have hdecimal : SpellsDecimal (c :: rest) := ⟨[], _, by simp, h, rfl⟩
  have hletters := foreign_of_spellsDecimal hdecimal
  have hread : readDecimal (c :: rest) = NumberLiteral.value (c :: rest) := by
    rw [readDecimal, hletters, if_neg Bool.false_ne_true, readSigned]
    · rw [hostMagnitude?_eq hletters, NumberLiteral.value]
    · exact fun rest' heq => hhead.1 (List.cons.inj heq).1
    · exact fun rest' heq => hhead.2.1 (List.cons.inj heq).1
  have hword : ∀ word : List Char, (word.head? = some 'I' ∨ word.head? = some '+' ∨
      word.head? = some '-') → c :: rest ≠ word := by
    rintro word hfirst rfl
    simp only [List.head?_cons, Option.some.injEq] at hfirst
    rcases hfirst with hc | hc | hc
    · exact hhead.2.2 hc
    · exact hhead.1 hc
    · exact hhead.2.1 hc
  have hinfinity := not_or.mpr ⟨hword "Infinity".toList (.inl rfl),
    hword "+Infinity".toList (.inr (.inl rfl))⟩
  unfold readTrimmed
  rw [if_neg (List.cons_ne_nil c rest), if_neg hinfinity,
    if_neg (hword "-Infinity".toList (.inr (.inr rfl)))]
  cases rest with
  | nil => exact hread
  | cons b tail =>
    dsimp only
    rw [radixOf?_of_spellsNumber h]
    exact hread

/-- Behind a minus it is read as the negative of its numeral. -/
theorem readTrimmed_neg (h : SpellsNumber cs) :
    readTrimmed ('-' :: cs) = -NumberLiteral.value cs := by
  obtain ⟨c, rest, rfl, hc⟩ := head_of_spellsNumber h
  have hc : c ≠ 'I' := by
    rcases hc with hc | rfl
    · rintro rfl
      exact absurd hc (by decide)
    · decide
  have hdecimal : SpellsDecimal ('-' :: c :: rest) := ⟨['-'], _, by simp, h, rfl⟩
  have hletters := foreign_of_spellsDecimal hdecimal
  have hnumeral : ∃ n, Numeral.read? (c :: rest) = some n :=
    Option.isSome_iff_exists.mp (Numeral.isSome_read?.mpr h)
  have hread : readDecimal ('-' :: c :: rest) = -NumberLiteral.value (c :: rest) := by
    obtain ⟨n, hn⟩ := hnumeral
    rw [readDecimal, hletters, if_neg Bool.false_ne_true, readSigned]
    rw [List.any_cons, Bool.or_eq_false_iff] at hletters
    rw [hostMagnitude?_eq hletters.2, NumberLiteral.value, Numeral.toFloat?, hn]
    rfl
  have hinfinity : ¬ ('-' :: c :: rest = "Infinity".toList ∨
      '-' :: c :: rest = "+Infinity".toList) := by
    rintro (heq | heq) <;> cases heq
  have hminus : '-' :: c :: rest ≠ "-Infinity".toList := by
    intro heq
    exact hc (List.cons.inj (List.cons.inj heq).2).1
  unfold readTrimmed
  rw [if_neg (List.cons_ne_nil _ _), if_neg hinfinity, if_neg hminus]
  exact hread

end SpellsNumber

end Number

namespace Value

open Number

/-- A string is read without the blanks at its ends. -/
theorem toNumber_stripped {s : String} {rest : List Char} (h : Stripped s.toList rest) :
    toNumber (.string s) = readTrimmed rest := by
  show readTrimmed (trim s.toList) = _
  rw [stripped_iff.mp h]

/-- **Which strings are numbers.**  A string is stripped of the blanks at its ends in one way.  It
is zero where nothing is left, and otherwise it is a number exactly where what is left is
numeric. -/
theorem toNumber_string (s : String) : (∃! rest, Stripped s.toList rest) ∧
    ∀ rest, Stripped s.toList rest →
      (rest = [] → toNumber (.string s) = zero) ∧
      (rest ≠ [] → ((toNumber (.string s)).isNaN = false ↔ NumericText rest)) := by
  refine ⟨⟨trim s.toList, stripped_iff.mpr rfl, fun rest h => (stripped_iff.mp h).symm⟩,
    fun rest h => ?_⟩
  rw [toNumber_stripped h]
  refine ⟨?_, fun hne => isNaN_readTrimmed hne⟩
  rintro rfl
  rfl

/-- A hexadecimal integer among blanks, a prefix without digits, and nothing but a blank. -/
theorem toNumber_string_prefixed :
    (Stripped "\n0x1F ".toList "0x1F".toList ∧ "0x1F".toList ≠ [] ∧
      NumericText "0x1F".toList ∧ (toNumber (.string "\n0x1F ")).isNaN = false) ∧
    (Stripped "0x".toList "0x".toList ∧ "0x".toList ≠ [] ∧
      ((toNumber (.string "0x")).isNaN = false ↔ NumericText "0x".toList)) ∧
    Stripped " ".toList [] ∧ toNumber (.string " ") = zero := by
  have hhexadecimal : Stripped "\n0x1F ".toList "0x1F".toList :=
    stripped_iff.mpr (by decide)
  have hbare : Stripped "0x".toList "0x".toList := stripped_iff.mpr (by decide)
  have hblank : Stripped " ".toList [] := stripped_iff.mpr (by decide)
  have hdigits : ∀ c ∈ ['1', 'F'], c ∈ "0123456789abcdefABCDEF".toList := by simp
  have hnumeric : NumericText "0x1F".toList :=
    .radix List.mem_cons_self (List.cons_ne_nil _ _) hdigits
  refine ⟨⟨hhexadecimal, by decide, hnumeric, ?_⟩, ⟨hbare, by decide, ?_⟩, hblank, ?_⟩
  · exact (((toNumber_string _).2 _ hhexadecimal).2 (by decide)).mpr hnumeric
  · exact ((toNumber_string _).2 _ hbare).2 (by decide)
  · exact ((toNumber_string _).2 _ hblank).1 rfl

end Value

end ExprSandbox
