import ExprSandbox.Proofs.Lossless
import ExprSandbox.Proofs.Numerals
import ExprSandbox.Proofs.Reading

/-!
# The text of a number

The text of a finite number other than zero is a sign and a tidy numeral that denotes exactly the
shortest decimal of the number.  The lexer reads the text of a magnitude as one number, and every
number is what its text converts to (`text_denotes`).
-/

namespace ExprSandbox

open Lexer

namespace Decimal

/-- The power of ten that the first digit of a decimal counts. -/
def leading (d : Decimal) : Int :=
  d.digits.length + d.exponent - 1

/-- The text is a tidy numeral of the digits of the decimal, and has an exponent where the first
digit counts too small or too great a power of ten. -/
structure IsText (body : List Char) (d : Decimal) : Prop where
  denotes : Number.Denotes body (natOfDigits d.digits * 10 ^ (d.leading + 1 - d.digits.length))
  exponent : 'e' ∈ body ↔ ¬ (-7 < d.leading ∧ d.leading < 21)

/-- **A decimal is laid out as a text of it.** -/
theorem isText_decimalText {d : Decimal} (h : d.coefficient % 10 ≠ 0) :
    IsText (Number.decimalText d) d where
  denotes := by
    have hpoint : d.leading + 1 - d.digits.length =
        d.digits.length + d.exponent - d.digits.length := by
      unfold leading
      omega
    rw [hpoint]
    exact Number.denotes_layout (Number.significant_toDigits h) _
  exponent := by
    have hsignificant : Number.Significant d.digits := Number.significant_toDigits h
    rw [Number.decimalText, Number.mem_layout hsignificant]
    unfold leading
    omega

end Decimal

namespace Number

open Float.Model (UnpackedFloat)
open Float.Model.UnpackedFloat

/-! ## Signs -/

section Sign

variable {x : Float} {s : Sign} {m : Nat} {e : Int} {hm : 0 < m}

/-- A float is below zero where its sign is a minus. -/
theorem lt_zero_iff (hx : x.toModel.unpack = .finite s m e hm) : x < zero ↔ s = .negative := by
  show decide (x.toModel.unpack.lt zero.toModel.unpack = true) = true ↔ _
  have hzero : zero.toModel.unpack = .zero .positive := unpack_pack_zero .positive
  rw [hx, hzero, decide_eq_true_eq]
  cases s with
  | positive => exact iff_of_false Bool.false_ne_true nofun
  | negative => exact iff_of_true rfl rfl

/-- The magnitude of a finite float is unsigned. -/
theorem unsigned_abs (hfinite : x.isFinite = true) : Unsigned x.abs := by
  rcases unpack_of_isFinite hfinite with ⟨s, hx⟩ | ⟨s, m, e, hm, hx⟩
  · refine .inl ?_
    show (Float.Model.pack x.toModel.unpack.abs).unpack = _
    rw [hx]
    exact unpack_pack_zero .positive
  · exact .inr ⟨m, e, hm, unpack_abs hx⟩

/-- A negative float is the negative of its magnitude. -/
theorem neg_abs (hx : x.toModel.unpack = .finite .negative m e hm) : -x.abs = x := by
  show Float.ofModel (.pack x.abs.toModel.unpack.neg) = x
  rw [unpack_abs hx, UnpackedFloat.neg]
  show Float.ofModel (.pack (.finite .negative m e hm)) = x
  rw [← hx, pack_unpack_self]

end Sign

/-! ## Texts of numbers -/

section Text

variable {x : Float} {s : Sign} {m : Nat} {e : Int} {hm : 0 < m}

/-- The text of a finite number other than zero is a sign and the text of its shortest decimal. -/
theorem text_of_unpack (hx : x.toModel.unpack = .finite s m e hm) :
    (text x).toList = (if x < zero then ['-'] else []) ++ decimalText (.shortest x) := by
  unfold text
  rw [hx]
  cases s with
  | positive =>
    rw [if_neg fun hlt => Sign.noConfusion ((lt_zero_iff hx).mp hlt)]
    exact String.toList_ofList
  | negative =>
    rw [if_pos ((lt_zero_iff hx).mpr rfl)]
    exact String.toList_ofList

/-- The shortest decimal is that of the magnitude. -/
theorem shortest_abs (hx : x.toModel.unpack = .finite s m e hm) :
    Decimal.shortest x.abs = .shortest x := by
  rw [Decimal.shortest, Decimal.shortest, hx, unpack_abs hx]
  dsimp only
  rw [abs_of_positive (unpack_abs hx)]

/-- The text of a negative number is a minus and the text of its magnitude. -/
theorem text_of_negative (hx : x.toModel.unpack = .finite .negative m e hm) :
    (text x).toList = '-' :: (text x.abs).toList := by
  rw [text_of_unpack hx, if_pos ((lt_zero_iff hx).mpr rfl), text_of_positive (unpack_abs hx),
    shortest_abs hx]
  rfl

/-- No blank stands in a number. -/
theorem blank_of_spellsNumber {cs : List Char} (h : SpellsNumber cs) :
    ∀ c ∈ cs, isBlank c = false := by
  intro c hc
  rcases mem_of_spellsNumber h c hc with hdigit | rfl | hletter | rfl | rfl
  · exact isBlank_eq_false (.inl hdigit)
  · decide
  · rcases isExponentLetter_iff.mp hletter with rfl | rfl <;> decide
  · decide
  · decide

/-- The text of a magnitude is one token. -/
theorem tokenize_text (hx : Unsigned x) :
    tokenize (text x) = .ok [⟨text x, .literal (.number x), 0⟩] := by
  obtain ⟨hnumber, hvalue⟩ := value_text hx
  have hspells := Spells.number hnumber
  rw [hvalue] at hspells
  have hscan : scan 0 ((text x).toList ++ []) = _ := scan_spelled hspells (ends_nil _)
  rw [List.append_nil, scan, String.ofList_toList] at hscan
  exact hscan

/-- The text of an unsigned number converts to the number. -/
theorem toNumber_text_unsigned (hx : Unsigned x) : Value.toNumber (.string (text x)) = x := by
  obtain ⟨hnumber, hvalue⟩ := value_text hx
  rw [Value.toNumber_stripped (stripped_self (blank_of_spellsNumber hnumber)),
    readTrimmed_of_spellsNumber hnumber, hvalue]

/-- The text of a negative number converts to the number. -/
theorem toNumber_text_negative (hx : x.toModel.unpack = .finite .negative m e hm) :
    Value.toNumber (.string (text x)) = x := by
  obtain ⟨hnumber, hvalue⟩ := value_text (.inr ⟨m, e, hm, unpack_abs hx⟩)
  have hblank : ∀ c ∈ '-' :: (text x.abs).toList, isBlank c = false :=
    List.forall_mem_cons.mpr ⟨by decide, blank_of_spellsNumber hnumber⟩
  have hstripped := stripped_self hblank
  rw [← text_of_negative hx] at hstripped
  rw [Value.toNumber_stripped hstripped, text_of_negative hx, readTrimmed_neg hnumber, hvalue,
    neg_abs hx]

/-- **The text of a number converts to the number.** -/
theorem toNumber_text (h : x.isNaN = false) : (Value.toNumber (.string (text x)) == x) = true := by
  cases hx : x.toModel.unpack with
  | notANumber =>
    have hmodel : x.toModel.unpack.isNaN = false := h
    rw [hx] at hmodel
    cases hmodel
  | infinity s =>
    have hpacked : Float.ofModel (.pack (.infinity s)) = x := by rw [← hx, pack_unpack_self]
    rw [text, hx, ← hpacked]
    cases s <;> decide
  | zero s =>
    have hzero : Value.toNumber (.string "0") = zero := by decide
    rw [text, hx]
    dsimp only
    rw [hzero]
    exact BEq.symm (beq_zero hx)
  | finite s m e hm =>
    cases s with
    | positive =>
      rw [toNumber_text_unsigned (.inr ⟨m, e, hm, hx⟩)]
      exact beq_self h
    | negative =>
      rw [toNumber_text_negative hx]
      exact beq_self h

/-- The text of what is no number converts to what is no number. -/
theorem isNaN_toNumber_text (h : x.isNaN = true) :
    (Value.toNumber (.string (text x))).isNaN = true := by
  have htext : text x = "NaN" := by
    have hmodel : x.toModel.unpack.isNaN = true := h
    unfold text
    cases hx : x.toModel.unpack with
    | notANumber => rfl
    | _ =>
      rw [hx] at hmodel
      cases hmodel
  rw [htext]
  decide

/-- **The text of a number is exact and reads back.**  The text of a finite number other than zero
is a minus, where the number is negative, and a tidy numeral that denotes exactly the shortest
decimal that reads as the magnitude of the number; it has no exponent where the first digit counts
a power of ten between the seventh below and the twenty-first.  The text of a finite magnitude is
one token, and the text of every number converts to the number. -/
theorem text_denotes (x : Float) :
    (x.isFinite = true → (x == zero) = false → Decimal.IsShortest x.abs (.shortest x) ∧
      ∃ body, (text x).toList = (if x < zero then ['-'] else []) ++ body ∧
        Decimal.IsText body (.shortest x)) ∧
    (x.isFinite = true →
      tokenize (text x.abs) = .ok [⟨text x.abs, .literal (.number x.abs), 0⟩]) ∧
    (x.isNaN = false → (Value.toNumber (.string (text x)) == x) = true) ∧
    (x.isNaN = true → (Value.toNumber (.string (text x))).isNaN = true) := by
  refine ⟨fun hfinite hne => ?_, fun hfinite => tokenize_text (unsigned_abs hfinite),
    toNumber_text, isNaN_toNumber_text⟩
  rcases unpack_of_isFinite hfinite with ⟨s, hx⟩ | ⟨s, m, e, hm, hx⟩
  · rw [beq_zero hx] at hne
    cases hne
  · have hshortest := Decimal.isShortest_shortest hx
    exact ⟨hshortest, _, text_of_unpack hx, Decimal.isText_decimalText hshortest.significant⟩

/-- A negative number whose text has an exponent, and no number. -/
theorem text_denotes_negative :
    ((-ofNat (10 ^ 21)).isFinite = true ∧ (-ofNat (10 ^ 21) == zero) = false ∧
      (-ofNat (10 ^ 21)).isNaN = false ∧ Decimal.shortest (-ofNat (10 ^ 21)) = ⟨1, 21⟩ ∧
      Decimal.IsShortest (-ofNat (10 ^ 21)).abs ⟨1, 21⟩ ∧
      Decimal.IsText ['1', 'e', '+', '2', '1'] ⟨1, 21⟩ ∧
      tokenize "1e+21" = .ok [⟨"1e+21", .literal (.number (-ofNat (10 ^ 21)).abs), 0⟩] ∧
      (Value.toNumber (.string "-1e+21") == -ofNat (10 ^ 21)) = true) ∧
    nan.isNaN = true ∧ (Value.toNumber (.string (text nan))).isNaN = true := by
  have hfinite : (-ofNat (10 ^ 21)).isFinite = true := by decide
  have hne : (-ofNat (10 ^ 21) == zero) = false := by decide
  have hnumber : (-ofNat (10 ^ 21)).isNaN = false := by decide
  have hnan : nan.isNaN = true := by decide
  have hshortest : Decimal.shortest (-ofNat (10 ^ 21)) = ⟨1, 21⟩ := by decide +kernel
  have hbelow : -ofNat (10 ^ 21) < zero := by decide
  have htext : text (-ofNat (10 ^ 21)) = "-1e+21" := by decide +kernel
  have habs : text (-ofNat (10 ^ 21)).abs = "1e+21" := by decide +kernel
  obtain ⟨hdenotes, htoken, hreads, -⟩ := text_denotes (-ofNat (10 ^ 21))
  obtain ⟨hfewest, body, hbody, hdigits⟩ := hdenotes hfinite hne
  rw [htext, if_pos hbelow] at hbody
  obtain rfl : ['1', 'e', '+', '2', '1'] = body := (List.cons.inj hbody).2
  rw [hshortest] at hfewest hdigits
  rw [habs] at htoken
  rw [htext] at hreads
  exact ⟨⟨hfinite, hne, hnumber, hshortest, hfewest, hdigits, htoken hfinite, hreads hnumber⟩,
    hnan, (text_denotes nan).2.2.2 hnan⟩

end Text

end Number

end ExprSandbox
