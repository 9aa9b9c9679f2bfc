import Mathlib.Data.List.Basic
import ExprSandbox.Proofs.Digits
import ExprSandbox.Proofs.Lossless
import ExprSandbox.Proofs.Quoting

/-!
# What strings stand for

Read from left to right, the body of a string spells a row of UTF-16 code units (`Codes`), and the
string stands for the text that these units decode to: a high surrogate and a low one that stand
side by side are one character, however they are spelled, and any other surrogate is the
replacement character.  Where an escape has no four digits, a string has no body, and the error is
reported at the backslash of that escape.
-/

namespace ExprSandbox

/-! ## Decoding -/

namespace Utf16

variable {u v : Nat} {us : List Nat}

/-- A unit that has no partner behind it is decoded alone. -/
theorem decode_unpaired (h : isHigh u = true → ∀ v ∈ us.head?, isLow v = false) :
    decode (u :: us) = charOfUnit u :: decode us := by
  cases us with
  | nil => rfl
  | cons v us =>
    have hno : (isHigh u && isLow v) = false :=
      Bool.and_eq_false_imp.mpr fun hu => h hu v rfl
    simp [decode, hno]

/-- A pair is one character. -/
theorem decode_pair (hu : isHigh u = true) (hv : isLow v = true) :
    decode (u :: v :: us) = charOfPair u v :: decode us := by
  simp [decode, hu, hv]

/-- The units of a character begin with no low surrogate. -/
theorem isLow_head_ofChar (c : Char) : ∀ u ∈ (ofChar c ++ us).head?, isLow u = false := by
  have hlow := (Quoted.not_surrogate c).2
  have hvalid : c.toNat < 0xD800 ∨ 0xDFFF < c.toNat ∧ c.toNat < 0x110000 := c.valid
  intro u hu
  unfold ofChar at hu
  split at hu
  · obtain rfl := Option.some.inj hu
    exact hlow
  · obtain rfl := Option.some.inj hu
    simp only [isLow, Bool.and_eq_false_iff, decide_eq_false_iff_not]
    omega

/-- The units of a character decode to the character. -/
theorem decode_ofChar (c : Char) : decode (ofChar c ++ us) = c :: decode us := by
  obtain ⟨hhigh, hlow⟩ := Quoted.not_surrogate c
  have hvalid : c.toNat < 0xD800 ∨ 0xDFFF < c.toNat ∧ c.toNat < 0x110000 := c.valid
  unfold ofChar
  split
  · rw [List.singleton_append, decode_unpaired (by simp [hhigh])]
    simp [charOfUnit, hhigh, hlow]
  · have hpair : 0x10000 + (0xD800 + (c.toNat - 0x10000) / 0x400 - 0xD800) * 0x400 +
        (0xDC00 + (c.toNat - 0x10000) % 0x400 - 0xDC00) = c.toNat := by omega
    rw [List.cons_append, List.singleton_append, decode_pair, charOfPair, hpair, Char.ofNat_toNat]
    · simp only [isHigh, Bool.and_eq_true, decide_eq_true_eq]
      omega
    · simp only [isLow, Bool.and_eq_true, decide_eq_true_eq]
      omega

end Utf16

namespace Lexer

open StringLiteral Utf16

/-! ## Four digits -/

/-- Four hexadecimal digits stand at the front. -/
def FourDigits (cs : List Char) : Prop :=
  4 ≤ cs.length ∧ ∀ c ∈ cs.take 4, isHexDigit c = true

/-- A code unit is the number that four digits spell. -/
theorem hexUnit?_eq_some_iff {cs : List Char} {unit : Nat} : hexUnit? cs = some unit ↔
    ∃ digits rest, cs = digits ++ rest ∧ digits.length = 4 ∧ SpellsInteger 16 digits unit := by
  have hfour : ∀ a b c d rest, hexUnit? (a :: b :: c :: d :: rest) = some unit ↔
      SpellsInteger 16 [a, b, c, d] unit := by
    intro a b c d rest
    have hcut : [a, b, c, d] = [] ++ [a] ++ [b] ++ [c] ++ [d] := rfl
    simp only [hcut, spellsInteger_concat, spellsInteger_nil, radixDigit?_sixteen]
    simp only [hexUnit?, Option.bind_eq_bind, Option.bind_eq_some_iff, Option.pure_def,
      Option.some.injEq]
    constructor
    · rintro ⟨x, hx, y, hy, z, hz, w, hw, rfl⟩
      exact ⟨_, w, ⟨_, z, ⟨_, y, ⟨0, x, rfl, hx, rfl⟩, hy, rfl⟩, hz, rfl⟩, hw, by omega⟩
    · rintro ⟨_, w, ⟨_, z, ⟨_, y, ⟨_, x, rfl, hx, rfl⟩, hy, rfl⟩, hz, rfl⟩, hw, rfl⟩
      exact ⟨x, hx, y, hy, z, hz, w, hw, by omega⟩
  constructor
  · intro h
    have htake : (cs.take 4).length = 4 := List.length_take_of_le (length_of_hexUnit? h)
    obtain ⟨a, b, c, d, hdigits⟩ := List.length_eq_four.mp htake
    rw [← List.take_append_drop 4 cs, hdigits] at h
    refine ⟨[a, b, c, d], cs.drop 4, ?_, rfl, (hfour ..).mp h⟩
    rw [← hdigits, List.take_append_drop]
  · rintro ⟨digits, rest, rfl, hlength, hspells⟩
    obtain ⟨a, b, c, d, rfl⟩ := List.length_eq_four.mp hlength
    exact (hfour ..).mpr hspells

/-- Where no four digits stand, there is no code unit. -/
theorem hexUnit?_eq_none_iff {cs : List Char} : hexUnit? cs = none ↔ ¬ FourDigits cs := by
  have hsome : (hexUnit? cs).isSome = true ↔ FourDigits cs := by
    unfold FourDigits
    match cs with
    | [] | [_] | [_, _] | [_, _, _] => simp [hexUnit?]
    | a :: b :: c :: d :: rest =>
      simp only [List.take_succ_cons, List.take_zero, List.forall_mem_cons, List.length_cons,
        ← isSome_digitValue?, hexUnit?]
      cases digitValue? a <;> cases digitValue? b <;> cases digitValue? c <;>
        cases digitValue? d <;> simp
  rw [← hsome, Bool.not_eq_true, Option.isSome_eq_false_iff, Option.isNone_iff_eq_none]

section Escape

variable {digits text : List Char} {unit low : Nat}

/-- The escape of a unit that has no partner behind it is four digits long. -/
theorem unicodeEscape?_unpaired (length : digits.length = 4) (spells : SpellsInteger 16 digits unit)
    (h : isHigh unit = true → lowEscape? text = none) :
    unicodeEscape? (digits ++ text) = some (charOfUnit unit, 4) := by
  have hunit : hexUnit? (digits ++ text) = some unit :=
    hexUnit?_eq_some_iff.mpr ⟨digits, text, rfl, length, spells⟩
  rw [unicodeEscape?, hunit, Option.map_some, ← length, List.drop_left]
  split
  · next hhigh =>
    rw [h hhigh, charOfUnit, hhigh]
    rfl
  · rfl

/-- The escape of a pair takes both surrogates. -/
theorem unicodeEscape?_pair {digits' : List Char} (length : digits.length = 4)
    (length' : digits'.length = 4) (spells : SpellsInteger 16 digits unit)
    (spells' : SpellsInteger 16 digits' low) (hhigh : isHigh unit = true)
    (hlow : isLow low = true) :
    unicodeEscape? (digits ++ '\\' :: 'u' :: (digits' ++ text)) =
      some (charOfPair unit low, 10) := by
  have hunit : hexUnit? (digits ++ '\\' :: 'u' :: (digits' ++ text)) = some unit :=
    hexUnit?_eq_some_iff.mpr ⟨digits, _, rfl, length, spells⟩
  have hlow' : lowEscape? ('\\' :: 'u' :: (digits' ++ text)) = some low := by
    rw [lowEscape?, hexUnit?_eq_some_iff.mpr ⟨digits', text, rfl, length', spells'⟩]
    exact Option.filter_some_pos hlow
  rw [unicodeEscape?, hunit, Option.map_some, ← length, List.drop_left, if_pos hhigh, hlow']

/-- An escape is read as a unit without a partner or as a pair. -/
theorem unicodeEscape?_cases {c : Char}
    (h : unicodeEscape? (digits ++ text) = some (c, digits.length)) :
    (∃ unit, digits.length = 4 ∧ SpellsInteger 16 digits unit ∧ c = charOfUnit unit ∧
      (isHigh unit = true → lowEscape? text = none)) ∨
    ∃ first second unit low, digits = first ++ '\\' :: 'u' :: second ∧ first.length = 4 ∧
      second.length = 4 ∧ SpellsInteger 16 first unit ∧ SpellsInteger 16 second low ∧
        isHigh unit = true ∧ isLow low = true ∧ c = charOfPair unit low := by
  obtain ⟨unit, hunit, hvalue⟩ := Option.map_eq_some_iff.mp h
  obtain ⟨first, rest, hcut, hlength, hspells⟩ := hexUnit?_eq_some_iff.mp hunit
  rw [hcut, ← hlength, List.drop_left] at hvalue
  have hsingle : first.length = digits.length → digits = first ∧ text = rest :=
    fun h => List.append_inj hcut h.symm
  split at hvalue
  · next hhigh =>
    split at hvalue
    · next low hlow =>
      obtain ⟨rfl, hten⟩ := Prod.mk.inj hvalue
      unfold lowEscape? at hlow
      split at hlow
      · next tail =>
        obtain ⟨hlow, hisLow⟩ := Option.filter_eq_some_iff.mp hlow
        obtain ⟨second, tail, rfl, hlength', hspells'⟩ := hexUnit?_eq_some_iff.mp hlow
        have hsplit : digits ++ text = first ++ '\\' :: 'u' :: second ++ tail := by
          rw [hcut, List.append_assoc, List.cons_append, List.cons_append]
        obtain ⟨rfl, -⟩ := List.append_inj hsplit (by simp [← hten, hlength, hlength'])
        exact .inr ⟨first, second, unit, low, rfl, hlength, hlength', hspells, hspells', hhigh,
          hisLow, rfl⟩
      · cases hlow
    · next hno =>
      obtain ⟨rfl, hfour⟩ := Prod.mk.inj hvalue
      obtain ⟨rfl, rfl⟩ := hsingle hfour
      refine .inl ⟨unit, hlength, hspells, ?_, fun _ => hno⟩
      rw [charOfUnit, hhigh]
      rfl
  · next hhigh =>
    obtain ⟨rfl, hfour⟩ := Prod.mk.inj hvalue
    obtain ⟨rfl, rfl⟩ := hsingle hfour
    exact .inl ⟨unit, hlength, hspells, rfl, fun h => absurd h hhigh⟩

end Escape

/-! ## The code units of a body -/

/-- The letters that stand for a control character behind a backslash. -/
def controls : List (Char × Char) :=
  [('n', '\n'), ('f', '\x0c'), ('r', '\r'), ('t', '\t'), ('v', '\x0b')]

/-- The character that a backslash before `c` spells: a control character, or `c` itself. -/
def escaped (c : Char) : Char :=
  (controls.lookup c).getD c

/-- The text stands between the quotes of a string, and it spells the code units. -/
inductive Codes (quote : Char) : List Char → List Nat → Prop
  | nil : Codes quote [] []
  | char {c : Char} {text : List Char} {units : List Nat} (ne_quote : c ≠ quote)
      (ne_backslash : c ≠ '\\') (rest : Codes quote text units) :
      Codes quote (c :: text) (ofChar c ++ units)
  | escape {e : Char} {text : List Char} {units : List Nat} (ne : e ≠ 'u')
      (rest : Codes quote text units) :
      Codes quote ('\\' :: e :: text) (ofChar (escaped e) ++ units)
  | unit {digits text : List Char} {unit : Nat} {units : List Nat} (length : digits.length = 4)
      (spells : SpellsInteger 16 digits unit) (rest : Codes quote text units) :
      Codes quote ('\\' :: 'u' :: (digits ++ text)) (unit :: units)

/-- The escapes are those that the lexer knows. -/
theorem unescape_eq (c : Char) : unescape c = escaped c := by
  unfold unescape escaped controls
  simp only [List.lookup_cons, List.lookup_nil]
  repeat' split
  all_goals simp_all

section Codes

variable {quote : Char} {text : List Char} {units : List Nat}

/-- A text spells one row of code units. -/
theorem Codes.unique {units' : List Nat} (h : Codes quote text units)
    (h' : Codes quote text units') : units = units' := by
  induction h generalizing units' with
  | nil =>
    cases h'
    rfl
  | char ne_quote ne_backslash _ ih =>
    cases h' with
    | char _ _ rest => rw [ih rest]
    | escape => exact absurd rfl ne_backslash
    | unit => exact absurd rfl ne_backslash
  | escape ne _ ih =>
    cases h' with
    | char _ ne_backslash => exact absurd rfl ne_backslash
    | escape _ rest => rw [ih rest]
    | unit => exact absurd rfl ne
  | @unit digits text _ _ length spells _ ih =>
    generalize hcut : '\\' :: 'u' :: (digits ++ text) = whole at h'
    cases h' with
    | nil => cases hcut
    | char _ ne_backslash => exact absurd (List.cons.inj hcut).1.symm ne_backslash
    | escape ne => exact absurd (List.cons.inj (List.cons.inj hcut).2).1.symm ne
    | unit length' spells' rest =>
      have htail := (List.cons.inj (List.cons.inj hcut).2).2
      obtain ⟨rfl, rfl⟩ := List.append_inj htail (length.trans length'.symm)
      rw [spells.unique spells', ih rest]

/-- Units begin with a low surrogate only where its escape stands. -/
theorem Codes.isLow_head (h : Codes quote text units) {tail : List Char}
    (hno : lowEscape? (text ++ tail) = none) : ∀ u ∈ units.head?, isLow u = false := by
  cases h with
  | nil => simp
  | char => exact isLow_head_ofChar _
  | escape => exact isLow_head_ofChar _
  | @unit digits text unit units length spells rest =>
    intro u hu
    obtain rfl := Option.some.inj hu
    have hunit : hexUnit? (digits ++ (text ++ tail)) = some unit :=
      hexUnit?_eq_some_iff.mpr ⟨digits, _, rfl, length, spells⟩
    rw [List.cons_append, List.cons_append, List.append_assoc, lowEscape?, hunit,
      Option.filter_eq_none_iff] at hno
    simpa using hno unit rfl

/-- The escape of a low surrogate is the first element of a text that it stands in front of. -/
theorem Codes.of_lowEscape? (h : Codes quote text units) {tail : List Char} {low : Nat}
    (htail : lowEscape? tail = none) (hlow : lowEscape? (text ++ tail) = some low) :
    isLow low = true ∧ ∃ digits text' units', digits.length = 4 ∧
      SpellsInteger 16 digits low ∧ text = '\\' :: 'u' :: (digits ++ text') ∧
        units = low :: units' ∧ Codes quote text' units' := by
  cases h with
  | nil =>
    rw [List.nil_append, htail] at hlow
    cases hlow
  | char _ ne_backslash =>
    rw [List.cons_append, lowEscape?_of_ne ne_backslash] at hlow
    cases hlow
  | escape ne =>
    rw [List.cons_append, List.cons_append, lowEscape?_of_ne_u ne] at hlow
    cases hlow
  | @unit digits text unit units length spells rest =>
    have hunit : hexUnit? (digits ++ (text ++ tail)) = some unit :=
      hexUnit?_eq_some_iff.mpr ⟨digits, _, rfl, length, spells⟩
    rw [List.cons_append, List.cons_append, List.append_assoc, lowEscape?, hunit,
      Option.filter_eq_some_iff] at hlow
    obtain ⟨hvalue, hlow⟩ := hlow
    obtain rfl := Option.some.inj hvalue
    exact ⟨hlow, digits, text, units, length, spells, rfl, rfl, rest⟩

end Codes

/-- **What is read as a body spells the units that its value decodes.** -/
theorem SpellsBody.codes {quote : Char} {text value : List Char}
    (h : SpellsBody quote text value) : ∃ body units, text = body ++ [quote] ∧
      Codes quote body units ∧ value = decode units := by
  induction h with
  | close => exact ⟨[], [], rfl, .nil, rfl⟩
  | char ne_quote ne_backslash _ ih =>
    obtain ⟨body, units, rfl, hcodes, rfl⟩ := ih
    exact ⟨_, _, rfl, .char ne_quote ne_backslash hcodes, (decode_ofChar _).symm⟩
  | escape ne _ ih =>
    obtain ⟨body, units, rfl, hcodes, rfl⟩ := ih
    refine ⟨_, _, rfl, .escape ne hcodes, ?_⟩
    rw [decode_ofChar, unescape_eq]
  | @unicode c digits text value escape _ ih =>
    obtain ⟨body, units, rfl, hcodes, rfl⟩ := ih
    rcases unicodeEscape?_cases escape with ⟨unit, hlength, hspells, hc, hno⟩ |
      ⟨first, second, unit, low, rfl, hfirst, hsecond, hspells, hspells', hhigh, hlow, hc⟩
    · refine ⟨'\\' :: 'u' :: (digits ++ body), unit :: units, ?_, .unit hlength hspells hcodes, ?_⟩
      · simp only [List.cons_append, List.append_assoc]
      · rw [decode_unpaired fun hhigh => hcodes.isLow_head (hno hhigh), hc]
    · refine ⟨'\\' :: 'u' :: (first ++ '\\' :: 'u' :: (second ++ body)), unit :: low :: units, ?_,
        .unit hfirst hspells (.unit hsecond hspells' hcodes), ?_⟩
      · simp only [List.cons_append, List.append_assoc]
      · rw [decode_pair hhigh hlow, hc]

/-! ## Reading a body -/

/-- What a string stands for, its text through the closing quote, and what follows the quote. -/
abbrev Parts : Type := List Char × List Char × List Char

/-- The same string with more of it before. -/
def Parts.prepend (value before : List Char) (p : Parts) : Parts :=
  (value ++ p.1, before ++ p.2.1, p.2.2)

/-- The parts of what is left of a string from some point on. -/
def readBody (quote : Char) (start pos : Nat) (cs : List Char) : Except LexError Parts :=
  (body quote start pos cs).map fun b => (b.value, b.text, b.rest)

section ReadBody

variable {quote : Char} {start pos : Nat} {cs : List Char}

/-- The closing quote ends a string. -/
theorem readBody_close : readBody quote start pos (quote :: cs) = .ok ([], [quote], cs) := by
  unfold readBody
  rw [body.eq_def]
  dsimp only
  rw [if_pos rfl]
  rfl

/-- A character stands for itself. -/
theorem readBody_char {c : Char} (ne_quote : c ≠ quote) (ne_backslash : c ≠ '\\') :
    readBody quote start pos (c :: cs) =
      (readBody quote start (pos + c.utf8Size) cs).map (Parts.prepend [c] [c]) := by
  unfold readBody
  rw [body.eq_def]
  dsimp only
  rw [if_neg ne_quote, if_neg ne_backslash]
  cases body quote start (pos + c.utf8Size) cs <;> rfl

/-- An escaped character stands for what its escape does. -/
theorem readBody_escape {e : Char} (hquote : IsQuote quote) (ne : e ≠ 'u') :
    readBody quote start pos ('\\' :: e :: cs) =
      (readBody quote start (pos + byteWidth ['\\', e]) cs).map
        (Parts.prepend [escaped e] ['\\', e]) := by
  unfold readBody
  rw [body.eq_def]
  dsimp only
  rw [if_neg hquote.ne_backslash.symm, if_pos rfl, if_neg ne, ← unescape_eq]
  show ((body quote start (pos + 1 + e.utf8Size) cs).bind _).map _ = _
  rw [byteWidth, byteWidth, byteWidth, Cursor.backslash_width, Nat.add_zero, ← Nat.add_assoc]
  cases body quote start (pos + 1 + e.utf8Size) cs <;> rfl

/-- An escape with digits stands for what it decodes to. -/
theorem readBody_unicode {c : Char} {digits : List Char} (hquote : IsQuote quote)
    (escape : unicodeEscape? (digits ++ cs) = some (c, digits.length)) :
    readBody quote start pos ('\\' :: 'u' :: (digits ++ cs)) =
      (readBody quote start (pos + byteWidth ('\\' :: 'u' :: digits)) cs).map
        (Parts.prepend [c] ('\\' :: 'u' :: digits)) := by
  have hwidth := Cursor.byteWidth_take_of_unicodeEscape? escape
  rw [List.take_left] at hwidth
  have hpos : pos + byteWidth ('\\' :: 'u' :: digits) = pos + 2 + digits.length := by
    rw [byteWidth, byteWidth, Cursor.backslash_width, Cursor.letter_width, hwidth]
    omega
  have hstep : readBody quote start pos ('\\' :: 'u' :: (digits ++ cs)) =
      (readBody quote start (pos + 2 + digits.length) ((digits ++ cs).drop digits.length)).map
        (Parts.prepend [c] ('\\' :: 'u' :: (digits ++ cs).take digits.length)) := by
    unfold readBody
    rw [body.eq_def]
    dsimp only
    rw [if_neg hquote.ne_backslash.symm, if_pos rfl, if_pos rfl, escape]
    dsimp only
    cases body quote start (pos + 2 + digits.length) ((digits ++ cs).drop digits.length) <;> rfl
  rw [hstep, List.drop_left, List.take_left, hpos]

/-- The escape of a unit without a partner stands for what the unit is alone. -/
theorem readBody_unpaired {digits : List Char} {unit : Nat} (hquote : IsQuote quote)
    (length : digits.length = 4) (spells : SpellsInteger 16 digits unit)
    (h : isHigh unit = true → lowEscape? cs = none) :
    readBody quote start pos ('\\' :: 'u' :: (digits ++ cs)) =
      (readBody quote start (pos + byteWidth ('\\' :: 'u' :: digits)) cs).map
        (Parts.prepend [charOfUnit unit] ('\\' :: 'u' :: digits)) := by
  have hescape := unicodeEscape?_unpaired length spells h
  rw [← length] at hescape
  exact readBody_unicode hquote hescape

/-- The escapes of a pair stand for one character. -/
theorem readBody_pair {digits digits' : List Char} {unit low : Nat} (hquote : IsQuote quote)
    (length : digits.length = 4) (length' : digits'.length = 4)
    (spells : SpellsInteger 16 digits unit) (spells' : SpellsInteger 16 digits' low)
    (hhigh : isHigh unit = true) (hlow : isLow low = true) :
    readBody quote start pos ('\\' :: 'u' :: (digits ++ '\\' :: 'u' :: digits' ++ cs)) =
      (readBody quote start
          (pos + byteWidth ('\\' :: 'u' :: (digits ++ '\\' :: 'u' :: digits'))) cs).map
        (Parts.prepend [charOfPair unit low]
          ('\\' :: 'u' :: (digits ++ '\\' :: 'u' :: digits'))) := by
  have hescape : unicodeEscape? (digits ++ '\\' :: 'u' :: (digits' ++ cs)) = _ :=
    unicodeEscape?_pair length length' spells spells' hhigh hlow
  have hten : (digits ++ '\\' :: 'u' :: digits').length = 10 := by simp [length, length']
  have hcut : digits ++ '\\' :: 'u' :: (digits' ++ cs) =
      digits ++ '\\' :: 'u' :: digits' ++ cs := by simp
  rw [← hten, hcut] at hescape
  exact readBody_unicode hquote hescape

/-- An escape without four digits is an error at its backslash. -/
theorem readBody_broken (hquote : IsQuote quote) (h : ¬ FourDigits cs) :
    readBody quote start pos ('\\' :: 'u' :: cs) = .error (.invalidUnicodeEscape pos) := by
  have hunit : unicodeEscape? cs = none := by
    rw [unicodeEscape?, hexUnit?_eq_none_iff.mpr h, Option.map_none]
  unfold readBody
  rw [body.eq_def]
  dsimp only
  rw [if_neg hquote.ne_backslash.symm, if_pos rfl, if_pos rfl, hunit]
  rfl

/-- More of a string is put before it step by step. -/
theorem map_prepend {x : Except LexError Parts} (value value' before before' : List Char) :
    (x.map (Parts.prepend value' before')).map (Parts.prepend value before) =
      x.map (Parts.prepend (value ++ value') (before ++ before')) := by
  cases x with
  | error e => rfl
  | ok p => simp [Except.map, Parts.prepend]

/-- **A text that spells code units is read as what they decode to.**  What is behind it must not
begin with the escape of a low surrogate, which could be the second one of a pair. -/
theorem readBody_codes {text tail : List Char} {units : List Nat} (hquote : IsQuote quote)
    (h : Codes quote text units) (htail : lowEscape? tail = none) (pos : Nat) :
    readBody quote start pos (text ++ tail) =
      (readBody quote start (pos + byteWidth text) tail).map
        (Parts.prepend (decode units) text) := by
  -- the escape of a pair is two elements, so the induction is on the length of the text
  induction hn : text.length using Nat.strongRecOn generalizing text units pos with
  | _ n ih =>
    cases h with
    | nil =>
      rw [List.nil_append, byteWidth, Nat.add_zero]
      cases readBody quote start pos tail <;> rfl
    | @char c text units ne_quote ne_backslash rest =>
      have hrest := ih text.length (by simp [← hn]) rest (pos + c.utf8Size) rfl
      rw [List.cons_append, readBody_char ne_quote ne_backslash, hrest, map_prepend,
        decode_ofChar, byteWidth, Nat.add_assoc]
      rfl
    | @escape e text units ne rest =>
      have hshorter : text.length < n := by
        simp only [List.length_cons] at hn
        omega
      have hrest := ih text.length hshorter rest (pos + byteWidth ['\\', e]) rfl
      rw [List.cons_append, List.cons_append, readBody_escape hquote ne, hrest, map_prepend,
        decode_ofChar, Nat.add_assoc, ← byteWidth_append]
      rfl
    | @unit digits text unit units length spells rest =>
      by_cases hpair : isHigh unit = true ∧ (lowEscape? (text ++ tail)).isSome = true
      · obtain ⟨hhigh, hsome⟩ := hpair
        obtain ⟨low, hlow⟩ := Option.isSome_iff_exists.mp hsome
        obtain ⟨hisLow, digits', text, units, length', spells', rfl, rfl, behind⟩ :=
          rest.of_lowEscape? htail hlow
        have hshorter : text.length < n := by
          simp only [List.length_cons, List.length_append] at hn
          omega
        have hrest := ih text.length hshorter behind
          (pos + byteWidth ('\\' :: 'u' :: (digits ++ '\\' :: 'u' :: digits'))) rfl
        have hsplit : '\\' :: 'u' :: (digits ++ '\\' :: 'u' :: (digits' ++ text)) =
            '\\' :: 'u' :: (digits ++ '\\' :: 'u' :: digits') ++ text := by simp
        rw [hsplit, List.append_assoc, List.cons_append, List.cons_append,
          readBody_pair hquote length length' spells spells' hhigh hisLow, hrest, map_prepend,
          Nat.add_assoc, ← byteWidth_append, decode_pair hhigh hisLow]
        rfl
      · have hno : isHigh unit = true → lowEscape? (text ++ tail) = none := by
          intro hhigh
          simpa [hhigh] using hpair
        have hshorter : text.length < n := by
          simp only [List.length_cons, List.length_append] at hn
          omega
        have hrest := ih text.length hshorter rest (pos + byteWidth ('\\' :: 'u' :: digits)) rfl
        rw [List.cons_append, List.cons_append, List.append_assoc,
          readBody_unpaired hquote length spells hno, hrest, map_prepend, Nat.add_assoc,
          ← byteWidth_append, decode_unpaired fun hhigh => rest.isLow_head (hno hhigh)]
        rfl

end ReadBody

/-! ## Strings in a source -/

/-- No word is a string. -/
theorem ofKeyword?_ne_string (word s : String) :
    Constant.ofKeyword? word ≠ some (.string s) := by
  unfold Constant.ofKeyword?
  split <;> simp

/-- Only a string is a literal of a text. -/
theorem Spells.string_inv {text : List Char} {s : String}
    (h : Spells text (.literal (.string s))) : ∃ quote body units, IsQuote quote ∧
      text = quote :: (body ++ [quote]) ∧ Codes quote body units ∧
        s = String.ofList (decode units) := by
  generalize hkind : TokenKind.literal (.string s) = kind at h
  cases h with
  | punctuation mem => cases hkind
  | operator mem => cases hkind
  | @word c cs start part =>
    unfold wordKind at hkind
    split at hkind
    · next hkeyword =>
      rw [← TokenKind.literal.inj hkind] at hkeyword
      exact absurd hkeyword (ofKeyword?_ne_string _ s)
    · cases hkind
  | number number => cases hkind
  | string opening body =>
    obtain ⟨body, units, rfl, hcodes, rfl⟩ := body.codes
    cases hkind
    exact ⟨_, _, _, opening, rfl, hcodes, rfl⟩

section String

variable {quote : Char} {pos : Nat} {cs text : List Char} {units : List Nat}

/-- A quote begins a string. -/
theorem lexeme_quote (hquote : IsQuote quote) :
    lexeme pos quote cs = StringLiteral.lexeme pos quote cs := by
  obtain ⟨hdigit, hpoint, -⟩ := hquote.head
  have hstarts : ¬ NumberLiteral.starts (quote :: cs) = true := by
    simp [starts_eq_false hdigit hpoint]
  rw [lexeme, dif_neg hstarts, if_pos hquote]

/-- A text that spells code units is spelled between two quotes as what they decode to. -/
theorem Codes.spells (hquote : IsQuote quote) (h : Codes quote text units) :
    Spells (quote :: (text ++ [quote])) (.literal (.string (String.ofList (decode units)))) := by
  have hclose : lowEscape? [quote] = none := lowEscape?_of_ne hquote.ne_backslash
  have hread : readBody quote 0 0 (text ++ [quote]) = _ := readBody_codes hquote h hclose 0
  rw [readBody_close] at hread
  cases hbody : body quote 0 0 (text ++ [quote]) with
  | error e =>
    rw [readBody, hbody] at hread
    cases hread
  | ok b =>
    rw [readBody, hbody] at hread
    simp only [Except.map, Parts.prepend, Except.ok.injEq, Prod.mk.injEq, List.append_nil] at hread
    obtain ⟨hvalue, htext, hrest⟩ := hread
    exact .string hquote (spellsBody_of_takes hquote ⟨b, hbody, htext, hrest, hvalue⟩).1

/-- Where the first escape without four digits stands, a string is an error. -/
theorem lexeme_broken (hquote : IsQuote quote) (h : Codes quote text units)
    (hbroken : ¬ FourDigits cs) : lexeme pos quote (text ++ '\\' :: 'u' :: cs) =
      .error (.invalidUnicodeEscape (pos + byteWidth (quote :: text))) := by
  have hunit := hexUnit?_eq_none_iff.mpr hbroken
  have hlow : lowEscape? ('\\' :: 'u' :: cs) = none := by
    rw [lowEscape?, hunit]
    rfl
  have hwidth : pos + byteWidth (quote :: text) = pos + 1 + byteWidth text := by
    have hone : quote.utf8Size = 1 := by rcases hquote with rfl | rfl <;> decide
    rw [byteWidth, hone, Nat.add_assoc]
  have hread : readBody quote pos (pos + 1) (text ++ '\\' :: 'u' :: cs) = _ :=
    readBody_codes hquote h hlow (pos + 1)
  rw [readBody_broken hquote hbroken, ← hwidth] at hread
  rw [lexeme_quote hquote, StringLiteral.lexeme]
  cases hbody : body quote pos (pos + 1) (text ++ '\\' :: 'u' :: cs) with
  | error e =>
    rw [readBody, hbody] at hread
    exact congrArg Except.error (Except.error.inj hread)
  | ok b =>
    rw [readBody, hbody] at hread
    cases hread

end String

/-- **Strings decode as UTF-16.**  The body of every string literal spells code units, and the
literal stands for what they decode to; every text that spells code units is the body of a literal;
and where instead the first `\u` without four digits stands, the source is an error at its
backslash. -/
theorem tokenize_decodes :
    (∀ source ts, tokenize source = .ok ts →
      ∀ t ∈ ts, ∀ s, t.kind = .literal (.string s) → ∃ quote text, IsQuote quote ∧
        t.text = String.ofList (quote :: (text ++ [quote])) ∧ (∃ units, Codes quote text units) ∧
          ∀ units, Codes quote text units → s = String.ofList (decode units)) ∧
    (∀ quote text units, IsQuote quote → Codes quote text units →
      tokenize (String.ofList (quote :: (text ++ [quote]))) =
        .ok [⟨String.ofList (quote :: (text ++ [quote])),
          .literal (.string (String.ofList (decode units))), 0⟩]) ∧
    ∀ pre ts quote text units rest, tokenize pre = .ok ts → IsQuote quote →
      Codes quote text units → ¬ FourDigits rest →
        tokenize (pre ++ String.ofList (quote :: (text ++ '\\' :: 'u' :: rest))) =
          .error (.invalidUnicodeEscape (pre.utf8ByteSize + byteWidth (quote :: text))) := by
  refine ⟨fun source ts hsource t ht s hkind => ?decodes,
    fun quote text units hquote h => ?literal,
    fun pre ts quote text units rest hpre hquote h hbroken => ?broken⟩
  case decodes =>
    obtain ⟨-, -, -, -, hspells, -⟩ := (scan_eq_ok_iff.mp hsource).spelled t ht
    rw [hkind] at hspells
    obtain ⟨quote, text, units, hquote, htext, hcodes, rfl⟩ := hspells.string_inv
    refine ⟨quote, text, hquote, ?_, ⟨units, hcodes⟩, fun units' h => ?_⟩
    · rw [← htext, String.ofList_toList]
    · rw [hcodes.unique h]
  case literal =>
    have hscan : scan 0 (quote :: (text ++ [quote]) ++ []) = _ :=
      scan_spelled (h.spells hquote) (ends_nil _)
    rw [List.append_nil] at hscan
    rw [tokenize, String.toList_ofList, hscan, scan]
    rfl
  case broken =>
    have hlexes : Lexes 0 pre.toList ts := scan_eq_ok_iff.mp hpre
    have hsep : ∀ d ∈ (quote :: (text ++ '\\' :: 'u' :: rest)).head?, separates d = true := by
      rintro d hd
      obtain rfl := Option.some.inj hd
      rcases hquote with rfl | rfl <;> decide
    have hblank : isBlank quote = false := isBlank_eq_false (.inr (.inr (.inr hquote)))
    rw [tokenize, String.toList_append, String.toList_ofList, hlexes.scan_append hsep,
      scan_lexeme hblank, lexeme_broken hquote h hbroken, Nat.zero_add, byteWidth_toList]
    rfl

/-- A high surrogate before a pair, then an escaped line break and a character of two bytes; and a
string whose second escape is broken, behind a high surrogate. -/
theorem tokenize_decodes_surrogates :
    (∃ ts, tokenize "'\\uD83D\\uD83D\\uDE00\\né'" = .ok ts ∧
      ∃ t ∈ ts, t.kind = .literal (.string "\uFFFD😀\né") ∧ ∃ quote text, IsQuote quote ∧
        t.text = String.ofList (quote :: (text ++ [quote])) ∧ (∃ units, Codes quote text units) ∧
          ∀ units, Codes quote text units → "\uFFFD😀\né" = String.ofList (decode units)) ∧
    (IsQuote '"' ∧ Codes '"' "\\uD83D'".toList [0xD83D, 39] ∧
      tokenize "\"\\uD83D'\"" = .ok [⟨"\"\\uD83D'\"", .literal (.string "\uFFFD'"), 0⟩]) ∧
    tokenize "a" = .ok [⟨"a", .identifier, 0⟩] ∧ IsQuote '\'' ∧
      Codes '\'' "\\uD83D".toList [0xD83D] ∧ ¬ FourDigits "12'".toList ∧
        tokenize ("a" ++ String.ofList ('\'' :: ("\\uD83D".toList ++ '\\' :: 'u' :: "12'".toList))) =
          .error (.invalidUnicodeEscape 8) := by
  have hsource : tokenize "'\\uD83D\\uD83D\\uDE00\\né'" =
      .ok [⟨"'\\uD83D\\uD83D\\uDE00\\né'", .literal (.string "\uFFFD😀\né"), 0⟩] := by
    with_unfolding_all rfl
  have hhigh : SpellsInteger 16 "D83D".toList 0xD83D := ⟨[13, 8, 3, 13], by decide, by decide⟩
  have hapostrophe : Codes '"' "'".toList [39] := .char (by decide) (by decide) .nil
  have hbefore : tokenize "a" = .ok [⟨"a", .identifier, 0⟩] := by
    with_unfolding_all rfl
  have hbroken : ¬ FourDigits "12'".toList := fun h => absurd h.1 (by decide)
  refine ⟨⟨_, hsource, _, List.mem_singleton_self _, rfl,
    tokenize_decodes.1 _ _ hsource _ (List.mem_singleton_self _) _ rfl⟩, ?_, ?_⟩
  · have hcodes : Codes '"' _ _ := .unit rfl hhigh hapostrophe
    have hvalue : decode [0xD83D, 39] = "\uFFFD'".toList := by decide
    refine ⟨.inr rfl, hcodes, ?_⟩
    rw [← String.ofList_toList (s := "\uFFFD'"), ← hvalue]
    exact tokenize_decodes.2.1 _ _ _ (.inr rfl) hcodes
  · have hcodes : Codes '\'' _ _ := .unit rfl hhigh .nil
    have hpos : "a".utf8ByteSize + byteWidth ('\'' :: "\\uD83D".toList) = 8 := by decide
    refine ⟨hbefore, .inl rfl, hcodes, hbroken, ?_⟩
    rw [← hpos]
    exact tokenize_decodes.2.2 "a" _ '\'' _ _ _ hbefore (.inl rfl) hcodes hbroken

end Lexer

end ExprSandbox
