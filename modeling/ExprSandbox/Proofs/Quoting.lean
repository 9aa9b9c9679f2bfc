import ExprSandbox.Proofs.Lexing
import ExprSandbox.Text.Quoted

/-!
# Quoting

A quoted text is one string literal wherever it stands: its escapes are read back character by
character, its closing quote is the first one that closes, and nothing before or behind it has a
part in it.  The escapes differ from the ones that are read back in one character, the backspace,
whose escape is read as the letter `b`.
-/

namespace ExprSandbox.Quoted

open Lexer StringLiteral

/-! ## Hexadecimal escapes -/

/-- A hexadecimal digit is read back as its value. -/
theorem digitValue?_hexDigit (n : Nat) : digitValue? (hexDigit n) = some (n % 16) := by
  have hall : ∀ k < 16, digitValue? (Nat.digitChar k) = some k := by decide
  exact hall _ (Nat.mod_lt _ (by decide))

/-- A code point of four hexadecimal digits is read back. -/
theorem hexUnit?_digits {n : Nat} (h : n < 0x10000) (rest : List Char) :
    hexUnit? (hexDigit (n / 4096) :: hexDigit (n / 256) :: hexDigit (n / 16) :: hexDigit n :: rest)
      = some n := by
  have hvalue : ((n / 4096 % 16 * 16 + n / 256 % 16) * 16 + n / 16 % 16) * 16 + n % 16 = n := by
    omega
  simp only [hexUnit?, digitValue?_hexDigit, Option.bind_eq_bind, Option.bind_some, Option.pure_def,
    hvalue]

/-- A character is no surrogate. -/
theorem not_surrogate (c : Char) :
    Utf16.isHigh c.toNat = false ∧ Utf16.isLow c.toNat = false := by
  have hvalid : c.toNat < 0xD800 ∨ 0xDFFF < c.toNat ∧ c.toNat < 0x110000 := c.valid
  simp only [Utf16.isHigh, Utf16.isLow, Bool.and_eq_false_iff, decide_eq_false_iff_not]
  omega

/-- The escape of a character below `0x10000` stands for the character. -/
theorem unicodeEscape?_digits {c : Char} (h : c.toNat < 0x10000) (rest : List Char) :
    unicodeEscape? (hexDigit (c.toNat / 4096) :: hexDigit (c.toNat / 256) ::
      hexDigit (c.toNat / 16) :: hexDigit c.toNat :: rest) = some (c, 4) := by
  obtain ⟨hhigh, hlow⟩ := not_surrogate c
  rw [unicodeEscape?, hexUnit?_digits h, Option.map_some, hhigh, if_neg Bool.false_ne_true,
    Utf16.charOfUnit, hhigh, hlow, Bool.or_self, if_neg Bool.false_ne_true, Char.ofNat_toNat]

/-! ## Escaped texts -/

/-- What the escape of a character is read back as. -/
def readBack (c : Char) : Char :=
  if c = '\x08' then 'b' else c

/-- A character that may stand in a quoted text. -/
def Plain (c : Char) : Prop :=
  0x20 ≤ c.toNat ∧ c ≠ '\u2028' ∧ c ≠ '\u2029'

/-- An ASCII character that is no control character is plain. -/
theorem plain_of_ascii {c : Char} (h : 0x20 ≤ c.toNat ∧ c.toNat < 0x80) : Plain c := by
  refine ⟨h.1, ?_, ?_⟩
  · rintro rfl
    exact absurd h.2 (by decide)
  · rintro rfl
    exact absurd h.2 (by decide)

/-- A character is written as itself, behind a backslash, or with hexadecimal digits. -/
theorem escapeChar_cases (c : Char) :
    (escapeChar c = [c] ∧ c ≠ '\'' ∧ c ≠ '\\' ∧ readBack c = c ∧ Plain c) ∨
    (∃ e, escapeChar c = ['\\', e] ∧ e ≠ 'u' ∧ unescape e = readBack c ∧
      0x20 ≤ e.toNat ∧ e.toNat < 0x80) ∨
    (escapeChar c = unicodeEscape c.toNat ∧ c.toNat < 0x10000 ∧ readBack c = c) := by
  by_cases hshort : c ∈ ['\x08', '\t', '\n', '\x0b', '\x0c', '\r', '\'', '\\']
  · simp only [List.mem_cons, List.not_mem_nil, or_false] at hshort
    rcases hshort with rfl | rfl | rfl | rfl | rfl | rfl | rfl | rfl <;>
      exact .inr (.inl ⟨_, rfl, by decide⟩)
  · simp only [List.mem_cons, List.not_mem_nil, or_false, not_or] at hshort
    have hread : readBack c = c := if_neg hshort.1
    by_cases hlong : c = '\u2028' ∨ c = '\u2029' ∨ c.toNat < 0x20
    · refine .inr (.inr ⟨by simp [escapeChar, hshort, hlong], ?_, hread⟩)
      rcases hlong with rfl | rfl | hlt
      · decide
      · decide
      · exact Nat.lt_trans hlt (by decide)
    · refine .inl ⟨by simp [escapeChar, hshort, hlong], hshort.2.2.2.2.2.2.1,
        hshort.2.2.2.2.2.2.2, hread, ?_⟩
      rw [not_or, not_or, Nat.not_lt] at hlong
      exact ⟨hlong.2.2, hlong.1, hlong.2.1⟩

/-- An escaped character goes on with a string that is closed by a single quote. -/
theorem spellsBody_escapeChar (c : Char) {text value : List Char}
    (h : SpellsBody '\'' text value) :
    SpellsBody '\'' (escapeChar c ++ text) (readBack c :: value) := by
  rcases escapeChar_cases c with ⟨he, hquote, hslash, hread, -⟩ | ⟨e, he, hne, hread, -⟩ |
    ⟨he, hlt, hread⟩
  · rw [he, hread]
    exact .char hquote hslash h
  · rw [he, ← hread]
    exact .escape hne h
  · rw [he, hread]
    exact .unicode (unicodeEscape?_digits hlt text) h

/-- An escaped text with a quote behind it is the rest of a string. -/
theorem spellsBody_escape (cs : List Char) :
    SpellsBody '\'' (cs.flatMap escapeChar ++ ['\'']) (cs.map readBack) := by
  induction cs with
  | nil => exact .close
  | cons c cs ih =>
    rw [List.flatMap_cons, List.append_assoc, List.map_cons]
    exact spellsBody_escapeChar c ih

/-- The characters of a quoted text. -/
theorem toList_quote (s : String) :
    (quote s).toList = '\'' :: (s.toList.flatMap escapeChar ++ ['\'']) := by
  simp [quote, escape]

/-- A quoted text is spelled as a string literal. -/
theorem spells_quote (s : String) :
    Spells (quote s).toList (.literal (.string (s.map readBack))) := by
  have hvalue : s.map readBack = String.ofList (s.toList.map readBack) := by
    rw [← String.toList_map, String.ofList_toList]
  rw [toList_quote, hvalue]
  exact .string (.inl rfl) (spellsBody_escape s.toList)

/-- A quoted text ends at its closing quote, whatever stands behind it. -/
theorem ends_quote (s : String) (rest : List Char) : Ends (quote s).toList rest := by
  intro d _
  rw [toList_quote]
  exact goesOn_string (.inl rfl)

/-- A text without a backspace is read back as itself. -/
theorem map_readBack {s : String} (h : '\x08' ∉ s.toList) : s.map readBack = s := by
  have hsame : ∀ c ∈ s.toList, readBack c = id c := by
    intro c hc
    have hne : c ≠ '\x08' := by
      rintro rfl
      exact h hc
    exact if_neg hne
  rw [← String.toList_inj, String.toList_map, List.map_congr_left hsame, List.map_id]

/-- Every character of an escape is plain. -/
theorem plain_of_mem_escapeChar {c d : Char} (h : d ∈ escapeChar c) : Plain d := by
  have hdigit : ∀ n, 0x20 ≤ (hexDigit n).toNat ∧ (hexDigit n).toNat < 0x80 := by
    intro n
    have hall : ∀ k < 16, 0x20 ≤ (Nat.digitChar k).toNat ∧ (Nat.digitChar k).toNat < 0x80 := by
      decide
    exact hall _ (Nat.mod_lt _ (by decide))
  rcases escapeChar_cases c with ⟨he, -, -, -, hplain⟩ | ⟨e, he, -, -, hascii⟩ | ⟨he, -⟩
  · rw [he, List.mem_singleton] at h
    exact h ▸ hplain
  · rw [he] at h
    simp only [List.mem_cons, List.not_mem_nil, or_false] at h
    rcases h with rfl | rfl
    · exact plain_of_ascii (by decide)
    · exact plain_of_ascii hascii
  · rw [he, unicodeEscape] at h
    simp only [List.mem_cons, List.not_mem_nil, or_false] at h
    rcases h with rfl | rfl | rfl | rfl | rfl | rfl
    · exact plain_of_ascii (by decide)
    · exact plain_of_ascii (by decide)
    all_goals exact plain_of_ascii (hdigit _)

/-- Every character of a quoted text is plain. -/
theorem plain_of_mem_quote {s : String} {d : Char} (h : d ∈ (quote s).toList) : Plain d := by
  have hquote : Plain '\'' := plain_of_ascii (by decide)
  rw [toList_quote, List.mem_cons, List.mem_append, List.mem_flatMap, List.mem_singleton] at h
  rcases h with rfl | ⟨c, -, hd⟩ | rfl
  · exact hquote
  · exact plain_of_mem_escapeChar hd
  · exact hquote

/-! ## Quoted texts in a source -/

/-- **A quoted text cannot break out of its literal.**  Behind any source that is a row of tokens
it is one string literal, and what stands behind it is read as it is read alone.  Its text has no
control character and no line separator. -/
theorem tokenize_quote (s : String) :
    (∀ pre post ts, tokenize pre = .ok ts → tokenize (pre ++ quote s ++ post) =
      match tokenize post with
      | .ok us => .ok (ts ++
          ⟨quote s, .literal (.string (s.map readBack)), pre.utf8ByteSize⟩ ::
          us.map (Token.shift (pre ++ quote s).utf8ByteSize))
      | .error e => .error (e.shift (pre ++ quote s).utf8ByteSize)) ∧
    ('\x08' ∉ s.toList → s.map readBack = s) ∧
    ∀ c ∈ (quote s).toList, 0x20 ≤ c.toNat ∧ c ≠ '\u2028' ∧ c ≠ '\u2029' := by
  refine ⟨fun pre post ts hpre => ?_, map_readBack, fun c hc => plain_of_mem_quote hc⟩
  have hlexes : Lexes 0 pre.toList ts := scan_eq_ok_iff.mp hpre
  have hsep : ∀ d ∈ ((quote s).toList ++ post.toList).head?, separates d = true := by
    rw [toList_quote]
    rintro d hd
    obtain rfl := Option.some.inj hd
    decide
  have hwidth : pre.utf8ByteSize + (quote s).utf8ByteSize = (pre ++ quote s).utf8ByteSize + 0 := by
    rw [String.utf8ByteSize_append, Nat.add_zero]
  rw [tokenize, String.toList_append, String.toList_append, List.append_assoc,
    hlexes.scan_append hsep, scan_spelled (spells_quote s) (ends_quote s _), Nat.zero_add,
    byteWidth_toList, byteWidth_toList, hwidth, scan_add, String.ofList_toList]
  show _ = match scan 0 post.toList with
    | .ok us => _
    | .error e => _
  cases scan 0 post.toList with
  | error e => rfl
  | ok us => rfl

/-- A text with a quote, a line break and a backspace behind a name and before a text that has no
tokens, and a text with a quote alone. -/
theorem tokenize_quote_crossing :
    tokenize "a" = .ok [⟨"a", .identifier, 0⟩] ∧
    tokenize ("a" ++ quote "it's\n\x08" ++ " #") = .error (.unexpectedChar '#' 13) ∧
    '\x08' ∉ "it's".toList ∧ "it's".map readBack = "it's" ∧
    '\'' ∈ (quote "it's").toList ∧ 0x20 ≤ '\''.toNat := by
  have ha : tokenize "a" = .ok [⟨"a", .identifier, 0⟩] := by with_unfolding_all rfl
  have hpost : tokenize " #" = .error (.unexpectedChar '#' 1) := by with_unfolding_all rfl
  have hsize : ("a" ++ quote "it's\n\x08").utf8ByteSize = 12 := rfl
  have hquote : '\'' ∈ (quote "it's").toList := by decide
  obtain ⟨hsource, -, -⟩ := tokenize_quote "it's\n\x08"
  obtain ⟨-, hread, hplain⟩ := tokenize_quote "it's"
  have h := hsource "a" " #" _ ha
  rw [hpost, hsize] at h
  exact ⟨ha, h, by decide, hread (by decide), hquote, (hplain _ hquote).1⟩

end ExprSandbox.Quoted
