import ExprSandbox.Proofs.Decoding

/-!
# Where lexical errors point

What an error says of the source that it is about (`LexError.Explains`): its position cuts the
source in two, what stands before the cut or before the lexeme around it has tokens, and what
stands behind the cut shows why no lexeme could be taken.

A scan stops at one lexeme (`scan_eq_error`), before which it has found a row of lexemes; that row
does not depend on what stands behind it, so it is found in the beginning of the source alone.
Then each scanning rule is asked why it fails.
-/

namespace ExprSandbox

namespace Lexer

open NumberLiteral StringLiteral

/-! ## Causes -/

/-- An unescaped quote stands in the characters: before it every backslash takes the character
behind it. -/
inductive Closes (quote : Char) : List Char → Prop
  | here {rest : List Char} : Closes quote (quote :: rest)
  | char {c : Char} {rest : List Char} (ne : c ≠ '\\') (behind : Closes quote rest) :
      Closes quote (c :: rest)
  | escape {e : Char} {rest : List Char} (behind : Closes quote rest) :
      Closes quote ('\\' :: e :: rest)

/-- A number whose exponent has no digits: it ends with the letter, and behind it stands neither a
digit nor a sign with a digit behind it. -/
structure BareExponent (text rest : List Char) : Prop where
  spelled : ∃ m e, SpellsMantissa m ∧ isExponentLetter e = true ∧ text = m ++ [e]
  digit : ∀ d ∈ rest.head?, isDigit d = false
  sign : ∀ c d tail, rest = c :: d :: tail → c = '+' ∨ c = '-' → isDigit d = false

/-- A number with an exponent, and another letter for an exponent behind it. -/
structure SecondExponent (text rest : List Char) : Prop where
  spelled : ∃ m e sign ds, SpellsMantissa m ∧ isExponentLetter e = true ∧
    sign ∈ [[], ['+'], ['-']] ∧ ds ≠ [] ∧ (∀ c ∈ ds, isDigit c = true) ∧
      text = m ++ e :: (sign ++ ds)
  letter : ∃ e ∈ rest.head?, isExponentLetter e = true

/-- A source that has tokens. -/
def Tokenizes (source : String) : Prop :=
  ∃ ts, tokenize source = .ok ts

end Lexer

open Lexer in
/-- What an error says of a source that is cut at its position. -/
def LexError.Explains (before after : String) : LexError → Prop
  | .unexpectedChar c _ => after.toList.head? = some c ∧ Tokenizes before
  | .unmatchedQuote _ => Tokenizes before ∧ ∃ quote rest, after.toList = quote :: rest ∧
      IsQuote quote ∧ ¬ Closes quote rest
  | .invalidUnicodeEscape _ => ∃ rest, after.toList = '\\' :: 'u' :: rest ∧ ¬ FourDigits rest
  | .invalidExponent _ => ∃ start text, before = start ++ text ∧ Tokenizes start ∧
      (BareExponent text.toList after.toList ∨ SecondExponent text.toList after.toList)

namespace Lexer

open NumberLiteral StringLiteral

/-! ## Where a scan stops -/

/-- A lexeme that ends in a source ends in every beginning of it. -/
theorem Ends.before {text rest after : List Char} (h : Ends text (rest ++ after)) :
    Ends text rest := by
  cases rest with
  | nil => exact ends_nil text
  | cons d rest => exact h

/-- **A scan stops at a lexeme**: before it stands a row of lexemes. -/
theorem scan_eq_error {pos : Nat} {cs : List Char} {e : LexError} (h : scan pos cs = .error e) :
    ∃ before c rest ts, cs = before ++ c :: rest ∧ Lexes pos before ts ∧
      lexeme (pos + byteWidth before) c rest = .error e := by
  induction hn : cs.length using Nat.strongRecOn generalizing pos cs with
  | _ n ih =>
    cases cs with
    | nil =>
      rw [scan] at h
      cases h
    | cons c cs =>
      cases hblank : isBlank c with
      | true =>
        rw [scan_blank hblank] at h
        obtain ⟨before, d, rest, ts, rfl, hlexes, herror⟩ := ih cs.length (by simp [← hn]) h rfl
        rw [Nat.add_assoc] at herror
        exact ⟨c :: before, d, rest, ts, rfl, .blank hblank hlexes, herror⟩
      | false =>
        rw [scan_lexeme hblank] at h
        cases hl : lexeme pos c cs with
        | error e' =>
          rw [hl] at h
          obtain rfl := Except.error.inj h
          exact ⟨[], c, cs, [], rfl, .done, hl⟩
        | ok l =>
          obtain ⟨hsplit, hspells, hends⟩ := takes_lexeme_iff.mp ⟨l, hl, rfl, rfl, rfl⟩
          rw [hl] at h
          dsimp only [bind, Except.bind] at h
          cases hscan : scan (pos + byteWidth l.text) l.rest with
          | ok us =>
            rw [hscan] at h
            cases h
          | error e' =>
            rw [hscan] at h
            obtain rfl := Except.error.inj h
            obtain ⟨before, d, rest, ts, hrest, hlexes, herror⟩ :=
              ih _ (hn ▸ l.rest_length_lt) hscan rfl
            rw [hrest] at hends
            refine ⟨l.text ++ before, d, rest, _, ?_, .token hspells hends.before hlexes, ?_⟩
            · rw [List.append_assoc, ← hrest]
              exact hsplit
            · rw [byteWidth_append, ← Nat.add_assoc]
              exact herror

/-! ## Numbers -/

/-- A sign is passed if a digit stands behind it, and nothing is passed otherwise. -/
theorem exponentSign_cases (cs : List Char) :
    (exponentSign cs = ([], cs) ∧
      ∀ c d tail, cs = c :: d :: tail → c = '+' ∨ c = '-' → isDigit d = false) ∨
    ∃ c d tail, isDigit d = true ∧ exponentSign cs = ([c], d :: tail) := by
  unfold exponentSign
  split
  · next c d tail =>
    split
    · next h => exact .inr ⟨c, d, tail, h.2, rfl⟩
    · next h =>
      refine .inl ⟨rfl, fun c' d' tail' heq hsign => ?_⟩
      obtain ⟨rfl, rfl, rfl⟩ : c = c' ∧ d = d' ∧ tail = tail' := by simpa using heq
      rw [← Bool.not_eq_true]
      exact fun hd => h ⟨hsign, hd⟩
  · next hshort => exact .inl ⟨rfl, fun c d tail heq => absurd heq (hshort c d tail)⟩

/-- **A number fails at its exponent.** -/
theorem numberLexeme_eq_error {pos : Nat} {cs : List Char} {hstarts : starts cs = true}
    {e : LexError} (h : NumberLiteral.lexeme pos cs hstarts = .error e) : ∃ text rest,
      cs = text ++ rest ∧ e = .invalidExponent (pos + byteWidth text) ∧
        (BareExponent text rest ∨ SecondExponent text rest) := by
  obtain ⟨hmantissa, -⟩ := spells_mantissa hstarts
  unfold NumberLiteral.lexeme at h
  split at h
  · cases h
  next c rest hrest =>
  split at h
  case isFalse => cases h
  next hletter =>
  dsimp only at h
  split at h
  case isFalse => cases h
  next hbroken =>
  obtain rfl := Except.error.inj h
  have hcs := mantissa_append cs
  have hsign := exponentSign_append rest
  have hdigits := List.takeWhile_append_dropWhile (p := isDigit) (l := (exponentSign rest).2)
  rw [hrest, ← hsign, ← hdigits] at hcs
  refine ⟨_, (exponentSign rest).2.dropWhile isDigit, ?_, rfl, ?_⟩
  · rw [List.append_assoc, List.cons_append, List.append_assoc]
    exact hcs.symm
  have hdigit : ∀ d ∈ ((exponentSign rest).2.dropWhile isDigit).head?, isDigit d = false :=
    not_of_mem_head?_dropWhile
  by_cases hnil : (exponentSign rest).2.takeWhile isDigit = []
  · -- a sign that was passed would have left a digit
    left
    rw [hnil, List.nil_append] at hdigits
    rcases exponentSign_cases rest with ⟨hnone, hno⟩ | ⟨c', d, tail, hd, hsome⟩
    · rw [hnone] at hnil hdigit hdigits ⊢
      rw [hdigits] at hdigit ⊢
      exact ⟨⟨_, c, hmantissa, hletter, by rw [hnil]; rfl⟩, hdigit, hno⟩
    · rw [hsome] at hnil
      simp [hd] at hnil
  · right
    have hnext := hbroken.resolve_left hnil
    rw [Option.any_eq_true] at hnext
    exact ⟨⟨_, c, _, _, hmantissa, hletter, exponentSign_mem rest, hnil,
      fun _ hc => List.mem_takeWhile_imp hc, rfl⟩, hnext⟩

/-! ## Strings -/

section Closes

variable {quote c : Char} {cs : List Char}

/-- No quote stands at the end. -/
theorem not_closes_nil : ¬ Closes quote [] := by
  intro h
  cases h

/-- No quote stands behind a last backslash. -/
theorem not_closes_backslash (hquote : IsQuote quote) : ¬ Closes quote ['\\'] := by
  rintro (_ | ⟨ne, _⟩)
  · exact hquote.ne_backslash rfl
  · exact ne rfl

/-- A character that is no quote closes nothing. -/
theorem Closes.of_char (h : Closes quote (c :: cs)) (ne_quote : c ≠ quote)
    (ne_backslash : c ≠ '\\') : Closes quote cs := by
  cases h with
  | here => exact absurd rfl ne_quote
  | char ne behind => exact behind
  | escape behind => exact absurd rfl ne_backslash

/-- An escaped character closes nothing. -/
theorem Closes.of_escape (h : Closes quote ('\\' :: c :: cs)) (hquote : IsQuote quote) :
    Closes quote cs := by
  cases h with
  | here => exact absurd rfl hquote.ne_backslash
  | char ne behind => exact absurd rfl ne
  | escape behind => exact behind

/-- Hexadecimal digits close nothing. -/
theorem Closes.of_digits {digits : List Char} (hquote : IsQuote quote)
    (hdigits : ∀ c ∈ digits, isHexDigit c = true) (h : Closes quote (digits ++ cs)) :
    Closes quote cs := by
  induction digits with
  | nil => exact h
  | cons d digits ih =>
    have hd := hdigits d List.mem_cons_self
    refine ih (fun c hc => hdigits c (List.mem_cons_of_mem d hc)) (h.of_char ?_ ?_)
    · rintro rfl
      rcases hquote with rfl | rfl <;> cases hd
    · rintro rfl
      cases hd

/-- The digits of a code unit are hexadecimal. -/
theorem isHexDigit_of_spells {digits : List Char} {unit : Nat}
    (h : SpellsInteger 16 digits unit) : ∀ c ∈ digits, isHexDigit c = true := by
  obtain ⟨ds, hds, -⟩ := h
  intro c hc
  have hmem : radixDigit? 16 c ∈ ds.map some := hds ▸ List.mem_map_of_mem hc
  obtain ⟨d, -, hd⟩ := List.mem_map.mp hmem
  rw [← isSome_digitValue?, ← radixDigit?_sixteen, ← hd]
  rfl

/-- What belongs to an escape closes nothing. -/
theorem Closes.of_unicodeEscape {v : Char} {n : Nat} (hquote : IsQuote quote)
    (hescape : unicodeEscape? cs = some (v, n)) (h : Closes quote ('\\' :: 'u' :: cs)) :
    Closes quote (cs.drop n) := by
  obtain ⟨-, hle⟩ := length_of_unicodeEscape? hescape
  have hlength : (cs.take n).length = n := List.length_take_of_le hle
  have hcut := List.take_append_drop n cs
  have hcases : unicodeEscape? (cs.take n ++ cs.drop n) = some (v, (cs.take n).length) := by
    rw [hcut, hlength]
    exact hescape
  have hbehind : Closes quote (cs.take n ++ cs.drop n) := hcut.symm ▸ h.of_escape hquote
  rcases unicodeEscape?_cases hcases with ⟨unit, -, hspells, -⟩ |
    ⟨first, second, unit, low, hdigits, -, -, hspells, hspells', -⟩
  · exact hbehind.of_digits hquote (isHexDigit_of_spells hspells)
  · -- the escape of a low surrogate stands behind the digits of the high one
    rw [hdigits, List.append_assoc] at hbehind
    have hlow := (hbehind.of_digits hquote (isHexDigit_of_spells hspells)).of_escape hquote
    exact hlow.of_digits hquote (isHexDigit_of_spells hspells')

end Closes

section Strings

variable {quote : Char} {start pos : Nat} {cs : List Char} {e : LexError}

/-- Why a string has no closing quote: none stands in it unescaped, or an escape before it has no
four digits. -/
def FailsBody (quote : Char) (start pos : Nat) (cs : List Char) (e : LexError) : Prop :=
  (e = .unmatchedQuote start ∧ ¬ Closes quote cs) ∨
    ∃ text rest, cs = text ++ '\\' :: 'u' :: rest ∧ ¬ FourDigits rest ∧
      e = .invalidUnicodeEscape (pos + byteWidth text)

/-- Why the rest of a string fails is why the string fails, if what stands before the rest closes
nothing. -/
theorem FailsBody.prepend {before rest : List Char}
    (h : FailsBody quote start (pos + byteWidth before) rest e)
    (hclose : Closes quote (before ++ rest) → Closes quote rest) :
    FailsBody quote start pos (before ++ rest) e := by
  rcases h with ⟨rfl, hno⟩ | ⟨text, tail, rfl, hbroken, rfl⟩
  · exact .inl ⟨rfl, fun hcloses => hno (hclose hcloses)⟩
  · refine .inr ⟨before ++ text, tail, (List.append_assoc ..).symm, hbroken, ?_⟩
    rw [byteWidth_append, Nat.add_assoc]

/-- A reader that goes on from another one fails where that one fails. -/
theorem bind_eq_error {α β : Type} {x : Except LexError α} {k : α → β}
    (h : (x >>= fun a => .ok (k a)) = .error e) : x = .error e := by
  cases x with
  | error e' => exact congrArg Except.error (Except.error.inj h)
  | ok a => cases h

/-- **A string fails where it is not closed or where an escape has no four digits.** -/
theorem body_eq_error (hquote : IsQuote quote) (h : body quote start pos cs = .error e) :
    FailsBody quote start pos cs e := by
  fun_induction body quote start pos cs with
  | case1 pos =>
    obtain rfl := Except.error.inj h
    exact .inl ⟨rfl, not_closes_nil⟩
  | case2 pos cs => cases h
  | case3 pos hne =>
    obtain rfl := Except.error.inj h
    exact .inl ⟨rfl, not_closes_backslash hquote⟩
  | case4 pos cs hescape hne =>
    obtain rfl := Except.error.inj h
    refine .inr ⟨[], cs, rfl, ?_, rfl⟩
    exact hexUnit?_eq_none_iff.mp (Option.map_eq_none_iff.mp hescape)
  | case5 pos cs v n hescape hne ih =>
    have hwidth := Cursor.byteWidth_take_of_unicodeEscape? hescape
    have hbefore : pos + byteWidth ('\\' :: 'u' :: cs.take n) = pos + 2 + n := by
      rw [byteWidth, byteWidth, Cursor.backslash_width, Cursor.letter_width, hwidth]
      omega
    have hsplit : '\\' :: 'u' :: cs = '\\' :: 'u' :: cs.take n ++ cs.drop n := by
      rw [List.cons_append, List.cons_append, List.take_append_drop]
    have hrest := ih (bind_eq_error h)
    rw [← hbefore] at hrest
    rw [hsplit]
    exact hrest.prepend fun hcloses => (hsplit ▸ hcloses).of_unicodeEscape hquote hescape
  | case6 pos c cs hu hne ih =>
    have hbefore : pos + byteWidth ['\\', c] = pos + 1 + c.utf8Size := by
      rw [byteWidth, byteWidth, byteWidth, Cursor.backslash_width, Nat.add_zero, Nat.add_assoc]
    have hrest := ih (bind_eq_error h)
    rw [← hbefore] at hrest
    exact hrest.prepend fun hcloses => hcloses.of_escape hquote
  | case7 pos c cs hne hslash ih =>
    have hbefore : pos + byteWidth [c] = pos + c.utf8Size := rfl
    have hrest := ih (bind_eq_error h)
    rw [← hbefore] at hrest
    exact hrest.prepend fun hcloses => hcloses.of_char hne hslash

end Strings

/-! ## All lexemes -/

/-- **The ways in which a lexeme fails**: a number at its exponent, a string inside, and any other
one at its first character. -/
theorem lexeme_eq_error {pos : Nat} {c : Char} {cs : List Char} {e : LexError}
    (h : lexeme pos c cs = .error e) :
    (∃ text rest, c :: cs = text ++ rest ∧ e = .invalidExponent (pos + byteWidth text) ∧
      (BareExponent text rest ∨ SecondExponent text rest)) ∨
    (IsQuote c ∧ FailsBody c pos (pos + 1) cs e) ∨ e = .unexpectedChar c pos := by
  unfold lexeme at h
  split at h
  · exact .inl (numberLexeme_eq_error h)
  split at h
  · next hquote => exact .inr (.inl ⟨hquote, body_eq_error hquote (bind_eq_error h)⟩)
  split at h
  · cases h
  split at h
  · cases h
  split at h
  · cases h
  · exact .inr (.inr (Except.error.inj h).symm)

/-- What stands before a cut has tokens if it is a row of lexemes. -/
theorem Lexes.tokenizes {before : List Char} {ts : List Token} (h : Lexes 0 before ts) :
    Tokenizes (String.ofList before) := by
  refine ⟨ts, ?_⟩
  rw [tokenize, String.toList_ofList]
  exact scan_eq_ok_iff.mpr h

/-- **Lexical errors point at their cause.**  The position of an error cuts the source between two
characters, and both sides of the cut show why the source has no tokens. -/
theorem tokenize_explains {source : String} {e : LexError} (h : tokenize source = .error e) :
    ∃ before after, source = before ++ after ∧ before.utf8ByteSize = e.pos ∧
      e.Explains before after := by
  obtain ⟨before, c, rest, ts, hsplit, hlexes, herror⟩ := scan_eq_error h
  rw [Nat.zero_add] at herror
  -- a cut of the characters is a cut of the source
  have hcut : ∀ (before after : List Char) {P : String → String → Prop},
      source.toList = before ++ after → byteWidth before = e.pos →
      P (String.ofList before) (String.ofList after) →
      ∃ before after, source = before ++ after ∧ before.utf8ByteSize = e.pos ∧ P before after := by
    intro before after P hsource hwidth hP
    refine ⟨_, _, ?_, ?_, hP⟩
    · rw [← String.ofList_append, ← hsource, String.ofList_toList]
    · rw [← byteWidth_toList, String.toList_ofList, hwidth]
  rcases lexeme_eq_error herror with ⟨text, tail, htext, rfl, hexponent⟩ |
    ⟨hquote, ⟨rfl, hno⟩ | ⟨text, tail, rfl, hbroken, rfl⟩⟩ | rfl
  · refine hcut (before ++ text) tail ?_ (byteWidth_append ..) ?_
    · rw [hsplit, htext, List.append_assoc]
    · refine ⟨_, _, String.ofList_append, hlexes.tokenizes, ?_⟩
      rwa [String.toList_ofList, String.toList_ofList]
  · refine hcut _ _ hsplit rfl ⟨hlexes.tokenizes, c, rest, String.toList_ofList, hquote, hno⟩
  · have hone : c.utf8Size = 1 := by
      rcases hquote with rfl | rfl <;> decide
    refine hcut (before ++ c :: text) ('\\' :: 'u' :: tail) ?_ ?_
      ⟨tail, String.toList_ofList, hbroken⟩
    · rw [hsplit, List.append_assoc, List.cons_append]
    · rw [byteWidth_append, byteWidth, hone, LexError.pos, Nat.add_assoc]
  · refine hcut _ _ hsplit rfl ⟨?_, hlexes.tokenizes⟩
    rw [String.toList_ofList]
    rfl

/-- The exponent of a number ends before a sign without a digit, behind a character of two bytes;
and the second escape of a string is broken, behind a high surrogate. -/
theorem tokenize_explains_cut :
    (tokenize "'é' + 1.5e+x" = .error (.invalidExponent 11) ∧
      ∃ before after, "'é' + 1.5e+x" = before ++ after ∧ before.utf8ByteSize = 11 ∧
        LexError.Explains before after (.invalidExponent 11)) ∧
    tokenize "a['\\uD83D\\u12']" = .error (.invalidUnicodeEscape 9) ∧
      ∃ before after, "a['\\uD83D\\u12']" = before ++ after ∧ before.utf8ByteSize = 9 ∧
        LexError.Explains before after (.invalidUnicodeEscape 9) := by
  have hnumber : tokenize "'é' + 1.5e+x" = .error (.invalidExponent 11) := by
    with_unfolding_all rfl
  have hstring : tokenize "a['\\uD83D\\u12']" = .error (.invalidUnicodeEscape 9) := by
    with_unfolding_all rfl
  exact ⟨⟨hnumber, tokenize_explains hnumber⟩, hstring, tokenize_explains hstring⟩

end Lexer

end ExprSandbox
