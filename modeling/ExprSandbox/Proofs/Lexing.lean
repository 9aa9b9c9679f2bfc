import ExprSandbox.Proofs.Scanning

/-!
# Lexing

A source is a row of lexemes with blanks between them (`Lexes`), and a scan finds exactly this row
(`scan_eq_ok_iff`).  A scan does not depend on the offset it starts at (`scan_add`), and it can be
cut in two before a character that goes on with no lexeme (`Lexes.scan_append`).
-/

namespace ExprSandbox

/-- The same error `n` bytes further on. -/
def LexError.shift (n : Nat) : LexError → LexError
  | .unexpectedChar c pos => .unexpectedChar c (n + pos)
  | .invalidExponent pos => .invalidExponent (n + pos)
  | .invalidUnicodeEscape pos => .invalidUnicodeEscape (n + pos)
  | .unmatchedQuote pos => .unmatchedQuote (n + pos)

namespace Lexer

open NumberLiteral StringLiteral

/-! ## Spelled texts -/

section Spells

variable {text rest : List Char} {kind : TokenKind}

/-- Blanks are none of the characters that begin or separate lexemes. -/
theorem isBlank_eq_false {c : Char}
    (h : isDigit c = true ∨ isIdentStart c = true ∨ c = '.' ∨ IsQuote c) : isBlank c = false := by
  rw [← Bool.not_eq_true, isBlank_iff]
  simp only [whiteSpaceRanges, List.mem_cons, List.not_mem_nil, or_false, exists_eq_or_imp,
    exists_eq_left]
  rw [isDigit_iff, isIdentStart_iff] at h
  rcases h with h | h | rfl | rfl | rfl
  · omega
  · omega
  all_goals decide

/-- A lexeme begins with a character that is no blank. -/
theorem Spells.exists_cons (h : Spells text kind) :
    ∃ c cs, text = c :: cs ∧ isBlank c = false := by
  cases h with
  | @punctuation c mem =>
    obtain ⟨-, -, -, hblank⟩ := punctuation_head mem
    exact ⟨c, [], rfl, hblank⟩
  | operator mem =>
    obtain ⟨c, cs, rfl, -, -, -, -, -, hblank⟩ := operator_head mem
    exact ⟨c, cs, rfl, hblank⟩
  | @word c cs start part => exact ⟨c, cs, rfl, isBlank_eq_false (.inr (.inl start))⟩
  | number number =>
    have hstarts : starts (text ++ []) = true := number.starts []
    rw [List.append_nil] at hstarts
    cases text with
    | nil => cases hstarts
    | cons c cs =>
      rw [starts_cons, Bool.or_eq_true, Bool.and_eq_true, beq_iff_eq] at hstarts
      refine ⟨c, cs, rfl, isBlank_eq_false ?_⟩
      exact hstarts.imp_right fun h => .inr (.inl h.1)
  | @string quote text value opening body =>
    exact ⟨quote, text, rfl, isBlank_eq_false (.inr (.inr (.inr opening)))⟩

/-- A lexeme takes at least one byte. -/
theorem Spells.byteWidth_pos (h : Spells text kind) : 0 < byteWidth text := by
  obtain ⟨c, cs, rfl, -⟩ := h.exists_cons
  rw [byteWidth]
  exact Nat.add_pos_left (Char.utf8Size_pos c) _

end Spells

/-- The width of a text is its size in bytes. -/
theorem byteWidth_toList (s : String) : byteWidth s.toList = s.utf8ByteSize := by
  have hsize : ∀ cs, byteWidth cs = (String.ofList cs).utf8ByteSize := by
    intro cs
    induction cs with
    | nil => rfl
    | cons c cs ih =>
      rw [← List.singleton_append, String.ofList_append, String.utf8ByteSize_append,
        byteWidth_append, ih]
      simp [byteWidth]
  rw [hsize, String.ofList_toList]

/-! ## Rows of lexemes -/

/-- From the byte offset on the characters are these tokens, with blanks between them. -/
inductive Lexes : Nat → List Char → List Token → Prop
  | done {pos : Nat} : Lexes pos [] []
  | blank {pos : Nat} {c : Char} {cs : List Char} {ts : List Token} (blank : isBlank c = true)
      (tail : Lexes (pos + c.utf8Size) cs ts) : Lexes pos (c :: cs) ts
  | token {pos : Nat} {text rest : List Char} {kind : TokenKind} {ts : List Token}
      (spells : Spells text kind) (ends : Ends text rest)
      (tail : Lexes (pos + byteWidth text) rest ts) :
      Lexes pos (text ++ rest) (⟨String.ofList text, kind, pos⟩ :: ts)

section Scan

variable {pos : Nat} {c : Char} {cs text rest : List Char} {kind : TokenKind} {ts : List Token}

/-- A blank is skipped. -/
theorem scan_blank (h : isBlank c = true) : scan pos (c :: cs) = scan (pos + c.utf8Size) cs := by
  rw [scan, if_pos h]

/-- The lexeme at the front is the first token. -/
theorem scan_lexeme (h : isBlank c = false) : scan pos (c :: cs) =
    lexeme pos c cs >>= fun l => (scan (pos + byteWidth l.text) l.rest).map (l.token pos :: ·) := by
  rw [scan, h, if_neg Bool.false_ne_true]
  rfl

/-- A spelled lexeme that ends is the first token. -/
theorem scan_spelled (hspells : Spells text kind) (hends : Ends text rest) :
    scan pos (text ++ rest) =
      (scan (pos + byteWidth text) rest).map (⟨String.ofList text, kind, pos⟩ :: ·) := by
  obtain ⟨c, cs, rfl, hblank⟩ := hspells.exists_cons
  have hsplit : c :: (cs ++ rest) = c :: cs ++ rest := rfl
  obtain ⟨l, hl, htext, hrest, hkind⟩ := takes_lexeme_iff.mpr ⟨hsplit, hspells, hends⟩
  rw [List.cons_append, scan_lexeme hblank, hl]
  dsimp only [bind, Except.bind]
  rw [Lexeme.token, htext, hrest, hkind]

/-- **A scan finds the row of lexemes.** -/
theorem scan_eq_ok_iff : scan pos cs = .ok ts ↔ Lexes pos cs ts := by
  constructor
  · intro h
    induction hn : cs.length using Nat.strongRecOn generalizing pos cs ts with
    | _ n ih =>
      cases cs with
      | nil =>
        rw [scan] at h
        obtain rfl := Except.ok.inj h
        exact .done
      | cons c cs =>
        cases hblank : isBlank c with
        | true =>
          rw [scan_blank hblank] at h
          exact .blank hblank (ih cs.length (by simp [← hn]) h rfl)
        | false =>
          rw [scan_lexeme hblank] at h
          cases hl : lexeme pos c cs with
          | error e => rw [hl] at h; cases h
          | ok l =>
            obtain ⟨hsplit, hspells, hends⟩ := takes_lexeme_iff.mp ⟨l, hl, rfl, rfl, rfl⟩
            rw [hl] at h
            dsimp only [bind, Except.bind] at h
            cases hscan : scan (pos + byteWidth l.text) l.rest with
            | error e => rw [hscan] at h; cases h
            | ok us =>
              rw [hscan] at h
              obtain rfl := Except.ok.inj h
              have htail := ih _ (hn ▸ l.rest_length_lt) hscan rfl
              have hlexes := Lexes.token hspells hends htail
              rwa [← hsplit] at hlexes
  · intro h
    induction h with
    | done => rw [scan]
    | blank blank _ ih => rw [scan_blank blank, ih]
    | token spells ends _ ih =>
      rw [scan_spelled spells ends, ih]
      rfl

end Scan

/-! ## Scans from another offset -/

section Shift

variable (n pos : Nat)

/-- The number at the front does not depend on the offset. -/
theorem numberLexeme_add (cs : List Char) (h : starts cs = true) :
    NumberLiteral.lexeme (n + pos) cs h =
      (NumberLiteral.lexeme pos cs h).mapError (LexError.shift n) := by
  unfold NumberLiteral.lexeme
  split
  · rfl
  · split
    · dsimp only
      split
      · rw [Nat.add_assoc]
        rfl
      · rfl
    · rfl

/-- A reader whose steps do not depend on the offset does not depend on it. -/
theorem mapError_bind {α β : Type} {x : Except LexError α} {k k' : α → Except LexError β}
    (hk : ∀ a, k' a = (k a).mapError (LexError.shift n)) :
    (x.mapError (LexError.shift n) >>= k') = (x >>= k).mapError (LexError.shift n) := by
  cases x with
  | error e => rfl
  | ok a => exact hk a

/-- The rest of a string does not depend on the offsets. -/
theorem body_add (quote : Char) (start : Nat) (cs : List Char) :
    body quote (n + start) (n + pos) cs =
      (body quote start pos cs).mapError (LexError.shift n) := by
  fun_induction body quote start pos cs with rw [body.eq_def]
  | case1 pos => rfl
  | case2 pos cs =>
    dsimp only
    rw [if_pos rfl]
    rfl
  | case3 pos hquote =>
    dsimp only
    rw [if_neg hquote, if_pos rfl]
    rfl
  | case4 pos cs hescape hquote =>
    dsimp only
    rw [if_neg hquote, if_pos rfl, if_pos rfl, hescape]
    rfl
  | case5 pos cs value k hescape hquote ih =>
    have hpos : n + pos + 2 + k = n + (pos + 2 + k) := by omega
    dsimp only
    rw [if_neg hquote, if_pos rfl, if_pos rfl, hescape]
    dsimp only
    rw [hpos, ih]
    exact mapError_bind n fun b => rfl
  | case6 pos e cs hu hquote ih =>
    have hpos : n + pos + 1 + e.utf8Size = n + (pos + 1 + e.utf8Size) := by omega
    dsimp only
    rw [if_neg hquote, if_pos rfl, if_neg hu, hpos, ih]
    exact mapError_bind n fun b => rfl
  | case7 pos e cs hquote hslash ih =>
    dsimp only
    rw [if_neg hquote, if_neg hslash, Nat.add_assoc, ih]
    exact mapError_bind n fun b => rfl

/-- The string at the front does not depend on the offset. -/
theorem stringLexeme_add (quote : Char) (cs : List Char) :
    StringLiteral.lexeme (n + pos) quote cs =
      (StringLiteral.lexeme pos quote cs).mapError (LexError.shift n) := by
  unfold StringLiteral.lexeme
  rw [Nat.add_assoc, body_add]
  exact mapError_bind n fun b => rfl

/-- The lexeme at the front does not depend on the offset. -/
theorem lexeme_add (c : Char) (cs : List Char) :
    lexeme (n + pos) c cs = (lexeme pos c cs).mapError (LexError.shift n) := by
  unfold lexeme
  split
  · exact numberLexeme_add n pos _ _
  split
  · exact stringLexeme_add n pos c cs
  split
  · rfl
  split
  · rfl
  split
  · rfl
  · rfl

/-- **A scan from another offset finds the same tokens, shifted, or the same error, shifted.** -/
theorem scan_add (cs : List Char) : scan (n + pos) cs =
    ((scan pos cs).mapError (LexError.shift n)).map (List.map (Token.shift n)) := by
  fun_induction scan pos cs with
  | case1 => rw [scan]; rfl
  | case2 pos c cs hblank ih => rw [scan_blank hblank, Nat.add_assoc, ih]
  | case3 pos c cs hblank ih =>
    rw [scan_lexeme (Bool.not_eq_true _ ▸ hblank), lexeme_add]
    cases lexeme pos c cs with
    | error e => rfl
    | ok l =>
      show (scan (n + pos + byteWidth l.text) l.rest).bind _ =
        (((scan (pos + byteWidth l.text) l.rest).bind _).mapError _).map _
      rw [Nat.add_assoc, ih]
      cases scan (pos + byteWidth l.text) l.rest with
      | error e => rfl
      | ok ts => rfl

end Shift

/-! ## Scans that are cut in two -/

/-- A character that goes on with no lexeme. -/
def separates (d : Char) : Bool :=
  !isIdentPart d && d != '.' && operators.all fun op => !op.tail.contains d

/-- No lexeme goes on with a character that separates. -/
theorem Spells.goesOn_eq_false {text : List Char} {kind : TokenKind} (h : Spells text kind)
    {d : Char} (hd : separates d = true) : goesOn text d = false := by
  rw [separates, Bool.and_eq_true, Bool.and_eq_true, Bool.not_eq_true', bne_iff_ne,
    List.all_eq_true] at hd
  obtain ⟨⟨hpart, hpoint⟩, hoperators⟩ := hd
  obtain ⟨c, cs, rfl, -⟩ := h.exists_cons
  have hstart : isIdentStart d = false ∧ isDigit d = false := Bool.or_eq_false_iff.mp hpart
  have hletter : isExponentLetter d = false := by
    rw [← Bool.not_eq_true, isExponentLetter_iff]
    rintro (rfl | rfl)
    · cases hstart.1
    · cases hstart.1
  have hoperator : c :: cs ++ [d] ∉ operators := by
    intro hmem
    have hno := hoperators _ hmem
    simp at hno
  unfold goesOn
  split
  · rw [hstart.2, hletter, beq_eq_false_iff_ne.mpr hpoint, Bool.false_and]
    rfl
  split
  · exact hpart
  split
  · exact hstart.2
  · rw [List.contains_eq_mem, decide_eq_false hoperator]

/-- A row of lexemes before a character that separates is scanned on its own. -/
theorem Lexes.scan_append {pos : Nat} {cs rest : List Char} {ts : List Token} (h : Lexes pos cs ts)
    (hsep : ∀ d ∈ rest.head?, separates d = true) :
    scan pos (cs ++ rest) = (scan (pos + byteWidth cs) rest).map (ts ++ ·) := by
  induction h with
  | done =>
    rw [List.nil_append, byteWidth, Nat.add_zero]
    cases scan _ rest with
    | error e => rfl
    | ok ts => rfl
  | blank blank _ ih => rw [List.cons_append, scan_blank blank, ih, byteWidth, Nat.add_assoc]
  | @token pos text rest' kind ts spells ends _ ih =>
    have hends : Ends text (rest' ++ rest) := by
      cases rest' with
      | nil => exact fun d hd => spells.goesOn_eq_false (hsep d hd)
      | cons c cs => exact ends
    rw [List.append_assoc, scan_spelled spells hends, ih, byteWidth_append, Nat.add_assoc]
    cases scan _ rest with
    | error e => rfl
    | ok ts => rfl

end Lexer

end ExprSandbox
