import ExprSandbox.Proofs.Lexing

/-!
# Blanks between two sources

A blank cuts a source in two: no lexeme goes on with it, so what stands before it is read as it is
read alone, and a scan keeps nothing but its offset when it passes it, so what stands behind it is
read as it is read alone, only further on (`tokenize_append_blanks`).
-/

namespace ExprSandbox.Lexer

/-- No lexeme goes on with a blank. -/
theorem separates_of_isBlank {c : Char} (h : isBlank c = true) : separates c = true := by
  have hpart : isIdentPart c = false := by
    have hno : ¬ (isDigit c = true ∨ isIdentStart c = true ∨ c = '.' ∨ IsQuote c) := by
      intro hclass
      rw [isBlank_eq_false hclass] at h
      cases h
    rw [not_or, not_or, Bool.not_eq_true, Bool.not_eq_true] at hno
    rw [isIdentPart, hno.1, hno.2.1]
    rfl
  -- behind its first character an operator has none but these
  have htails : (operators.all fun op => op.tail.all fun d => !isBlank d) = true := by decide
  rw [separates, Bool.and_eq_true, Bool.and_eq_true, Bool.not_eq_true', bne_iff_ne,
    List.all_eq_true]
  refine ⟨⟨hpart, ?_⟩, fun op hop => ?_⟩
  · rintro rfl
    exact absurd h (by decide)
  rw [Bool.not_eq_true', List.contains_eq_mem, decide_eq_false_iff_not]
  intro hmem
  have hc := List.all_eq_true.mp (List.all_eq_true.mp htails op hop) c hmem
  rw [h] at hc
  cases hc

/-- Blanks are passed. -/
theorem scan_blanks {w : List Char} (h : ∀ c ∈ w, isBlank c = true) (pos : Nat)
    (rest : List Char) : scan pos (w ++ rest) = scan (pos + byteWidth w) rest := by
  induction w generalizing pos with
  | nil => rfl
  | cons c w ih =>
    rw [List.cons_append, scan_blank (h c List.mem_cons_self), byteWidth, ← Nat.add_assoc]
    exact ih (fun d hd => h d (List.mem_cons_of_mem c hd)) _

/-- **Lexing composes over blanks.**  Before blanks a source that has tokens has the same ones, and
behind them come the tokens of the other source, or its error, shifted by the bytes before it. -/
theorem tokenize_append_blanks {a w : String} {ts : List Token} (b : String)
    (ha : tokenize a = .ok ts) (hne : w ≠ "") (hw : ∀ c ∈ w.toList, isBlank c = true) :
    tokenize (a ++ w ++ b) =
      match tokenize b with
      | .ok us => .ok (ts ++ us.map (Token.shift (a ++ w).utf8ByteSize))
      | .error e => .error (e.shift (a ++ w).utf8ByteSize) := by
  have hlexes : Lexes 0 a.toList ts := scan_eq_ok_iff.mp ha
  have hsep : ∀ d ∈ (w.toList ++ b.toList).head?, separates d = true := by
    obtain ⟨c, cs, hcs⟩ := List.exists_cons_of_ne_nil (mt String.toList_eq_nil_iff.mp hne)
    intro d hd
    rw [hcs] at hd
    obtain rfl := Option.some.inj hd
    exact separates_of_isBlank (hw c (hcs ▸ List.mem_cons_self))
  have hwidth : 0 + byteWidth a.toList + byteWidth w.toList = (a ++ w).utf8ByteSize + 0 := by
    rw [byteWidth_toList, byteWidth_toList, String.utf8ByteSize_append, Nat.zero_add, Nat.add_zero]
  rw [tokenize, String.toList_append, String.toList_append, List.append_assoc,
    hlexes.scan_append hsep, scan_blanks hw, hwidth, scan_add]
  show _ = match scan 0 b.toList with
    | .ok us => _
    | .error e => _
  cases scan 0 b.toList with
  | error e => rfl
  | ok us => rfl

/-- A blank of two bytes keeps `!` and `=` apart, and the second one is an error. -/
theorem tokenize_append_blanks_operator :
    tokenize "x!" = .ok [⟨"x", .identifier, 0⟩, ⟨"!", .punctuation, 1⟩] ∧ "\u00a0" ≠ "" ∧
      (∀ c ∈ "\u00a0".toList, isBlank c = true) ∧
      tokenize ("x!" ++ "\u00a0" ++ "= y") = .error (.unexpectedChar '=' 4) := by
  have ha : tokenize "x!" = .ok [⟨"x", .identifier, 0⟩, ⟨"!", .punctuation, 1⟩] := by
    with_unfolding_all rfl
  have hb : tokenize "= y" = .error (.unexpectedChar '=' 0) := by
    with_unfolding_all rfl
  have hblank : ∀ c ∈ "\u00a0".toList, isBlank c = true := List.all_eq_true.mp (by decide)
  have h := tokenize_append_blanks "= y" ha (by decide) hblank
  rw [hb] at h
  exact ⟨ha, by decide, hblank, h⟩

end ExprSandbox.Lexer
