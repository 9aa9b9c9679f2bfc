import ExprSandbox.Proofs.Completeness
import ExprSandbox.Proofs.Lexing

/-!
# Texts of expressions

A text prints a value when it is a row of lexemes that derive the value, wherever it stands
(`Prints`).  Texts are put together as the grammar puts tokens together: behind each part stands a
character that separates, or a punctuation or a blank stands before it, so that no lexeme of one
part goes on into the next.
-/

namespace ExprSandbox

open Lexer ExprSandbox.Parser

/-! ## Rows of lexemes -/

namespace Lexer

variable {pos : Nat} {cs ds : List Char} {ts us : List Token} {kind : TokenKind}

/-- Where a character separates, what is behind begins with it. -/
theorem separates_head {c : Char} (h : separates c = true) :
    ∀ d ∈ (c :: cs).head?, separates d = true :=
  fun _ hd => Option.some.inj hd ▸ h

/-- Rows of lexemes are put together where a character separates them. -/
theorem Lexes.append (h : Lexes pos cs ts) (hds : Lexes (pos + byteWidth cs) ds us)
    (hsep : ∀ d ∈ ds.head?, separates d = true) : Lexes pos (cs ++ ds) (ts ++ us) := by
  have hscan := h.scan_append hsep
  rw [scan_eq_ok_iff.mpr hds] at hscan
  exact scan_eq_ok_iff.mp hscan

/-- A spelled lexeme is one token. -/
theorem Lexes.single (h : Spells cs kind) (pos : Nat) :
    Lexes pos cs [⟨String.ofList cs, kind, pos⟩] := by
  have hlexes := Lexes.token h (ends_nil cs) (@Lexes.done (pos + byteWidth cs))
  rwa [List.append_nil] at hlexes

/-- A spelled lexeme before a character that separates is the first token. -/
theorem Lexes.separated (h : Spells cs kind) (hds : Lexes (pos + byteWidth cs) ds us)
    (hsep : ∀ d ∈ ds.head?, separates d = true) :
    Lexes pos (cs ++ ds) (⟨String.ofList cs, kind, pos⟩ :: us) :=
  .token h (fun d hd => h.goesOn_eq_false (hsep d hd)) hds

/-- A punctuation other than the point is the first token, whatever stands behind it. -/
theorem Lexes.punctuation {c : Char} (hmem : c ∈ Lexer.punctuation) (hpoint : c ≠ '.')
    (hds : Lexes (pos + byteWidth [c]) ds us) :
    Lexes pos (c :: ds) (⟨String.ofList [c], .punctuation, pos⟩ :: us) := by
  have hends : Ends [c] ds := by
    intro d _
    rw [goesOn_punctuation hmem, beq_eq_false_iff_ne.mpr hpoint, Bool.false_and]
  exact .token (.punctuation hmem) hends hds

/-- A lexeme that begins with an equals sign is an operator. -/
theorem Spells.kind_of_equals (h : Spells ('=' :: cs) kind) : kind = .punctuation := by
  cases h with
  | punctuation mem => rfl
  | operator mem => rfl
  | word start part => cases start
  | number number =>
    have hstarts := number.starts []
    rw [List.cons_append, starts_eq_false rfl (by decide)] at hstarts
    cases hstarts
  | string opening body => exact absurd opening (by decide)

/-- A row of lexemes has no more tokens than characters. -/
theorem Lexes.length_le (h : Lexes pos cs ts) : ts.length ≤ cs.length := by
  induction h with
  | done => exact Nat.le_refl 0
  | blank blank tail ih =>
    rw [List.length_cons]
    omega
  | token spells ends tail ih =>
    obtain ⟨c, cs, rfl, -⟩ := spells.exists_cons
    rw [List.length_cons, List.length_append, List.length_cons]
    omega

end Lexer

/-! ## Derivations of operands -/

section Derivations

variable {ts us : List Token} {t : Token} {l r e : Expression}

/-- An operand is a chain of every level. -/
theorem derives_chain (h : Derives .unary ts e) (levels : List (List Connective)) :
    Derives (.chain levels) ts e := by
  induction levels with
  | nil => exact .base h
  | cons level below ih => exact .single ih

/-- Two operands that an operator joins are a chain of its level, and of every weaker one. -/
theorem derives_join {c : Connective} {levels : List (List Connective)}
    (hmem : ∃ level ∈ levels, c ∈ level) (hl : Derives .unary ts l)
    (ht : t.isPunctuation c.text = true) (hr : Derives .unary us r) :
    Derives (.chain levels) (ts ++ t :: us) (c.join l r) := by
  induction levels with
  | nil =>
    obtain ⟨level, hlevel, -⟩ := hmem
    cases hlevel
  | cons level below ih =>
    by_cases hc : c ∈ level
    · exact .join (derives_chain hl _) hc ht (derives_chain hr _)
    · refine .single (ih ?_)
      obtain ⟨level', hlevel, hc'⟩ := hmem
      rcases List.mem_cons.mp hlevel with rfl | hbelow
      · exact absurd hc' hc
      · exact ⟨level', hbelow, hc'⟩

end Derivations

/-! ## Printed values -/

/-- Wherever the text stands, it is a row of lexemes that derive the value. -/
def Prints (s : Symbol) (text : List Char) (v : s.Value) : Prop :=
  ∀ pos, ∃ ts, Lexes pos text ts ∧ Derives s ts v

/-- A punctuation is the punctuation of its text. -/
theorem isPunctuation_text (text : String) (pos : Nat) :
    Token.isPunctuation ⟨text, .punctuation, pos⟩ text = true := by
  rw [Token.isPunctuation, decide_eq_true rfl, decide_eq_true rfl]
  rfl

namespace Prints

variable {text : List Char} {e l r : Expression}

/-- A phrase of one token. -/
theorem of_spells {s : Symbol} {v : s.Value} {kind : TokenKind} (h : Spells text kind)
    (hv : ∀ pos, Derives s [⟨String.ofList text, kind, pos⟩] v) : Prints s text v :=
  fun pos => ⟨_, .single h pos, hv pos⟩

/-- An operand without unary operators is an operand. -/
theorem operand (h : Prints .primary text e) : Prints .unary text e := by
  intro pos
  obtain ⟨ts, hlexes, hderives⟩ := h pos
  exact ⟨ts, hlexes, .operand (.primary hderives)⟩

/-- An operand is an expression. -/
theorem expression (h : Prints .unary text e) : Prints .expression text e := by
  intro pos
  obtain ⟨ts, hlexes, hderives⟩ := h pos
  exact ⟨ts, hlexes, .plain (derives_chain hderives _)⟩

/-- A blank behind a phrase is no part of it. -/
theorem blank {s : Symbol} {v : s.Value} (h : Prints s text v) : Prints s (text ++ [' ']) v := by
  intro pos
  obtain ⟨ts, hlexes, hderives⟩ := h pos
  have hblank : Lexes (pos + byteWidth text) [' '] [] := .blank (by decide) .done
  have hrow := hlexes.append hblank (separates_head (by decide))
  rw [List.append_nil] at hrow
  exact ⟨ts, hrow, hderives⟩

/-! ### Brackets -/

/-- What stands between two punctuations. -/
theorem enclosed {s s' : Symbol} {v : s.Value} {v' : s'.Value} {o c : Char}
    (ho : o ∈ Lexer.punctuation ∧ o ≠ '.') (hc : c ∈ Lexer.punctuation ∧ separates c = true)
    (h : Prints s text v)
    (hv : ∀ {ts : List Token} {t u : Token}, t.isPunctuation (String.ofList [o]) = true →
      Derives s ts v → u.isPunctuation (String.ofList [c]) = true →
        Derives s' (t :: (ts ++ [u])) v') :
    Prints s' (o :: (text ++ [c])) v' := by
  intro pos
  obtain ⟨ts, hlexes, hderives⟩ := h (pos + byteWidth [o])
  have hclose := Lexes.single (.punctuation hc.1) (pos + byteWidth [o] + byteWidth text)
  exact ⟨_, .punctuation ho.1 ho.2 (hlexes.append hclose (separates_head hc.2)),
    hv (isPunctuation_text _ _) hderives (isPunctuation_text _ _)⟩

/-- An expression in parentheses. -/
theorem parentheses (h : Prints .expression text e) :
    Prints .primary ('(' :: (text ++ [')'])) e :=
  h.enclosed (by decide) (by decide) .parentheses

/-- An array. -/
theorem array {es : List (Option Expression)} (h : Prints .elements text es) :
    Prints .primary ('[' :: (text ++ [']'])) (.array es) :=
  h.enclosed (by decide) (by decide) .array

/-- An object. -/
theorem object {ps : List (PropertyKey × Expression)} (h : Prints .properties text ps) :
    Prints .primary ('\x7b' :: (text ++ ['\x7d'])) (.object ps) :=
  h.enclosed (by decide) (by decide) .object

/-! ### Operators -/

/-- An operand does not begin with an equals sign. -/
theorem head_ne (h : Prints .unary text e) : ∀ d ∈ text.head?, d ≠ '=' := by
  rintro d hd rfl
  obtain ⟨cs, rfl⟩ := List.head?_eq_some_iff.mp hd
  obtain ⟨ts, hlexes, hderives⟩ := h 0
  obtain ⟨t, tail, rfl, hfirst⟩ : BeginsWith expressionFirsts ts := hderives.begins
  generalize htext : '=' :: cs = text at hlexes
  cases hlexes with
  | blank blank =>
    obtain rfl := (List.cons.inj htext).1
    revert blank
    decide
  | @token _ op rest kind _ spells =>
    obtain ⟨c, cs', rfl, -⟩ := spells.exists_cons
    obtain rfl := (List.cons.inj htext).1
    obtain rfl := spells.kind_of_equals
    have hmem := hfirst _ (isPunctuation_text _ _)
    have hall : ∀ s ∈ expressionFirsts, s.toList.head? ≠ some '=' := by decide
    refine hall _ hmem ?_
    rw [String.toList_ofList]
    rfl

/-- A unary operator before its operand. -/
theorem unary (operator : UnaryOp) (h : Prints .unary text e) :
    Prints .unary (operator.text.toList ++ text) (.unary operator e) := by
  have hmem : operator.text.toList ∈ operators := by cases operator <;> decide
  have hends : Ends operator.text.toList text := by
    intro d hd
    have hne := h.head_ne d hd
    rw [goesOn_operator hmem, List.contains_eq_mem, decide_eq_false_iff_not]
    cases operator <;> simp [UnaryOp.text, operators, hne]
  intro pos
  obtain ⟨ts, hlexes, hderives⟩ := h (pos + byteWidth operator.text.toList)
  have htoken := isPunctuation_text operator.text pos
  refine ⟨_, .token (.operator hmem) hends hlexes, .unary ?_ hderives⟩
  rwa [String.ofList_toList]

/-- A binary operator between its operands. -/
theorem binary {text' : List Char} (operator : BinaryOp) (hl : Prints .unary text l)
    (hr : Prints .unary text' r) :
    Prints .expression (text ++ ' ' :: (operator.text.toList ++ ' ' :: text'))
      (.binary operator l r) := by
  have hmem : operator.text.toList ∈ operators := by cases operator <;> decide
  have hlevel : ∃ level ∈ Connective.levels, .binary operator ∈ level := by
    cases operator <;> decide
  intro pos
  obtain ⟨ts, hlexes, hderives⟩ := hl pos
  obtain ⟨us, hlexes', hderives'⟩ := hr (pos + byteWidth text + ' '.utf8Size +
    byteWidth operator.text.toList + ' '.utf8Size)
  have hblank : isBlank ' ' = true := by decide
  have hsep : ∀ cs, ∀ d ∈ (' ' :: cs).head?, separates d = true :=
    fun cs => separates_head (by decide)
  have htoken := isPunctuation_text operator.text (pos + byteWidth text + ' '.utf8Size)
  have hrow := hlexes.append
    (.blank hblank (.separated (.operator hmem) (.blank hblank hlexes') (hsep _))) (hsep _)
  refine ⟨_, hrow, .plain (derives_join hlevel hderives ?_ hderives')⟩
  rwa [String.ofList_toList]

/-! ### Elements -/

/-- No elements. -/
theorem noElements : Prints .elements [] [] :=
  fun _ => ⟨[], .done, .noElements⟩

/-- A hole at the end. -/
theorem lastHole : Prints .elements [','] [none] := by
  intro pos
  exact ⟨_, .punctuation (by decide) (by decide) .done,
    .hole (isPunctuation_text _ _) .noElements⟩

/-- A hole before other elements. -/
theorem hole {es : List (Option Expression)} (h : Prints .elements text es) :
    Prints .elements (',' :: ' ' :: text) (none :: es) := by
  intro pos
  obtain ⟨ts, hlexes, hderives⟩ := h (pos + byteWidth [','] + ' '.utf8Size)
  exact ⟨_, .punctuation (by decide) (by decide) (.blank (by decide) hlexes),
    .hole (isPunctuation_text _ _) hderives⟩

/-- An element at the end. -/
theorem lastElement (h : Prints .unary text e) : Prints .elements text [some e] := by
  intro pos
  obtain ⟨ts, hlexes, hderives⟩ := h.expression pos
  exact ⟨ts, hlexes, .lastElement hderives⟩

/-- An element before other ones. -/
theorem element {text' : List Char} {es : List (Option Expression)} (h : Prints .unary text e)
    (h' : Prints .elements text' es) :
    Prints .elements (text ++ ',' :: ' ' :: text') (some e :: es) := by
  intro pos
  obtain ⟨ts, hlexes, hderives⟩ := h.expression pos
  obtain ⟨us, hlexes', hderives'⟩ := h' (pos + byteWidth text + byteWidth [','] + ' '.utf8Size)
  exact ⟨_, hlexes.append (.punctuation (by decide) (by decide) (.blank (by decide) hlexes'))
    (separates_head (by decide)), .element hderives (isPunctuation_text _ _) hderives'⟩

end Prints

/-! ### Properties -/

/-- The text is a lexeme that is the key. -/
def PrintsKey (text : List Char) (key : PropertyKey) : Prop :=
  ∃ kind, Spells text kind ∧ ∀ pos, DerivesKey ⟨String.ofList text, kind, pos⟩ key

section Properties

variable {name text text' : List Char} {key : PropertyKey} {e : Expression}
  {ps : List (PropertyKey × Expression)}

/-- A blank, a key, a colon and another blank before a row of lexemes. -/
theorem PrintsKey.lexes (h : PrintsKey name key) (pos : Nat) : ∃ k c n, DerivesKey k key ∧
    c.isPunctuation ":" = true ∧ ∀ {cs ts}, Lexes n cs ts →
      Lexes pos (' ' :: (name ++ ':' :: ' ' :: cs)) (k :: c :: ts) := by
  obtain ⟨kind, hspells, hkey⟩ := h
  exact ⟨_, _, _, hkey _, isPunctuation_text ":" _, fun hlexes => .blank (by decide)
    (.separated hspells (.punctuation (by decide) (by decide) (.blank (by decide) hlexes))
      (separates_head (by decide)))⟩

/-- No properties. -/
theorem Prints.noProperties : Prints .properties [] [] :=
  fun _ => ⟨[], .done, .noProperties⟩

/-- A property at the end. -/
theorem Prints.lastProperty (hkey : PrintsKey name key) (h : Prints .unary text e) :
    Prints .properties (' ' :: (name ++ ':' :: ' ' :: text)) [(key, e)] := by
  intro pos
  obtain ⟨k, c, n, hderivesKey, hcolon, hrow⟩ := hkey.lexes pos
  obtain ⟨ts, hlexes, hderives⟩ := h.expression n
  exact ⟨_, hrow hlexes, .lastProperty hderivesKey hcolon hderives⟩

/-- A property before other ones. -/
theorem Prints.property (hkey : PrintsKey name key) (h : Prints .unary text e)
    (h' : Prints .properties text' ps) :
    Prints .properties (' ' :: (name ++ ':' :: ' ' :: (text ++ ',' :: text')))
      ((key, e) :: ps) := by
  intro pos
  obtain ⟨k, c, n, hderivesKey, hcolon, hrow⟩ := hkey.lexes pos
  obtain ⟨ts, hlexes, hderives⟩ := h.expression n
  obtain ⟨us, hlexes', hderives'⟩ := h' (n + byteWidth text + byteWidth [','])
  exact ⟨_, hrow (hlexes.append (.punctuation (by decide) (by decide) hlexes')
    (separates_head (by decide))),
    .property hderivesKey hcolon hderives (isPunctuation_text _ _) hderives'⟩

end Properties

end ExprSandbox
