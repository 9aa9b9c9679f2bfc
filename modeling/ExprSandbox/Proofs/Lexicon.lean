import ExprSandbox.Token.Lexer

/-!
# The lexicon

Which characters spell a lexeme of which kind, apart from the scanning rules (`Spells`), and which
character would go on with a lexeme that stands before it (`goesOn`).  A scanning rule takes from
the front exactly what is spelled there and ends where nothing goes on (`takes_lexeme_iff`).

A character behind a lexeme can only matter as the next one: no scanning rule that looks further
ahead decides differently because of what stands behind its lexeme.
-/

namespace ExprSandbox.Lexer

open NumberLiteral StringLiteral

/-! ## Spellings -/

/-- Digits, with a point among or beside them or without one. -/
inductive SpellsMantissa : List Char → Prop
  | whole {ds : List Char} (nonempty : ds ≠ []) (digits : ∀ c ∈ ds, isDigit c = true) :
      SpellsMantissa ds
  | point {ds fs : List Char} (nonempty : ds ≠ [] ∨ fs ≠ []) (whole : ∀ c ∈ ds, isDigit c = true)
      (fraction : ∀ c ∈ fs, isDigit c = true) : SpellsMantissa (ds ++ '.' :: fs)

/-- A mantissa, with an exponent or without one. -/
inductive SpellsNumber : List Char → Prop
  | plain {m : List Char} (mantissa : SpellsMantissa m) : SpellsNumber m
  | scaled {m sign ds : List Char} {e : Char} (mantissa : SpellsMantissa m)
      (letter : isExponentLetter e = true) (sign_mem : sign ∈ [[], ['+'], ['-']])
      (nonempty : ds ≠ []) (digits : ∀ c ∈ ds, isDigit c = true) :
      SpellsNumber (m ++ e :: (sign ++ ds))

/-- The text of a string behind its opening quote, through the closing one, and the characters
that it stands for. -/
inductive SpellsBody (quote : Char) : List Char → List Char → Prop
  | close : SpellsBody quote [quote] []
  | char {c : Char} {text value : List Char} (ne_quote : c ≠ quote) (ne_backslash : c ≠ '\\')
      (rest : SpellsBody quote text value) : SpellsBody quote (c :: text) (c :: value)
  | escape {e : Char} {text value : List Char} (ne : e ≠ 'u')
      (rest : SpellsBody quote text value) :
      SpellsBody quote ('\\' :: e :: text) (unescape e :: value)
  | unicode {c : Char} {digits text value : List Char}
      (escape : unicodeEscape? (digits ++ text) = some (c, digits.length))
      (rest : SpellsBody quote text value) :
      SpellsBody quote ('\\' :: 'u' :: (digits ++ text)) (c :: value)

/-- The quotes that open and close a string. -/
abbrev IsQuote (c : Char) : Prop := c = '\'' ∨ c = '"'

/-- The characters spell a lexeme of the kind. -/
inductive Spells : List Char → TokenKind → Prop
  | punctuation {c : Char} (mem : c ∈ punctuation) : Spells [c] .punctuation
  | operator {op : List Char} (mem : op ∈ operators) : Spells op .punctuation
  | word {c : Char} {cs : List Char} (start : isIdentStart c = true)
      (part : ∀ d ∈ cs, isIdentPart d = true) : Spells (c :: cs) (wordKind (c :: cs))
  | number {text : List Char} (number : SpellsNumber text) :
      Spells text (.literal (.number (NumberLiteral.value text)))
  | string {quote : Char} {text value : List Char} (opening : IsQuote quote)
      (body : SpellsBody quote text value) :
      Spells (quote :: text) (.literal (.string (String.ofList value)))

/-- Whether the lexeme would go on with the character behind it. -/
def goesOn (text : List Char) (d : Char) : Bool :=
  if starts text then isDigit d || isExponentLetter d || (d == '.' && text.all isDigit)
  else if text.head?.any isIdentStart then isIdentPart d
  else if text = ['.'] then isDigit d
  else operators.contains (text ++ [d])

/-- Nothing that stands behind the lexeme goes on with it. -/
def Ends (text rest : List Char) : Prop :=
  ∀ d ∈ rest.head?, goesOn text d = false

/-- Every lexeme ends at the end of the source. -/
theorem ends_nil (text : List Char) : Ends text [] := nofun

/-! ## Character classes -/

/-- The digits lie in one range of code points. -/
theorem isDigit_iff {c : Char} : isDigit c = true ↔ 48 ≤ c.toNat ∧ c.toNat ≤ 57 := by
  rw [isDigit, Bool.and_eq_true, decide_eq_true_eq, decide_eq_true_eq]
  exact Iff.rfl

/-- The letters lie in two ranges of code points. -/
theorem isLetter_iff {c : Char} :
    isLetter c = true ↔ 97 ≤ c.toNat ∧ c.toNat ≤ 122 ∨ 65 ≤ c.toNat ∧ c.toNat ≤ 90 := by
  simp only [isLetter, Bool.or_eq_true, Bool.and_eq_true, decide_eq_true_eq]
  exact Iff.rfl

/-- Names start with letters and with two other characters. -/
theorem isIdentStart_iff {c : Char} : isIdentStart c = true ↔
    (97 ≤ c.toNat ∧ c.toNat ≤ 122 ∨ 65 ≤ c.toNat ∧ c.toNat ≤ 90) ∨ c.toNat = 95 ∨
      c.toNat = 36 := by
  rw [isIdentStart, Bool.or_eq_true, Bool.or_eq_true, isLetter_iff, beq_iff_eq, beq_iff_eq,
    ← Char.toNat_inj, ← Char.toNat_inj, or_assoc]
  exact Iff.rfl

/-- Blanks lie in these ranges of code points. -/
theorem isBlank_iff {c : Char} : isBlank c = true ↔
    (∃ r ∈ whiteSpaceRanges, r.1 ≤ c.toNat ∧ c.toNat ≤ r.2) ∨ c.toNat = 0xFEFF := by
  rw [isBlank, Bool.or_eq_true, List.any_eq_true, beq_iff_eq, ← Char.toNat_inj]
  simp only [Bool.and_eq_true, decide_eq_true_eq]
  exact Iff.rfl

/-! ## Numbers -/

/-- A number starts with a digit or with a point before a digit. -/
theorem starts_cons {c : Char} {cs : List Char} :
    starts (c :: cs) = (isDigit c || (c == '.' && cs.head?.any isDigit)) := by
  by_cases hc : c = '.'
  · subst hc
    cases cs with
    | nil => rfl
    | cons d ds => simp [starts, show isDigit '.' = false from rfl]
  · unfold starts
    split
    · next h => exact absurd (List.cons.inj h).1 hc
    · next c' cs' h =>
      obtain ⟨rfl, rfl⟩ := List.cons.inj h
      simp [hc]
    · next h => cases h

/-- A character that is neither a digit nor a point starts no number. -/
theorem starts_eq_false {c : Char} {cs : List Char} (hdigit : isDigit c = false)
    (hpoint : c ≠ '.') : starts (c :: cs) = false := by
  rw [starts_cons, hdigit, beq_eq_false_iff_ne.mpr hpoint]
  rfl

/-- A mantissa starts a number, whatever stands behind it. -/
theorem SpellsMantissa.starts {m : List Char} (h : SpellsMantissa m) (rest : List Char) :
    starts (m ++ rest) = true := by
  cases h with
  | @whole ds nonempty digits =>
    obtain ⟨d, ds, rfl⟩ := List.exists_cons_of_ne_nil nonempty
    rw [List.cons_append, starts_cons, digits d List.mem_cons_self, Bool.true_or]
  | @point ds fs nonempty whole fraction =>
    cases ds with
    | cons d ds =>
      rw [List.cons_append, List.cons_append, starts_cons, whole d List.mem_cons_self,
        Bool.true_or]
    | nil =>
      obtain ⟨f, fs, rfl⟩ := List.exists_cons_of_ne_nil (nonempty.resolve_left (by simp))
      rw [List.nil_append, List.cons_append, starts_cons, List.cons_append, List.head?_cons,
        Option.any_some, fraction f List.mem_cons_self]
      rfl

/-- A spelled number starts one. -/
theorem SpellsNumber.starts {text : List Char} (h : SpellsNumber text) (rest : List Char) :
    NumberLiteral.starts (text ++ rest) = true := by
  cases h with
  | plain mantissa => exact mantissa.starts rest
  | scaled mantissa letter sign_mem nonempty digits =>
    rw [List.append_assoc]
    exact mantissa.starts _

/-- A point is no digit. -/
theorem isDigit_point : isDigit '.' = false := rfl

/-- A letter before an exponent is no digit and no point. -/
theorem isExponentLetter_iff {c : Char} : isExponentLetter c = true ↔ c = 'e' ∨ c = 'E' := by
  rw [isExponentLetter, Bool.or_eq_true, beq_iff_eq, beq_iff_eq]

/-- A mantissa that is not all digits has a point. -/
theorem SpellsMantissa.point_mem {m : List Char} (h : SpellsMantissa m) {c : Char} (hc : c ∈ m)
    (hno : isDigit c = false) : '.' ∈ m := by
  cases h with
  | whole nonempty digits =>
    rw [digits c hc] at hno
    cases hno
  | point nonempty whole fraction => simp

/-- A number ends before what is no digit, no exponent, and no first point. -/
theorem ends_number {text rest : List Char} (h : SpellsNumber text) : Ends text rest ↔
    ∀ d ∈ rest.head?, isDigit d = false ∧ isExponentLetter d = false ∧
      (d = '.' → ∃ c ∈ text, isDigit c = false) := by
  have hstarts : starts text = true := by simpa using h.starts []
  refine forall₂_congr fun d _ => ?_
  rw [goesOn, if_pos hstarts, Bool.or_eq_false_iff, Bool.or_eq_false_iff, and_assoc,
    Bool.and_eq_false_imp, beq_iff_eq, List.all_eq_false]
  simp

/-! ## Strings -/

/-- A quote is none of the characters of an escape. -/
theorem IsQuote.ne_backslash {c : Char} (h : IsQuote c) : c ≠ '\\' := by
  rcases h with rfl | rfl <;> decide

/-- Four characters decide whether a code unit is spelled. -/
theorem hexUnit?_append {cs : List Char} (h : 4 ≤ cs.length) (rest : List Char) :
    hexUnit? (cs ++ rest) = hexUnit? cs := by
  match cs, h with
  | _ :: _ :: _ :: _ :: _, _ => rfl

/-- Only a backslash begins an escape. -/
theorem lowEscape?_of_ne {c : Char} {cs : List Char} (h : c ≠ '\\') :
    lowEscape? (c :: cs) = none := by
  unfold lowEscape?
  split
  · next heq => exact absurd (List.cons.inj heq).1 h
  · rfl

/-- Only a `u` behind the backslash begins the escape of a code unit. -/
theorem lowEscape?_of_ne_u {e : Char} {cs : List Char} (h : e ≠ 'u') :
    lowEscape? ('\\' :: e :: cs) = none := by
  unfold lowEscape?
  split
  · next heq => exact absurd (List.cons.inj (List.cons.inj heq).2).1 h
  · rfl

/-- Six characters decide whether the escape of a low surrogate stands at the front. -/
theorem lowEscape?_append {cs : List Char} (h : 6 ≤ cs.length) (rest : List Char) :
    lowEscape? (cs ++ rest) = lowEscape? cs := by
  match cs, h with
  | a :: b :: ds, h =>
    have hds : 4 ≤ ds.length := by simpa using h
    rw [List.cons_append, List.cons_append]
    by_cases ha : a = '\\'
    · by_cases hb : b = 'u'
      · subst ha hb
        rw [lowEscape?, lowEscape?, hexUnit?_append hds]
      · rw [ha, lowEscape?_of_ne_u hb, lowEscape?_of_ne_u hb]
    · rw [lowEscape?_of_ne ha, lowEscape?_of_ne ha]

/-- A code unit is spelled by four characters. -/
theorem length_of_hexUnit? {cs : List Char} {unit : Nat} (h : hexUnit? cs = some unit) :
    4 ≤ cs.length := by
  unfold hexUnit? at h
  split at h
  · simp
  · cases h

/-- The escape of a low surrogate is six characters. -/
theorem length_of_lowEscape? {cs : List Char} {low : Nat} (h : lowEscape? cs = some low) :
    6 ≤ cs.length := by
  unfold lowEscape? at h
  split at h
  · have hunit := (Option.filter_eq_some_iff.mp h).1
    have hlen := length_of_hexUnit? hunit
    simp only [List.length_cons]
    omega
  · cases h

/-- The digits of an escape are four, or ten characters with a second escape. -/
theorem length_of_unicodeEscape? {cs : List Char} {c : Char} {n : Nat}
    (h : unicodeEscape? cs = some (c, n)) : (n = 4 ∨ n = 10) ∧ n ≤ cs.length := by
  obtain ⟨unit, hunit, hvalue⟩ := Option.map_eq_some_iff.mp h
  have hlen := length_of_hexUnit? hunit
  split at hvalue
  · split at hvalue
    · next low hlow =>
      obtain rfl : 10 = n := congrArg Prod.snd hvalue
      have hlow := length_of_lowEscape? hlow
      rw [List.length_drop] at hlow
      omega
    · obtain rfl : 4 = n := congrArg Prod.snd hvalue
      exact ⟨.inl rfl, hlen⟩
  · obtain rfl : 4 = n := congrArg Prod.snd hvalue
    exact ⟨.inl rfl, hlen⟩

section SpellsBody

variable {quote : Char} {text value : List Char}

/-- What stands behind a string makes no escape of a low surrogate at its front. -/
theorem SpellsBody.lowEscape?_append (h : SpellsBody quote text value) (hquote : IsQuote quote)
    (rest : List Char) : lowEscape? (text ++ rest) = lowEscape? text := by
  cases h with
  | close =>
    have hne := hquote.ne_backslash
    rw [List.cons_append, lowEscape?_of_ne hne, lowEscape?_of_ne hne]
  | char ne_quote ne_backslash =>
    rw [List.cons_append, lowEscape?_of_ne ne_backslash, lowEscape?_of_ne ne_backslash]
  | escape ne =>
    rw [List.cons_append, List.cons_append, lowEscape?_of_ne_u ne, lowEscape?_of_ne_u ne]
  | @unicode c digits text value escape =>
    -- the digits of the escape belong to the string
    obtain ⟨hn, -⟩ := length_of_unicodeEscape? escape
    refine Lexer.lowEscape?_append ?_ rest
    simp only [List.length_cons, List.length_append]
    omega

/-- What stands behind a string has no part in an escape that the string goes on from. -/
theorem SpellsBody.unicodeEscape?_append (h : SpellsBody quote text value) (hquote : IsQuote quote)
    {digits : List Char} (hdigits : digits.length = 4 ∨ digits.length = 10) (rest : List Char) :
    unicodeEscape? (digits ++ (text ++ rest)) = unicodeEscape? (digits ++ text) := by
  have hlow : lowEscape? ((digits ++ (text ++ rest)).drop 4) =
      lowEscape? ((digits ++ text).drop 4) := by
    have hle : 4 ≤ digits.length := by omega
    rw [List.drop_append_of_le_length hle, List.drop_append_of_le_length hle]
    rcases hdigits with hlen | hlen
    · rw [List.drop_eq_nil_of_le (Nat.le_of_eq hlen), List.nil_append, List.nil_append]
      exact h.lowEscape?_append hquote rest
    · have hsix : 6 ≤ (digits.drop 4).length := by rw [List.length_drop]; omega
      rw [Lexer.lowEscape?_append hsix, Lexer.lowEscape?_append hsix]
  have hunit : hexUnit? (digits ++ (text ++ rest)) = hexUnit? (digits ++ text) := by
    rw [hexUnit?_append (by omega), hexUnit?_append (by omega)]
  rw [unicodeEscape?, unicodeEscape?, hunit, hlow]

end SpellsBody

/-! ## What lexemes begin with -/

/-- A test that every character of a list passes holds of each of them. The test is run over the
list: a decision that quantifies over characters could as well go through all of them. -/
theorem forall_mem_of_all {p : Char → Prop} [DecidablePred p] {l : List Char}
    (h : (l.all fun c => decide (p c)) = true) : ∀ c ∈ l, p c :=
  fun c hc => of_decide_eq_true (List.all_eq_true.mp h c hc)

/-- What operators begin with begins no other lexeme, and is no blank. -/
theorem operator_head {op : List Char} (h : op ∈ operators) : ∃ c cs, op = c :: cs ∧
    isDigit c = false ∧ c ≠ '.' ∧ ¬ IsQuote c ∧ c ∉ punctuation ∧ isIdentStart c = false ∧
    isBlank c = false := by
  have hnil : ∀ op ∈ operators, op ≠ [] := by decide
  have hall := forall_mem_of_all (l := operators.filterMap List.head?)
    (p := fun c => isDigit c = false ∧ c ≠ '.' ∧ ¬ (c = '\'' ∨ c = '"') ∧ c ∉ punctuation ∧
      isIdentStart c = false ∧ isBlank c = false) (by decide +kernel)
  obtain ⟨c, cs, rfl⟩ := List.exists_cons_of_ne_nil (hnil op h)
  exact ⟨c, cs, rfl, hall c (List.mem_filterMap.mpr ⟨c :: cs, h, rfl⟩)⟩

/-- What a name begins with begins no other lexeme. -/
theorem word_head {c : Char} (h : isIdentStart c = true) :
    isDigit c = false ∧ c ≠ '.' ∧ ¬ IsQuote c ∧ c ∉ punctuation := by
  have hpunctuation : ∀ d ∈ punctuation, isIdentStart d = false :=
    forall_mem_of_all (by decide +kernel)
  refine ⟨?_, ?_, ?_, fun hmem => ?_⟩
  · rw [← Bool.not_eq_true, isDigit_iff]
    rw [isIdentStart_iff] at h
    omega
  · rintro rfl
    cases h
  · rintro (rfl | rfl)
    · cases h
    · cases h
  · rw [hpunctuation c hmem] at h
    cases h

/-- A punctuation begins no number, no string and no name, and is no blank. -/
theorem punctuation_head {c : Char} (h : c ∈ punctuation) : isDigit c = false ∧ ¬ IsQuote c ∧
    isIdentStart c = false ∧ isBlank c = false := by
  have hall : ∀ d ∈ punctuation, isDigit d = false ∧ ¬ (d = '\'' ∨ d = '"') ∧
      isIdentStart d = false ∧ isBlank d = false := forall_mem_of_all (by decide +kernel)
  exact hall c h

/-- A quote begins no other lexeme. -/
theorem IsQuote.head {c : Char} (h : IsQuote c) :
    isDigit c = false ∧ c ≠ '.' ∧ isIdentStart c = false := by
  rcases h with rfl | rfl <;> decide

/-! ## Where lexemes end -/

/-- An operator goes on to a longer one. -/
theorem goesOn_operator {op : List Char} {d : Char} (h : op ∈ operators) :
    goesOn op d = operators.contains (op ++ [d]) := by
  obtain ⟨c, cs, rfl, hdigit, hpoint, -, -, hstart, -⟩ := operator_head h
  have hstarts : starts (c :: cs) = false := starts_eq_false hdigit hpoint
  have hword : (c :: cs).head?.any isIdentStart = false := hstart
  have hne : c :: cs ≠ ['.'] := fun heq => hpoint (List.cons.inj heq).1
  rw [goesOn, hstarts, hword, if_neg Bool.false_ne_true, if_neg Bool.false_ne_true, if_neg hne]

/-- An operator ends where it is the longest one. -/
theorem ends_operator {op rest : List Char} (h : op ∈ operators) : Ends op rest ↔
    ∀ op' ∈ operators, op' <+: op ++ rest → op'.length ≤ op.length := by
  -- every operator grows out of a shorter one by one character
  have hclosed : ∀ op ∈ operators, ∀ op' ∈ operators, op.isPrefixOf op' = true →
      op.length < op'.length → op'.take (op.length + 1) ∈ operators := by decide
  constructor
  · intro hends op' hmem hprefix
    refine Nat.le_of_not_lt fun hlt => ?_
    have hle : op <+: op' :=
      List.prefix_of_prefix_length_le (List.prefix_append op rest) hprefix (Nat.le_of_lt hlt)
    obtain ⟨after, rfl⟩ := hle
    cases after with
    | nil => simp at hlt
    | cons d after =>
      obtain ⟨tail, htail⟩ := (List.prefix_append_right_inj op).mp hprefix
      have hstep := List.isPrefixOf_iff_prefix.mpr (List.prefix_append op (d :: after))
      have hmem' := hclosed op h _ hmem hstep hlt
      have htake : (op ++ d :: after).take (op.length + 1) = op ++ [d] := by
        rw [List.take_length_add_append]
        rfl
      have hno := hends d (by rw [← htail]; rfl)
      rw [goesOn_operator h, ← htake, List.contains_eq_mem, decide_eq_true hmem'] at hno
      cases hno
  · intro hmax d hd
    obtain ⟨tail, rfl⟩ := List.head?_eq_some_iff.mp hd
    rw [goesOn_operator h, ← Bool.not_eq_true, List.contains_iff_mem]
    intro hmem
    have hlen := hmax _ hmem ⟨tail, by simp⟩
    rw [List.length_append] at hlen
    exact Nat.not_succ_le_self _ hlen

/-- A name goes on with characters of names. -/
theorem goesOn_word {c d : Char} {cs : List Char} (h : isIdentStart c = true) :
    goesOn (c :: cs) d = isIdentPart d := by
  obtain ⟨hdigit, hpoint, -⟩ := word_head h
  have hstarts : starts (c :: cs) = false := starts_eq_false hdigit hpoint
  rw [goesOn, hstarts, if_neg Bool.false_ne_true, List.head?_cons, Option.any_some, if_pos h]

/-- What begins no operator, no number and no name goes on with nothing. -/
theorem goesOn_of_head {c d : Char} {cs : List Char} (hdigit : isDigit c = false)
    (hstart : isIdentStart c = false) (hhead : IsQuote c ∨ c ∈ punctuation) (hpoint : c ≠ '.') :
    goesOn (c :: cs) d = false := by
  have hstarts : starts (c :: cs) = false := starts_eq_false hdigit hpoint
  have hne : c :: cs ≠ ['.'] := fun heq => hpoint (List.cons.inj heq).1
  have hno : c :: cs ++ [d] ∉ operators := by
    intro hmem
    obtain ⟨c', cs', heq, -, -, hquote, hpunctuation, -⟩ := operator_head hmem
    obtain rfl := (List.cons.inj heq).1
    exact hhead.elim hquote hpunctuation
  rw [goesOn, hstarts, if_neg Bool.false_ne_true, List.head?_cons, Option.any_some, hstart,
    if_neg Bool.false_ne_true, if_neg hne, List.contains_eq_mem, decide_eq_false hno]

/-- Nothing goes on with a string. -/
theorem goesOn_string {quote d : Char} {text : List Char} (h : IsQuote quote) :
    goesOn (quote :: text) d = false := by
  obtain ⟨hdigit, hpoint, hstart⟩ := h.head
  exact goesOn_of_head hdigit hstart (.inl h) hpoint

/-- A point goes on with a digit, and nothing with other punctuation. -/
theorem goesOn_punctuation {c d : Char} (h : c ∈ punctuation) :
    goesOn [c] d = (c == '.' && isDigit d) := by
  by_cases hpoint : c = '.'
  · subst hpoint
    rfl
  · obtain ⟨hdigit, -, hstart, -⟩ := punctuation_head h
    rw [goesOn_of_head hdigit hstart (.inr h) hpoint, beq_eq_false_iff_ne.mpr hpoint,
      Bool.false_and]

/-- A name ends where no character of names follows. -/
theorem ends_word {c : Char} {cs rest : List Char} (h : isIdentStart c = true) :
    Ends (c :: cs) rest ↔ ∀ d ∈ rest.head?, isIdentPart d = false := by
  unfold Ends
  simp only [goesOn_word h]

/-- A punctuation ends where it starts no number. -/
theorem ends_punctuation {c : Char} {rest : List Char} (h : c ∈ punctuation) :
    Ends [c] rest ↔ starts (c :: rest) = false := by
  obtain ⟨hdigit, -⟩ := punctuation_head h
  unfold Ends
  rw [starts_cons, hdigit, Bool.false_or]
  cases rest with
  | nil => simp
  | cons d rest => simp [goesOn_punctuation h]

end ExprSandbox.Lexer
