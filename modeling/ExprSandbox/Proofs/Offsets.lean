import ExprSandbox.Proofs.Lexing

/-!
# Scanning by byte offsets

A scanner that keeps nothing but a byte offset cuts the source anew at every step, and a cut inside
a character is no cut.  `Cursor.tokenize?` is this scanner: every cut may fail, and every loop has
its rounds counted.  It never fails and never runs out of rounds, and it finds what `tokenize`
finds (`Cursor.tokenize?_eq`).  What carries the proof is where the cursor stands, a cut of the
source (`Cursor.from?_eq_some_iff`), and that it moves by whole characters (`Cursor.from?_add`).
-/

namespace ExprSandbox.Lexer.Cursor

open NumberLiteral StringLiteral

/-! ## Cuts -/

/-- The characters from a byte offset on.  Inside a character and behind the end there is no
cut. -/
def from? : List Char → Nat → Option (List Char)
  | cs, 0 => some cs
  | [], _ + 1 => none
  | c :: cs, pos + 1 =>
    if c.utf8Size ≤ pos + 1 then from? cs (pos + 1 - c.utf8Size) else none

/-- The characters between two byte offsets, if both are cuts. -/
def slice? (source : List Char) (start stop : Nat) : Option (List Char) := do
  let tail ← from? source start
  let rest ← from? source stop
  if start ≤ stop then return tail.take (tail.length - rest.length) else none

section Scanner

variable (source : List Char)

/-! ## The scanner -/

/-- The next character. -/
def peek? (pos : Nat) : Option (Option Char) :=
  (from? source pos).map (·.head?)

/-- The character behind the next one. -/
def peekSecond? (pos : Nat) : Option (Option Char) :=
  (from? source pos).map (·[1]?)

/-- The offset behind the next character. -/
def advance? (pos : Nat) : Option Nat :=
  (peek? source pos).map fun c => pos + (c.map Char.utf8Size).getD 0

/-- The offset behind all characters of a class. -/
def eat? (p : Char → Bool) : Nat → Nat → Option Nat
  | 0, _ => none
  | rounds + 1, pos => do
    if (← peek? source pos).any p then eat? p rounds (← advance? source pos) else return pos

/-- The offset behind digits with an optional point. -/
def mantissa? (rounds pos : Nat) : Option Nat := do
  let pos ← eat? source isDigit rounds pos
  if (← peek? source pos) = some '.' then eat? source isDigit rounds (← advance? source pos)
  else return pos

/-- The offset behind a sign that a digit follows. -/
def sign? (pos : Nat) : Option Nat := do
  let next ← peek? source pos
  let second ← peekSecond? source pos
  if next.any (fun c => c = '+' ∨ c = '-') && second.any isDigit then advance? source pos
  else return pos

/-- The offset behind the sign and the digits of an exponent. -/
def exponent? (rounds pos : Nat) : Option (Except LexError Nat) := do
  let pos ← sign? source pos
  let stop ← eat? source isDigit rounds pos
  let next ← peek? source pos
  let last ← peek? source stop
  if next.any isDigit && !last.any isExponentLetter then return .ok stop
  else return .error (.invalidExponent stop)

/-- The offset behind a number. -/
def number? (rounds pos : Nat) : Option (Except LexError Nat) := do
  let pos ← mantissa? source rounds pos
  let next ← peek? source pos
  if next.any isExponentLetter then exponent? source rounds (← advance? source pos)
  else return .ok pos

/-- The code unit that the four bytes at an offset spell.  Four bytes that are no slice spell
none. -/
def hexUnit? (pos : Nat) : Option Nat :=
  (slice? source pos (pos + 4)).bind StringLiteral.hexUnit?

/-- The character of an escape behind its `\u`, and the offset behind it. -/
def unicodeEscape? (pos : Nat) : Option (Option (Char × Nat)) :=
  match hexUnit? source pos with
  | none => some none
  | some unit =>
    if Utf16.isHigh unit then do
      let low := if ['\\', 'u'].isPrefixOf (← from? source (pos + 4)) then
          (hexUnit? source (pos + 6)).filter Utf16.isLow
        else none
      match low with
      | some low => return some (Utf16.charOfPair unit low, pos + 10)
      | none => return some (Utf16.replacement, pos + 4)
    else some (some (Utf16.charOfUnit unit, pos + 4))

/-- The characters of a string from some point on, and the offset behind its closing quote. -/
def string? (quote : Char) (start : Nat) : Nat → Nat → Option (Except LexError (List Char × Nat))
  | 0, _ => none
  | rounds + 1, pos => do
    let push (c : Char) (pos : Nat) : Option (Except LexError (List Char × Nat)) := do
      return (← string? quote start rounds pos).map fun r => (c :: r.1, r.2)
    match ← peek? source pos with
    | none => return .error (.unmatchedQuote start)
    | some c =>
      let behind ← advance? source pos
      if c = quote then return .ok ([], behind)
      else if c = '\\' then
        match ← peek? source behind with
        | none => return .error (.unmatchedQuote start)
        | some e =>
          let behind ← advance? source behind
          if e = 'u' then
            match ← unicodeEscape? source behind with
            | none => return .error (.invalidUnicodeEscape pos)
            | some (value, behind) => push value behind
          else push (unescape e) behind
      else push c behind

/-- The token between two offsets. -/
def token? (start stop : Nat) (kind : List Char → TokenKind) : Option (Option Token × Nat) := do
  let text ← slice? source start stop
  return (some ⟨String.ofList text, kind text, start⟩, stop)

/-- The token at an offset where `c` stands, if there is one, and the offset behind it. -/
def step? (rounds pos : Nat) (c : Char) : Option (Except LexError (Option Token × Nat)) := do
  let second ← peekSecond? source pos
  let behind ← advance? source pos
  if isDigit c || (c == '.' && second.any isDigit) then
    match ← number? source rounds pos with
    | .error e => return .error e
    | .ok stop => .ok <$> token? source pos stop fun text => .literal (.number (value text))
  else if IsQuote c then
    match ← string? source c pos rounds behind with
    | .error e => return .error e
    | .ok (value, stop) =>
      .ok <$> token? source pos stop fun _ => .literal (.string (String.ofList value))
  else if punctuation.contains c then .ok <$> token? source pos behind fun _ => .punctuation
  else if isIdentStart c then
    .ok <$> token? source pos (← eat? source isIdentPart rounds pos) wordKind
  else if isBlank c then return .ok (none, behind)
  else
    match operators.find? (·.isPrefixOf (← from? source pos)) with
    | none => return .error (.unexpectedChar c pos)
    | some op => .ok <$> token? source pos (pos + byteWidth op) fun _ => .punctuation

/-- The tokens from an offset on. -/
def run? : Nat → Nat → Option (Except LexError (List Token))
  | 0, _ => none
  | rounds + 1, pos => do
    match ← peek? source pos with
    | none => return .ok []
    | some c =>
      match ← step? source (rounds + 1) pos c with
      | .error e => return .error e
      | .ok (token, behind) => return (← run? rounds behind).map (token.toList ++ ·)

end Scanner

/-- The tokens of a source, when every loop has one round more than the source has characters. -/
def tokenize? (source : String) : Option (Except LexError (List Token)) :=
  run? source.toList (source.toList.length + 1) 0

/-! ## Where the cursor stands -/

/-- At the start of a source nothing is cut off. -/
theorem from?_zero (source : List Char) : from? source 0 = some source := by
  cases source with
  | nil => rfl
  | cons c cs => rfl

/-- A cut behind the first character is a cut of what follows it. -/
theorem from?_cons (c : Char) (cs : List Char) (pos : Nat) :
    from? (c :: cs) (c.utf8Size + pos) = from? cs pos := by
  have hpos := Char.utf8Size_pos c
  obtain ⟨n, hn⟩ : ∃ n, c.utf8Size + pos = n + 1 := ⟨c.utf8Size + pos - 1, by omega⟩
  rw [hn, from?, ← hn, if_pos (Nat.le_add_right _ _), Nat.add_sub_cancel_left]

/-- A cut leaves a beginning of the source that is as wide as the offset. -/
theorem from?_eq_some_iff {source cs : List Char} {pos : Nat} :
    from? source pos = some cs ↔ ∃ before, source = before ++ cs ∧ byteWidth before = pos := by
  constructor
  · intro h
    fun_induction from? source pos with
    | case1 source => exact ⟨[], Option.some.inj h, rfl⟩
    | case2 pos => cases h
    | case3 c source pos hle ih =>
      obtain ⟨before, rfl, hwidth⟩ := ih h
      refine ⟨c :: before, rfl, ?_⟩
      rw [byteWidth, hwidth]
      omega
    | case4 c source pos hlt => cases h
  · rintro ⟨before, rfl, rfl⟩
    induction before with
    | nil => exact from?_zero cs
    | cons c before ih => rw [List.cons_append, byteWidth, from?_cons, ih]

section Cut

variable {source cs text rest : List Char} {c : Char} {pos : Nat}

/-- Behind the characters that stand at a cut there is a cut again. -/
theorem from?_add (h : from? source pos = some (text ++ rest)) :
    from? source (pos + byteWidth text) = some rest := by
  obtain ⟨before, rfl, rfl⟩ := from?_eq_some_iff.mp h
  refine from?_eq_some_iff.mpr ⟨before ++ text, (List.append_assoc _ _ _).symm, ?_⟩
  exact byteWidth_append before text

/-- Behind the next character there is a cut. -/
theorem from?_next (h : from? source pos = some (c :: rest)) :
    from? source (pos + c.utf8Size) = some rest := by
  have hcut : from? source pos = some ([c] ++ rest) := h
  exact from?_add hcut

/-- What stands between two cuts is their slice. -/
theorem slice?_eq (h : from? source pos = some (text ++ rest)) :
    slice? source pos (pos + byteWidth text) = some text := by
  have hlen : (text ++ rest).length - rest.length = text.length := by simp
  rw [slice?, h, from?_add h, Option.bind_eq_bind, Option.bind_some, Option.bind_some,
    if_pos (Nat.le_add_right _ _), hlen, List.take_left]
  rfl

/-- A slice at a cut is a beginning of what stands there. -/
theorem prefix_of_slice? {stop : Nat} (h : from? source pos = some cs)
    (hslice : slice? source pos stop = some text) : text <+: cs := by
  rw [slice?, h, Option.bind_eq_bind, Option.bind_some] at hslice
  obtain ⟨rest, -, hslice⟩ := Option.bind_eq_some_iff.mp hslice
  split at hslice
  · obtain rfl := Option.some.inj hslice
    exact List.take_prefix _ _
  · cases hslice

/-- The next character at a cut. -/
theorem peek?_eq (h : from? source pos = some cs) : peek? source pos = some cs.head? := by
  rw [peek?, h]
  rfl

/-- The character behind the next one at a cut. -/
theorem peekSecond?_eq (h : from? source pos = some cs) : peekSecond? source pos = some cs[1]? := by
  rw [peekSecond?, h]
  rfl

/-- The cursor moves by the next character. -/
theorem advance?_eq (h : from? source pos = some (c :: rest)) :
    advance? source pos = some (pos + c.utf8Size) := by
  rw [advance?, peek?_eq h]
  rfl

/-- A run of characters is eaten to its end. -/
theorem eat?_eq (p : Char → Bool) {rounds : Nat} (h : from? source pos = some cs)
    (hrounds : cs.length < rounds) :
    eat? source p rounds pos = some (pos + byteWidth (cs.takeWhile p)) := by
  induction cs generalizing pos rounds with
  | nil =>
    cases rounds with
    | zero => cases hrounds
    | succ rounds =>
      rw [eat?, peek?_eq h]
      rfl
  | cons c cs ih =>
    cases rounds with
    | zero => cases hrounds
    | succ rounds =>
      rw [eat?, peek?_eq h, Option.bind_eq_bind, Option.bind_some, List.head?_cons,
        Option.any_some, List.takeWhile_cons]
      split
      · rw [advance?_eq h, Option.bind_eq_bind, Option.bind_some,
          ih (from?_next h) (Nat.lt_of_succ_lt_succ hrounds), byteWidth, Nat.add_assoc]
      · rfl

/-! ## Numbers -/

/-- Digits with an optional point are passed. -/
theorem mantissa?_eq {rounds : Nat} (h : from? source pos = some cs)
    (hrounds : cs.length < rounds) :
    mantissa? source rounds pos = some (pos + byteWidth (mantissa cs).1) := by
  have hsplit : cs = cs.takeWhile isDigit ++ cs.dropWhile isDigit :=
    List.takeWhile_append_dropWhile.symm
  have hcut : from? source (pos + byteWidth (cs.takeWhile isDigit)) =
      some (cs.dropWhile isDigit) := from?_add (by rwa [← hsplit])
  simp only [mantissa?, eat?_eq isDigit h hrounds, peek?_eq hcut, Option.bind_eq_bind,
    Option.bind_some]
  split
  · next hhead =>
    obtain ⟨rest, hrest⟩ := List.head?_eq_some_iff.mp hhead
    rw [hrest] at hcut
    have hlt : rest.length < rounds := by
      have hlen := congrArg List.length hsplit
      rw [hrest, List.length_append, List.length_cons] at hlen
      omega
    rw [advance?_eq hcut, Option.bind_some, eat?_eq isDigit (from?_next hcut) hlt, mantissa, hrest]
    simp only [byteWidth_append, byteWidth, Nat.add_assoc]
  · next hhead =>
    unfold mantissa
    split
    · next rest hrest =>
      rw [hrest] at hhead
      exact absurd rfl hhead
    · rfl

/-- A sign before a digit is passed. -/
theorem sign?_eq (h : from? source pos = some cs) :
    sign? source pos = some (pos + byteWidth (exponentSign cs).1) := by
  simp only [sign?, peek?_eq h, peekSecond?_eq h, Option.bind_eq_bind, Option.bind_some]
  match cs with
  | [] => rfl
  | [c] =>
    rw [if_neg (by simp)]
    rfl
  | c :: d :: rest =>
    rw [exponentSign]
    by_cases hsign : (c = '+' ∨ c = '-') ∧ isDigit d = true
    · rw [if_pos hsign, if_pos (by simpa using hsign), advance?_eq h]
      rfl
    · rw [if_neg hsign, if_neg (by simpa using hsign)]
      rfl

/-- A run is empty when the next character does not belong to it. -/
theorem takeWhile_eq_nil_iff {p : Char → Bool} :
    cs.takeWhile p = [] ↔ cs.head?.any p = false := by
  cases cs with
  | nil => simp
  | cons c cs => cases hc : p c <;> simp [hc]

/-- An exponent is passed, unless it has no digits or a second one follows. -/
theorem exponent?_eq {rounds : Nat} (h : from? source pos = some cs)
    (hrounds : cs.length < rounds) {sign digits rest : List Char}
    (hsign : exponentSign cs = (sign, digits ++ rest))
    (hdigits : (digits ++ rest).takeWhile isDigit = digits) :
    exponent? source rounds pos = some (if digits = [] ∨ rest.head?.any isExponentLetter
      then .error (.invalidExponent (pos + byteWidth (sign ++ digits)))
      else .ok (pos + byteWidth (sign ++ digits))) := by
  have hsplit : sign ++ (digits ++ rest) = cs := by
    have happend := exponentSign_append cs
    rwa [hsign] at happend
  have hcut : from? source (pos + byteWidth sign) = some (digits ++ rest) :=
    from?_add (hsplit ▸ h)
  have hlen : (digits ++ rest).length < rounds := by
    rw [← hsplit, List.length_append] at hrounds
    omega
  have hread : sign? source pos = some (pos + byteWidth sign) := by
    rw [sign?_eq h, hsign]
  have hdigit : digits = [] ↔ (digits ++ rest).head?.any isDigit = false := by
    rw [← takeWhile_eq_nil_iff, hdigits]
  rw [byteWidth_append, ← Nat.add_assoc]
  simp only [exponent?, hread, eat?_eq isDigit hcut hlen, hdigits, peek?_eq hcut,
    peek?_eq (from?_add hcut), Option.bind_eq_bind, Option.bind_some, hdigit]
  cases (digits ++ rest).head?.any isDigit with
  | false => rfl
  | true => cases rest.head?.any isExponentLetter with
    | false => rfl
    | true => rfl

/-- A number is passed, or the error is the one of the rule for numbers. -/
theorem number?_eq {rounds : Nat} (h : from? source pos = some cs) (hrounds : cs.length < rounds)
    (hstarts : starts cs = true) : number? source rounds pos =
      some ((NumberLiteral.lexeme pos cs hstarts).map fun l => pos + byteWidth l.text) := by
  have hcut : from? source (pos + byteWidth (mantissa cs).1) = some (mantissa cs).2 :=
    from?_add (by rwa [mantissa_append])
  have hread := mantissa?_eq h hrounds
  unfold NumberLiteral.lexeme
  split
  · next hrest =>
    simp only [number?, hread, peek?_eq hcut, hrest, Option.bind_eq_bind, Option.bind_some]
    rfl
  · next c rest hrest =>
    rw [hrest] at hcut
    have hlen : rest.length < rounds := by
      have happend := congrArg List.length (mantissa_append cs)
      rw [hrest, List.length_append, List.length_cons] at happend
      omega
    have hsign : exponentSign rest = ((exponentSign rest).1,
        (exponentSign rest).2.takeWhile isDigit ++ (exponentSign rest).2.dropWhile isDigit) := by
      rw [List.takeWhile_append_dropWhile]
    have hexponent := exponent?_eq (from?_next hcut) hlen hsign
      (by rw [List.takeWhile_append_dropWhile])
    have hstop : pos + byteWidth (mantissa cs).1 + c.utf8Size +
        byteWidth ((exponentSign rest).1 ++ (exponentSign rest).2.takeWhile isDigit) =
        pos + byteWidth ((mantissa cs).1 ++
          c :: ((exponentSign rest).1 ++ (exponentSign rest).2.takeWhile isDigit)) := by
      simp only [byteWidth_append, byteWidth, Nat.add_assoc]
    simp only [number?, hread, peek?_eq hcut, advance?_eq hcut, Option.bind_eq_bind,
      Option.bind_some, List.head?_cons, Option.any_some]
    split
    · rw [hexponent, hstop]
      split
      · rfl
      · rfl
    · rfl

/-! ## Strings -/

/-- A hexadecimal digit takes one byte. -/
theorem utf8Size_of_digitValue? {v : Nat} (h : digitValue? c = some v) : c.utf8Size = 1 := by
  have hlt : c.toNat ≤ 127 := by
    unfold digitValue? at h
    split at h
    · next hdigit =>
      rw [isDigit_iff] at hdigit
      omega
    split at h
    · next hlower =>
      rw [Bool.and_eq_true, decide_eq_true_eq, decide_eq_true_eq] at hlower
      exact Nat.le_trans (show c.toNat ≤ 102 from hlower.2) (by decide)
    split at h
    · next hupper =>
      rw [Bool.and_eq_true, decide_eq_true_eq, decide_eq_true_eq] at hupper
      exact Nat.le_trans (show c.toNat ≤ 70 from hupper.2) (by decide)
    · cases h
  exact Char.utf8Size_eq_one_iff.mpr hlt

/-- The digits of a code unit take four bytes. -/
theorem byteWidth_take_of_hexUnit? {unit : Nat} (h : StringLiteral.hexUnit? cs = some unit) :
    byteWidth (cs.take 4) = 4 := by
  unfold StringLiteral.hexUnit? at h
  split at h
  · next a b c d rest =>
    simp only [Option.bind_eq_bind, Option.bind_eq_some_iff] at h
    obtain ⟨_, ha, _, hb, _, hc, _, hd, -⟩ := h
    simp [byteWidth, utf8Size_of_digitValue? ha, utf8Size_of_digitValue? hb,
      utf8Size_of_digitValue? hc, utf8Size_of_digitValue? hd]
  · cases h

/-- The four bytes at a cut spell what the four characters there spell. -/
theorem hexUnit?_eq (h : from? source pos = some cs) :
    hexUnit? source pos = StringLiteral.hexUnit? cs := by
  refine Option.ext fun unit => ?_
  rw [hexUnit?, Option.bind_eq_some_iff]
  constructor
  · rintro ⟨text, hslice, hunit⟩
    obtain ⟨rest, rfl⟩ := prefix_of_slice? h hslice
    rwa [hexUnit?_append (length_of_hexUnit? hunit)]
  · intro hunit
    have hcut : from? source pos = some (cs.take 4 ++ cs.drop 4) := by
      rwa [List.take_append_drop]
    have hslice := slice?_eq hcut
    rw [byteWidth_take_of_hexUnit? hunit] at hslice
    have hlen := length_of_hexUnit? hunit
    refine ⟨cs.take 4, hslice, ?_⟩
    rw [← hexUnit?_append (by simp [hlen]) (cs.drop 4), List.take_append_drop]
    exact hunit

/-- A backslash takes one byte. -/
theorem backslash_width : '\\'.utf8Size = 1 := by decide

/-- The letter of an escape takes one byte. -/
theorem letter_width : 'u'.utf8Size = 1 := by decide

/-- The escape of a low surrogate takes six bytes. -/
theorem byteWidth_take_of_lowEscape? {low : Nat} (h : lowEscape? cs = some low) :
    byteWidth (cs.take 6) = 6 := by
  unfold lowEscape? at h
  split at h
  · next cs =>
    have hwidth := byteWidth_take_of_hexUnit? (Option.filter_eq_some_iff.mp h).1
    rw [List.take_succ_cons, List.take_succ_cons, byteWidth, byteWidth, hwidth, backslash_width,
      letter_width]
  · cases h

/-- What an escape takes behind its `\u` is as many bytes as characters. -/
theorem byteWidth_take_of_unicodeEscape? {n : Nat}
    (h : StringLiteral.unicodeEscape? cs = some (c, n)) : byteWidth (cs.take n) = n := by
  obtain ⟨unit, hunit, hvalue⟩ := Option.map_eq_some_iff.mp h
  have hfour := byteWidth_take_of_hexUnit? hunit
  split at hvalue
  · split at hvalue
    · next low hlow =>
      obtain rfl : 10 = n := congrArg Prod.snd hvalue
      rw [show 10 = 4 + 6 from rfl, List.take_add, byteWidth_append, hfour,
        byteWidth_take_of_lowEscape? hlow]
    · obtain rfl : 4 = n := congrArg Prod.snd hvalue
      exact hfour
  · obtain rfl : 4 = n := congrArg Prod.snd hvalue
    exact hfour

/-- The low surrogate behind a cut is looked for in the slice that starts there. -/
theorem lowEscape?_eq (h : from? source pos = some cs) :
    (if ['\\', 'u'].isPrefixOf cs then (hexUnit? source (pos + 2)).filter Utf16.isLow else none) =
      lowEscape? cs := by
  split
  · next hprefix =>
    obtain ⟨tail, rfl⟩ := List.isPrefixOf_iff_prefix.mp hprefix
    have hcut : from? source (pos + 2) = some tail := from?_add h
    rw [hexUnit?_eq hcut]
    rfl
  · next hprefix =>
    unfold lowEscape?
    split
    · simp at hprefix
    · rfl

/-- An escape is read as the rule for strings reads it. -/
theorem unicodeEscape?_eq (h : from? source pos = some cs) : unicodeEscape? source pos =
    some ((StringLiteral.unicodeEscape? cs).map fun r => (r.1, pos + r.2)) := by
  unfold unicodeEscape? StringLiteral.unicodeEscape?
  rw [hexUnit?_eq h]
  cases hunit : StringLiteral.hexUnit? cs with
  | none => rfl
  | some unit =>
    have hsplit : cs = cs.take 4 ++ cs.drop 4 := List.take_append_drop 4 cs |>.symm
    have hcut : from? source (pos + byteWidth (cs.take 4)) = some (cs.drop 4) :=
      from?_add (by rwa [← hsplit])
    rw [byteWidth_take_of_hexUnit? hunit] at hcut
    have hlow := lowEscape?_eq hcut
    rw [Nat.add_assoc] at hlow
    simp only [Option.map_some]
    split
    · simp only [hcut, Option.bind_eq_bind, Option.bind_some, hlow]
      cases lowEscape? (cs.drop 4) with
      | none => rfl
      | some low => simp only [Option.pure_def]
    · rfl

/-- A string that goes on with a character is passed to where the rest of it is passed to. -/
theorem map_push {cs' : List Char} {x : Except LexError (Body cs)} {k : Body cs → Body cs'}
    {start stop : Nat} (hk : ∀ b, (k b).value = c :: b.value ∧
      start + byteWidth (k b).text = stop + byteWidth b.text) :
    (x.map fun b => (b.value, stop + byteWidth b.text)).map (fun r => (c :: r.1, r.2)) =
      (x >>= fun b => .ok (k b)).map fun b => (b.value, start + byteWidth b.text) := by
  cases x with
  | error e => rfl
  | ok b =>
    obtain ⟨hvalue, htext⟩ := hk b
    simp only [bind, Except.bind, Except.map, hvalue, htext]

/-- A string is read to its closing quote, or the error is the one of the rule for strings. -/
theorem string?_eq (quote : Char) (start : Nat) {rounds : Nat} (h : from? source pos = some cs)
    (hrounds : cs.length < rounds) : string? source quote start rounds pos =
      some ((body quote start pos cs).map fun b => (b.value, pos + byteWidth b.text)) := by
  fun_induction body quote start pos cs generalizing rounds with
    obtain ⟨rounds, rfl⟩ : ∃ n, rounds = n + 1 := ⟨rounds - 1, by omega⟩
  | case1 pos =>
    simp only [string?, peek?_eq h, Option.bind_eq_bind, Option.bind_some, List.head?_nil]
    rfl
  | case2 pos cs =>
    simp only [string?, peek?_eq h, advance?_eq h, Option.bind_eq_bind, Option.bind_some,
      List.head?_cons]
    rfl
  | case3 pos hquote =>
    simp only [string?, peek?_eq h, advance?_eq h, peek?_eq (from?_next h), Option.bind_eq_bind,
      Option.bind_some, List.head?_cons, List.head?_nil, if_neg hquote]
    rfl
  | case4 pos cs hescape hquote =>
    have hu := from?_next h
    have hread := unicodeEscape?_eq (from?_next hu)
    rw [hescape] at hread
    simp only [string?, peek?_eq h, advance?_eq h, peek?_eq hu, advance?_eq hu, hread,
      Option.bind_eq_bind, Option.bind_some, List.head?_cons, if_neg hquote]
    rfl
  | case5 pos cs value k hescape hquote ih =>
    have hu := from?_next h
    have hread := unicodeEscape?_eq (from?_next hu)
    have hsplit : cs = cs.take k ++ cs.drop k := List.take_append_drop k cs |>.symm
    have hwidth := byteWidth_take_of_unicodeEscape? hescape
    have hcut : from? source (pos + 2 + byteWidth (cs.take k)) = some (cs.drop k) :=
      from?_add (hsplit ▸ from?_next hu)
    have hlen : (cs.drop k).length < rounds := by
      simp only [List.length_cons, List.length_drop] at hrounds ⊢
      omega
    have hpos : pos + '\\'.utf8Size + 'u'.utf8Size = pos + 2 := rfl
    rw [hwidth] at hcut
    rw [hescape, Option.map_some] at hread
    simp only [string?, peek?_eq h, advance?_eq h, peek?_eq hu, advance?_eq hu, hread,
      Option.bind_eq_bind, Option.bind_some, List.head?_cons, if_neg hquote, if_pos]
    rw [hpos, ih hcut hlen]
    refine congrArg some (map_push fun b => ⟨rfl, ?_⟩)
    show pos + byteWidth ('\\' :: 'u' :: cs.take k ++ b.text) = pos + 2 + k + byteWidth b.text
    rw [byteWidth_append, byteWidth, byteWidth, hwidth, backslash_width, letter_width]
    omega
  | case6 pos e cs hu hquote ih =>
    have he := from?_next h
    have hlen : cs.length < rounds := by
      simp only [List.length_cons] at hrounds
      omega
    simp only [string?, peek?_eq h, advance?_eq h, peek?_eq he, advance?_eq he,
      Option.bind_eq_bind, Option.bind_some, List.head?_cons, if_neg hquote, if_neg hu, if_true]
    rw [backslash_width] at he ⊢
    rw [ih (from?_next he) hlen]
    refine congrArg some (map_push fun b => ⟨rfl, ?_⟩)
    show pos + byteWidth (['\\', e] ++ b.text) = pos + 1 + e.utf8Size + byteWidth b.text
    rw [byteWidth_append, byteWidth, byteWidth, byteWidth, backslash_width]
    omega
  | case7 pos e cs hquote hslash ih =>
    simp only [string?, peek?_eq h, advance?_eq h, Option.bind_eq_bind,
      Option.bind_some, List.head?_cons, if_neg hquote, if_neg hslash,
      ih (from?_next h) (Nat.lt_of_succ_lt_succ hrounds)]
    refine congrArg some (map_push fun b => ⟨rfl, ?_⟩)
    exact (Nat.add_assoc _ _ _).symm

/-! ## Tokens -/

/-- The token of a lexeme, and the offset behind it. -/
def passed (pos : Nat) (l : Lexeme cs) : Option Token × Nat :=
  (some (l.token pos), pos + byteWidth l.text)

/-- The token of a lexeme is the slice that it takes. -/
theorem token?_eq (h : from? source pos = some cs) (l : Lexeme cs)
    (kind : List Char → TokenKind) (hkind : kind l.text = l.kind) :
    token? source pos (pos + byteWidth l.text) kind = some (passed pos l) := by
  have hslice : slice? source pos (pos + byteWidth l.text) = some l.text :=
    slice?_eq (l.split ▸ h)
  rw [token?, hslice, passed, Lexeme.token, ← hkind]
  rfl

/-- A number stands for the value of its text. -/
theorem kind_of_numberLexeme {hstarts : starts cs = true} {l : Lexeme cs}
    (h : NumberLiteral.lexeme pos cs hstarts = .ok l) :
    l.kind = .literal (.number (value l.text)) := by
  unfold NumberLiteral.lexeme at h
  split at h
  · obtain rfl := Except.ok.inj h
    rfl
  split at h
  · dsimp only at h
    split at h
    · cases h
    · obtain rfl := Except.ok.inj h
      rfl
  · obtain rfl := Except.ok.inj h
    rfl

section Step

variable {rounds : Nat}

/-- Whether a number starts at a cut shows in the two characters there. -/
theorem isDigit_or_point :
    (isDigit c || (c == '.' && (c :: cs)[1]?.any isDigit)) = starts (c :: cs) := by
  rw [starts_cons, List.getElem?_cons_succ, List.head?_eq_getElem?]

/-- A blank is passed. -/
theorem step?_blank (rounds : Nat) (h : from? source pos = some (c :: cs))
    (hblank : isBlank c = true) :
    step? source rounds pos c = some (.ok (none, pos + c.utf8Size)) := by
  have hother : ¬ (isDigit c = true ∨ isIdentStart c = true ∨ c = '.' ∨ IsQuote c) := by
    intro hc
    rw [isBlank_eq_false hc] at hblank
    cases hblank
  rw [not_or, not_or, not_or, Bool.not_eq_true, Bool.not_eq_true] at hother
  obtain ⟨hdigit, hstart, hpoint, hquote⟩ := hother
  have hpunctuation : punctuation.contains c = false := by
    rw [List.contains_eq_mem, decide_eq_false_iff_not]
    intro hmem
    obtain ⟨-, -, -, hno⟩ := punctuation_head hmem
    rw [hno] at hblank
    cases hblank
  simp only [step?, peekSecond?_eq h, advance?_eq h, Option.bind_eq_bind, Option.bind_some, hdigit,
    hstart, hquote, hpunctuation, hblank, beq_eq_false_iff_ne.mpr hpoint]
  rfl

/-- A number is passed, or the error is the one of the rule for numbers. -/
theorem step?_number (h : from? source pos = some (c :: cs)) (hrounds : (c :: cs).length < rounds)
    (hstarts : starts (c :: cs) = true) : step? source rounds pos c =
      some ((NumberLiteral.lexeme pos (c :: cs) hstarts).map (passed pos)) := by
  simp only [step?, peekSecond?_eq h, advance?_eq h, Option.bind_eq_bind, Option.bind_some,
    isDigit_or_point, hstarts, number?_eq h hrounds hstarts]
  cases hl : NumberLiteral.lexeme pos (c :: cs) hstarts with
  | error e => rfl
  | ok l =>
    have htoken := token?_eq h l (fun text => .literal (.number (value text)))
      (kind_of_numberLexeme hl).symm
    simp only [Except.map, if_true, htoken]
    rfl

/-- A string is passed, or the error is the one of the rule for strings. -/
theorem step?_string (h : from? source pos = some (c :: cs)) (hrounds : (c :: cs).length < rounds)
    (hstarts : ¬ starts (c :: cs) = true) (hquote : IsQuote c) : step? source rounds pos c =
      some ((StringLiteral.lexeme pos c cs).map (passed pos)) := by
  have hwidth : c.utf8Size = 1 := by
    rcases hquote with rfl | rfl
    · decide
    · decide
  have hread := string?_eq c pos (from?_next h) (Nat.lt_of_succ_lt hrounds)
  rw [hwidth] at hread
  simp only [step?, peekSecond?_eq h, advance?_eq h, Option.bind_eq_bind, Option.bind_some,
    isDigit_or_point, if_neg hstarts, if_pos hquote, hwidth, hread]
  rw [StringLiteral.lexeme]
  cases hb : body c pos (pos + 1) cs with
  | error e => rfl
  | ok b =>
    let l : Lexeme (c :: cs) := ⟨c :: b.text, b.rest, .literal (.string (String.ofList b.value)),
      List.cons_ne_nil c b.text, by rw [List.cons_append, ← b.split]⟩
    have htoken := token?_eq h l (fun _ => .literal (.string (String.ofList b.value))) rfl
    have hstop : pos + byteWidth l.text = pos + 1 + byteWidth b.text := by
      show pos + (c.utf8Size + byteWidth b.text) = _
      rw [hwidth, Nat.add_assoc]
    rw [hstop] at htoken
    simp only [Except.map, htoken]
    rfl

/-- The lexeme at a cut is passed, or the error is the one of its rule. -/
theorem step?_lexeme (h : from? source pos = some (c :: cs)) (hrounds : (c :: cs).length < rounds)
    (hblank : isBlank c = false) :
    step? source rounds pos c = some ((lexeme pos c cs).map (passed pos)) := by
  unfold lexeme
  split
  · next hstarts => exact step?_number h hrounds hstarts
  next hstarts =>
  split
  · next hquote => exact step?_string h hrounds hstarts hquote
  next hquote =>
  simp only [step?, peekSecond?_eq h, advance?_eq h, Option.bind_eq_bind, Option.bind_some,
    isDigit_or_point, if_neg hstarts, if_neg hquote, hblank]
  split
  · have htoken := token?_eq h ⟨[c], cs, .punctuation, by simp, List.singleton_append.symm⟩
      (fun _ => .punctuation) rfl
    exact congrArg (Option.map Except.ok) htoken
  split
  · next hstart =>
    have hpart : isIdentPart c = true := by
      rw [isIdentPart, hstart, Bool.true_or]
    have htoken := token?_eq h (word c cs) wordKind rfl
    rw [eat?_eq isIdentPart h hrounds, List.takeWhile_cons, if_pos hpart, Option.bind_some]
    exact congrArg (Option.map Except.ok) htoken
  · rw [h, Option.bind_some, find?_operators_eq]
    cases hoperator : operator? (c :: cs) with
    | none => rfl
    | some l =>
      have hkind := (operator?_eq_some_iff.mp ⟨l, hoperator, rfl, rfl, rfl⟩).2.2
      have htoken := token?_eq h l (fun _ => .punctuation) hkind.symm
      exact congrArg (Option.map Except.ok) htoken

end Step

/-! ## Whole sources -/

/-- From a cut on the cursor finds what a scan finds. -/
theorem run?_eq {rounds : Nat} (h : from? source pos = some cs) (hrounds : cs.length < rounds) :
    run? source rounds pos = some (scan pos cs) := by
  induction rounds generalizing pos cs with
  | zero => cases hrounds
  | succ rounds ih =>
    cases cs with
    | nil =>
      simp only [run?, peek?_eq h, Option.bind_eq_bind, Option.bind_some, List.head?_nil]
      rw [scan]
      rfl
    | cons c cs =>
      cases hblank : isBlank c with
      | true =>
        have hstep := step?_blank (rounds + 1) h hblank
        have hrest := ih (from?_next h) (Nat.lt_of_succ_lt_succ hrounds)
        simp only [run?, peek?_eq h, Option.bind_eq_bind, Option.bind_some, List.head?_cons, hstep,
          hrest, scan_blank hblank]
        cases scan (pos + c.utf8Size) cs with
        | error e => rfl
        | ok ts => rfl
      | false =>
        have hstep := step?_lexeme h hrounds hblank
        simp only [run?, peek?_eq h, Option.bind_eq_bind, Option.bind_some, List.head?_cons, hstep,
          scan_lexeme hblank]
        cases lexeme pos c cs with
        | error e => rfl
        | ok l =>
          have hlen := l.rest_length_lt
          have hrest := ih (from?_add (l.split ▸ h)) (by omega)
          simp only [Except.map, passed, hrest, Option.bind_some]
          rfl

end Cut

/-- **No cut fails.**  Scanning by byte offsets comes to an end and finds the same tokens, or the
same error. -/
theorem tokenize?_eq (source : String) : tokenize? source = some (tokenize source) :=
  run?_eq (from?_zero source.toList) (Nat.lt_succ_self _)

end ExprSandbox.Lexer.Cursor
