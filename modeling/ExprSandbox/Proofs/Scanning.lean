import Mathlib.Data.List.TakeWhile
import ExprSandbox.Proofs.Lexicon

/-!
# Scanning rules

A scanning rule takes from the front exactly the lexeme that is spelled there, with the value that
its spelling gives it, and stops where nothing goes on with it (`takes_lexeme_iff`).  So what a
rule takes does not depend on where the lexeme stands, nor on what stands behind the next
character.
-/

namespace ExprSandbox.Lexer

open NumberLiteral StringLiteral

/-! ## Runs of characters -/

section Runs

variable {p : Char → Bool} {run rest : List Char}

/-- A run of a class is taken to its end. -/
theorem takeWhile_run (inside : ∀ c ∈ run, p c = true) (next : ∀ d ∈ rest.head?, p d = false) :
    (run ++ rest).takeWhile p = run := by
  rw [List.takeWhile_append_of_pos inside]
  cases rest with
  | nil => simp
  | cons d tail => simp [next d rfl]

/-- What follows a run of a class is left. -/
theorem dropWhile_run (inside : ∀ c ∈ run, p c = true) (next : ∀ d ∈ rest.head?, p d = false) :
    (run ++ rest).dropWhile p = rest := by
  rw [List.dropWhile_append_of_pos inside]
  cases rest with
  | nil => rfl
  | cons d tail => simp [next d rfl]

/-- What is left begins with no character of the class. -/
theorem not_of_mem_head?_dropWhile {cs : List Char} :
    ∀ d ∈ (cs.dropWhile p).head?, p d = false := by
  intro d hd
  have h := List.head?_dropWhile_not p cs
  rw [Option.mem_def.mp hd] at h
  exact h

end Runs

/-! ## Parts of a number -/

/-- A mantissa is read to its end. -/
theorem mantissa_of_spells {m rest : List Char} (h : SpellsMantissa m)
    (hdigit : ∀ d ∈ rest.head?, isDigit d = false)
    (hpoint : ∀ d ∈ rest.head?, d = '.' → '.' ∈ m) : mantissa (m ++ rest) = (m, rest) := by
  cases h with
  | whole nonempty digits =>
    have hno : ∀ d ∈ rest.head?, d ≠ '.' := by
      intro d hd heq
      have hmem := digits _ (hpoint d hd heq)
      rw [isDigit_point] at hmem
      cases hmem
    unfold mantissa
    rw [takeWhile_run digits hdigit, dropWhile_run digits hdigit]
    split
    · exact absurd rfl (hno '.' rfl)
    · rfl
  | @point ds fs nonempty whole fraction =>
    have hnext : ∀ d ∈ ('.' :: (fs ++ rest)).head?, isDigit d = false := by
      intro d hd
      obtain rfl := Option.some.inj hd
      rfl
    unfold mantissa
    rw [List.append_assoc, List.cons_append, takeWhile_run whole hnext, dropWhile_run whole hnext]
    simp only [takeWhile_run fraction hdigit, dropWhile_run fraction hdigit]

/-- What is read as a mantissa is one, and ends where neither a digit nor a first point follows. -/
theorem spells_mantissa {cs : List Char} (hstarts : starts cs = true) :
    SpellsMantissa (mantissa cs).1 ∧ (∀ d ∈ (mantissa cs).2.head?, isDigit d = false) ∧
      ∀ d ∈ (mantissa cs).2.head?, d = '.' → '.' ∈ (mantissa cs).1 := by
  generalize h : mantissa cs = parts
  obtain ⟨m, rest⟩ := parts
  have hwhole : ∀ c ∈ cs.takeWhile isDigit, isDigit c = true :=
    fun c hc => List.mem_takeWhile_imp hc
  have hne : m ≠ [] := by
    have hfst := mantissa_ne_nil hstarts
    rwa [h] at hfst
  have hleft : ∀ d ∈ (cs.dropWhile isDigit).head?, isDigit d = false := not_of_mem_head?_dropWhile
  unfold mantissa at h
  split at h
  · next tail htail =>
    obtain ⟨rfl, rfl⟩ := Prod.mk.inj h
    refine ⟨.point ?_ hwhole fun c hc => List.mem_takeWhile_imp hc, not_of_mem_head?_dropWhile,
      fun d _ _ => by simp⟩
    -- without a digit before the point there is one behind it
    by_cases hnil : cs.takeWhile isDigit = []
    · right
      have hcs : cs = '.' :: tail := by
        rw [← htail, ← List.takeWhile_append_dropWhile (p := isDigit) (l := cs), hnil]
        simp [htail, isDigit_point]
      rw [hcs, starts_cons, isDigit_point, Bool.false_or, Bool.and_eq_true] at hstarts
      cases tail with
      | nil => simp at hstarts
      | cons d ds =>
        have hd : isDigit d = true := by simpa using hstarts.2
        simp [hd]
    · exact .inl hnil
  · next hno =>
    obtain ⟨rfl, rfl⟩ := Prod.mk.inj h
    refine ⟨.whole hne hwhole, hleft, fun d hd heq => ?_⟩
    cases hdrop : cs.dropWhile isDigit with
    | nil => rw [hdrop] at hd; cases hd
    | cons c tail =>
      rw [hdrop] at hd
      obtain rfl := Option.some.inj hd
      exact absurd (heq ▸ hdrop) (hno tail)

/-- A sign is read with the digits that it stands before. -/
theorem exponentSign_of_digits {sign ds rest : List Char} (hsign : sign ∈ [[], ['+'], ['-']])
    (hne : ds ≠ []) (hds : ∀ c ∈ ds, isDigit c = true) :
    exponentSign (sign ++ (ds ++ rest)) = (sign, ds ++ rest) := by
  obtain ⟨d, ds, rfl⟩ := List.exists_cons_of_ne_nil hne
  have hd := hds d List.mem_cons_self
  have hplus : d ≠ '+' := by rintro rfl; cases hd
  have hminus : d ≠ '-' := by rintro rfl; cases hd
  simp only [List.mem_cons, List.not_mem_nil, or_false] at hsign
  rcases hsign with rfl | rfl | rfl
  · rw [List.nil_append, List.cons_append]
    unfold exponentSign
    split
    · next c c' cs heq =>
      obtain ⟨rfl, -⟩ := List.cons.inj heq
      rw [if_neg (by simp [hplus, hminus]), heq]
    · rfl
  · simp [exponentSign, hd]
  · simp [exponentSign, hd]

/-- The sign of an exponent is `+`, `-` or nothing. -/
theorem exponentSign_mem (cs : List Char) : (exponentSign cs).1 ∈ [[], ['+'], ['-']] := by
  unfold exponentSign
  split
  · split
    · next h => rcases h.1 with rfl | rfl <;> simp
    · simp
  · simp

/-! ## Lexemes that are taken -/

/-- The scanning rule takes the lexeme and leaves the rest. -/
def Takes {cs : List Char} (x : Except LexError (Lexeme cs)) (text rest : List Char)
    (kind : TokenKind) : Prop :=
  ∃ l, x = .ok l ∧ l.text = text ∧ l.rest = rest ∧ l.kind = kind

section Takes

variable {cs text rest : List Char} {kind : TokenKind}

/-- What is taken and what is left make up what there was. -/
theorem Takes.split {x : Except LexError (Lexeme cs)} (h : Takes x text rest kind) :
    cs = text ++ rest := by
  obtain ⟨l, -, rfl, rfl, -⟩ := h
  exact l.split

/-- A rule that has succeeded. -/
theorem takes_ok {l : Lexeme cs} :
    Takes (.ok l) text rest kind ↔ l.text = text ∧ l.rest = rest ∧ l.kind = kind := by
  constructor
  · rintro ⟨l', hl, h⟩
    obtain rfl := Except.ok.inj hl
    exact h
  · exact fun h => ⟨l, rfl, h⟩

/-- A rule that has failed. -/
theorem not_takes_error {e : LexError} :
    ¬ Takes (.error e : Except LexError (Lexeme cs)) text rest kind := by
  rintro ⟨l, hl, -⟩
  cases hl

end Takes

/-- A number is taken as it is spelled, up to where it ends. -/
theorem takes_number {pos : Nat} {cs text rest : List Char} (h : SpellsNumber text)
    (hends : Ends text rest) (hsplit : cs = text ++ rest) (hstarts : starts cs = true) :
    Takes (NumberLiteral.lexeme pos cs hstarts) text rest (.literal (.number (value text))) := by
  subst hsplit
  rw [ends_number h] at hends
  unfold NumberLiteral.lexeme
  cases h with
  | plain mantissa =>
    have hm : NumberLiteral.mantissa (text ++ rest) = (text, rest) := by
      refine mantissa_of_spells mantissa (fun d hd => (hends d hd).1) fun d hd heq => ?_
      obtain ⟨c, hc, hno⟩ := (hends d hd).2.2 heq
      exact mantissa.point_mem hc hno
    have hfst : (NumberLiteral.mantissa (text ++ rest)).1 = text := by rw [hm]
    have hkind := congrArg (fun m => TokenKind.literal (.number (value m))) hfst
    split
    · next hrest =>
      obtain rfl : rest = [] := by rwa [hm] at hrest
      exact takes_ok.mpr ⟨hfst, rfl, hkind⟩
    · next e after hrest =>
      obtain rfl : rest = e :: after := by rwa [hm] at hrest
      rw [if_neg (by rw [(hends e rfl).2.1]; exact Bool.false_ne_true)]
      exact takes_ok.mpr ⟨hfst, rfl, hkind⟩
  | @scaled m sign ds e mantissa letter sign_mem nonempty digits =>
    have hletter := isExponentLetter_iff.mp letter
    have hm : NumberLiteral.mantissa (m ++ e :: (sign ++ ds) ++ rest) =
        (m, e :: (sign ++ (ds ++ rest))) := by
      rw [List.append_assoc, List.cons_append, List.append_assoc]
      refine mantissa_of_spells mantissa ?_ ?_
      · intro d hd
        obtain rfl := Option.some.inj hd
        rcases hletter with rfl | rfl <;> rfl
      · intro d hd heq
        obtain rfl := Option.some.inj hd
        rcases hletter with rfl | rfl <;> cases heq
    have hsign : exponentSign (sign ++ (ds ++ rest)) = (sign, ds ++ rest) :=
      exponentSign_of_digits sign_mem nonempty digits
    have htake : (ds ++ rest).takeWhile isDigit = ds :=
      takeWhile_run digits fun d hd => (hends d hd).1
    have hdrop : (ds ++ rest).dropWhile isDigit = rest :=
      dropWhile_run digits fun d hd => (hends d hd).1
    have hnext : rest.head?.any isExponentLetter = false := by
      cases rest with
      | nil => rfl
      | cons d tail => exact (hends d rfl).2.1
    split
    · next hrest =>
      rw [hm] at hrest
      cases hrest
    · next e' after hrest =>
      obtain ⟨rfl, rfl⟩ : e = e' ∧ sign ++ (ds ++ rest) = after := by
        rw [hm] at hrest
        exact List.cons.inj hrest
      simp only [hsign, htake, hdrop, hm]
      rw [if_pos letter, if_neg (by simp [nonempty, hnext])]
      exact takes_ok.mpr ⟨rfl, rfl, rfl⟩

/-- What is taken as a number is spelled as one, and ends there. -/
theorem spells_of_takes_number {pos : Nat} {cs text rest : List Char} {kind : TokenKind}
    {hstarts : starts cs = true}
    (h : Takes (NumberLiteral.lexeme pos cs hstarts) text rest kind) :
    Spells text kind ∧ Ends text rest := by
  obtain ⟨hmantissa, hdigit, hpoint⟩ := spells_mantissa hstarts
  unfold NumberLiteral.lexeme at h
  split at h
  · next hrest =>
    obtain ⟨rfl, rfl, rfl⟩ := takes_ok.mp h
    exact ⟨.number (.plain hmantissa), ends_nil _⟩
  · next e after hrest =>
    rw [hrest] at hdigit hpoint
    split at h
    · next hletter =>
      dsimp only at h
      split at h
      · exact absurd h not_takes_error
      · next hno =>
        obtain ⟨rfl, rfl, rfl⟩ := takes_ok.mp h
        obtain ⟨hne, hnext⟩ := not_or.mp hno
        have hnumber := SpellsNumber.scaled hmantissa hletter (exponentSign_mem after) hne
          fun c hc => List.mem_takeWhile_imp hc
        refine ⟨.number hnumber, (ends_number hnumber).mpr fun d hd => ?_⟩
        refine ⟨not_of_mem_head?_dropWhile d hd, ?_, fun _ => ⟨e, by simp, hdigit e rfl⟩⟩
        rw [Option.mem_def.mp hd] at hnext
        simpa using hnext
    · next hletter =>
      obtain ⟨rfl, rfl, rfl⟩ := takes_ok.mp h
      have hnumber := SpellsNumber.plain hmantissa
      refine ⟨.number hnumber, (ends_number hnumber).mpr fun d hd => ?_⟩
      obtain rfl := Option.some.inj hd
      exact ⟨hdigit e rfl, by simpa using hletter, fun heq => ⟨'.', hpoint e rfl heq, rfl⟩⟩

/-! ## Strings -/

/-- The rule reads the string to its closing quote and leaves the rest. -/
def TakesBody {cs : List Char} (x : Except LexError (Body cs)) (text rest value : List Char) :
    Prop :=
  ∃ b, x = .ok b ∧ b.text = text ∧ b.rest = rest ∧ b.value = value

/-- A rule for strings that has failed. -/
theorem not_takesBody_error {e : LexError} {cs text rest value : List Char} :
    ¬ TakesBody (.error e : Except LexError (Body cs)) text rest value := by
  rintro ⟨b, hb, -⟩
  cases hb

/-- A string goes on with a character and with what is read behind it. -/
theorem takesBody_push {cs cs' text rest value : List Char} (before : List Char) (c : Char)
    {x : Except LexError (Body cs)} {k : Body cs → Body cs'}
    (hk : ∀ b, (k b).text = before ++ b.text ∧ (k b).rest = b.rest ∧ (k b).value = c :: b.value) :
    TakesBody (x >>= fun b => .ok (k b)) text rest value ↔
      ∃ text' value', TakesBody x text' rest value' ∧ text = before ++ text' ∧
        value = c :: value' := by
  cases x with
  | error e =>
    refine iff_of_false not_takesBody_error ?_
    rintro ⟨text', value', h, -⟩
    exact not_takesBody_error h
  | ok b =>
    obtain ⟨htext, hrest, hvalue⟩ := hk b
    constructor
    · rintro ⟨b', hb', rfl, rfl, rfl⟩
      obtain rfl := Except.ok.inj hb'
      exact ⟨b.text, b.value, ⟨b, rfl, rfl, hrest.symm, rfl⟩, htext, hvalue⟩
    · rintro ⟨text', value', ⟨b', hb', rfl, rfl, rfl⟩, rfl, rfl⟩
      obtain rfl := Except.ok.inj hb'
      exact ⟨k b, rfl, htext, hrest, hvalue⟩

/-- No string ends without its closing quote. -/
theorem not_takesBody_nil {quote : Char} {start pos : Nat} {text rest value : List Char} :
    ¬ TakesBody (body quote start pos []) text rest value := by
  rw [body]
  exact not_takesBody_error

/-- A string is closed by its quote, and goes on with an escape or a character. -/
theorem takesBody_cons {quote c : Char} {start pos : Nat} {cs text rest value : List Char} :
    TakesBody (body quote start pos (c :: cs)) text rest value ↔
      if c = quote then text = [c] ∧ rest = cs ∧ value = []
      else if c = '\\' then ∃ e cs', cs = e :: cs' ∧
        if e = 'u' then ∃ v n, unicodeEscape? cs' = some (v, n) ∧ ∃ text' value',
          TakesBody (body quote start (pos + 2 + n) (cs'.drop n)) text' rest value' ∧
            text = c :: e :: (cs'.take n ++ text') ∧ value = v :: value'
        else ∃ text' value', TakesBody (body quote start (pos + 1 + e.utf8Size) cs') text' rest
          value' ∧ text = c :: e :: text' ∧ value = unescape e :: value'
      else ∃ text' value', TakesBody (body quote start (pos + c.utf8Size) cs) text' rest value' ∧
        text = c :: text' ∧ value = c :: value' := by
  rw [body.eq_def]
  dsimp only
  split
  · constructor
    · rintro ⟨b, hb, rfl, rfl, rfl⟩
      obtain rfl := Except.ok.inj hb
      exact ⟨rfl, rfl, rfl⟩
    · rintro ⟨rfl, rfl, rfl⟩
      exact ⟨_, rfl, rfl, rfl, rfl⟩
  split
  · cases cs with
    | nil =>
      refine iff_of_false not_takesBody_error ?_
      rintro ⟨e, cs', h, -⟩
      cases h
    | cons e cs =>
      have hcons : ∀ {P : Char → List Char → Prop},
          (∃ e' cs', e :: cs = e' :: cs' ∧ P e' cs') ↔ P e cs := by
        intro P
        constructor
        · rintro ⟨e', cs', h, hP⟩
          obtain ⟨rfl, rfl⟩ := List.cons.inj h
          exact hP
        · exact fun hP => ⟨e, cs, rfl, hP⟩
      rw [hcons]
      dsimp only
      split
      · cases hescape : unicodeEscape? cs with
        | none =>
          refine iff_of_false not_takesBody_error ?_
          rintro ⟨v, n, h, -⟩
          cases h
        | some found =>
          obtain ⟨v, n⟩ := found
          refine Iff.trans (takesBody_push (c :: e :: cs.take n) v ?_) ?_
          · exact fun b => ⟨rfl, rfl, rfl⟩
          constructor
          · exact fun h => ⟨v, n, rfl, h⟩
          · rintro ⟨v', n', h, hbody⟩
            obtain ⟨rfl, rfl⟩ := Prod.mk.inj (Option.some.inj h)
            exact hbody
      · exact takesBody_push [c, e] (unescape e) fun b => ⟨rfl, rfl, rfl⟩
  · exact takesBody_push [c] c fun b => ⟨rfl, rfl, rfl⟩

/-- A string is read as it is spelled. -/
theorem takesBody {quote : Char} {text value : List Char} (hquote : IsQuote quote)
    (h : SpellsBody quote text value) (start pos : Nat) (rest : List Char) :
    TakesBody (body quote start pos (text ++ rest)) text rest value := by
  induction h generalizing pos with
  | close =>
    rw [List.cons_append, takesBody_cons, if_pos rfl]
    exact ⟨rfl, rfl, rfl⟩
  | char ne_quote ne_backslash _ ih =>
    rw [List.cons_append, takesBody_cons, if_neg ne_quote, if_neg ne_backslash]
    exact ⟨_, _, ih _, rfl, rfl⟩
  | escape ne _ ih =>
    rw [List.cons_append, takesBody_cons, if_neg hquote.ne_backslash.symm, if_pos rfl]
    refine ⟨_, _, rfl, ?_⟩
    rw [if_neg ne]
    exact ⟨_, _, ih _, rfl, rfl⟩
  | @unicode c digits text value escape hrest ih =>
    have hlen := (length_of_unicodeEscape? escape).1
    have hread := hrest.unicodeEscape?_append hquote hlen rest
    rw [List.cons_append, List.cons_append, List.append_assoc, takesBody_cons,
      if_neg hquote.ne_backslash.symm, if_pos rfl]
    refine ⟨_, _, rfl, ?_⟩
    rw [if_pos rfl]
    refine ⟨c, digits.length, hread.trans escape, text, value, ?_, ?_, rfl⟩
    · rw [List.drop_left]
      exact ih _
    · rw [List.take_left]

/-- What is read as a string is spelled as one. -/
theorem spellsBody_of_takes {quote : Char} (hquote : IsQuote quote) {start pos : Nat}
    {cs text rest value : List Char} (h : TakesBody (body quote start pos cs) text rest value) :
    SpellsBody quote text value ∧ cs = text ++ rest := by
  induction hn : cs.length using Nat.strongRecOn generalizing cs text value pos with
  | _ n ih =>
    cases cs with
    | nil => exact absurd h not_takesBody_nil
    | cons c cs =>
      rw [takesBody_cons] at h
      split at h
      · next hclose =>
        obtain ⟨rfl, rfl, rfl⟩ := h
        exact ⟨hclose ▸ .close, rfl⟩
      next hclose =>
      split at h
      · next hslash =>
        subst hslash
        obtain ⟨e, cs, rfl, h⟩ := h
        split at h
        · next hu =>
          subst hu
          obtain ⟨v, n', hescape, text, value, hbody, rfl, rfl⟩ := h
          obtain ⟨hlen, hle⟩ := length_of_unicodeEscape? hescape
          have htake : (cs.take n').length = n' := List.length_take_of_le hle
          have hlt : (cs.drop n').length < n := by
            rw [← hn, List.length_drop, List.length_cons, List.length_cons]
            omega
          obtain ⟨hspells, hsplit⟩ := ih _ hlt hbody rfl
          have hcs : cs = cs.take n' ++ (text ++ rest) := by rw [← hsplit, List.take_append_drop]
          have hread := hspells.unicodeEscape?_append hquote (htake ▸ hlen) rest
          rw [← hcs, hescape] at hread
          refine ⟨.unicode ?_ hspells, ?_⟩
          · rw [htake]
            exact hread.symm
          · rw [List.cons_append, List.cons_append, List.append_assoc, ← hcs]
        · next hne =>
          obtain ⟨text, value, hbody, rfl, rfl⟩ := h
          have hlt : cs.length < n := by
            rw [← hn, List.length_cons, List.length_cons]
            omega
          obtain ⟨hspells, rfl⟩ := ih _ hlt hbody rfl
          exact ⟨.escape hne hspells, rfl⟩
      · next hslash =>
        obtain ⟨text, value, hbody, rfl, rfl⟩ := h
        obtain ⟨hspells, rfl⟩ := ih _ (by simp [← hn]) hbody rfl
        exact ⟨.char hclose hslash hspells, rfl⟩

/-- The rule for strings takes a quote and a body. -/
theorem takes_string_iff {quote : Char} {pos : Nat} {cs text rest : List Char}
    {kind : TokenKind} : Takes (StringLiteral.lexeme pos quote cs) text rest kind ↔
      ∃ text' value, TakesBody (body quote pos (pos + 1) cs) text' rest value ∧
        text = quote :: text' ∧ kind = .literal (.string (String.ofList value)) := by
  unfold StringLiteral.lexeme
  cases hbody : body quote pos (pos + 1) cs with
  | error e =>
    refine iff_of_false not_takes_error ?_
    rintro ⟨text', value, h, -⟩
    exact not_takesBody_error h
  | ok b =>
    constructor
    · intro h
      obtain ⟨rfl, rfl, rfl⟩ := takes_ok.mp h
      exact ⟨b.text, b.value, ⟨b, rfl, rfl, rfl, rfl⟩, rfl, rfl⟩
    · rintro ⟨text', value, ⟨b', hb', rfl, rfl, rfl⟩, rfl, rfl⟩
      obtain rfl := Except.ok.inj hb'
      exact takes_ok.mpr ⟨rfl, rfl, rfl⟩

/-! ## Operators -/

/-- The operator that is found at the front is the longest one there. -/
theorem find?_operators_iff {cs op : List Char} :
    operators.find? (·.isPrefixOf cs) = some op ↔
      op ∈ operators ∧ op <+: cs ∧ ∀ op' ∈ operators, op' <+: cs → op'.length ≤ op.length := by
  have hsorted : operators.Pairwise fun a b => b.length ≤ a.length := by decide
  have hlongest : ∀ {op : List Char}, operators.find? (·.isPrefixOf cs) = some op →
      op ∈ operators ∧ op <+: cs ∧ ∀ op' ∈ operators, op' <+: cs → op'.length ≤ op.length := by
    intro op h
    obtain ⟨hop, before, after, heq, hbefore⟩ := List.find?_eq_some_iff_append.mp h
    refine ⟨List.mem_of_find?_eq_some h, List.isPrefixOf_iff_prefix.mp hop, ?_⟩
    intro op' hmem hprefix
    rw [heq] at hmem hsorted
    rcases List.mem_append.mp hmem with hmem | hmem
    · have hno := hbefore op' hmem
      rw [List.isPrefixOf_iff_prefix.mpr hprefix] at hno
      cases hno
    · rcases List.mem_cons.mp hmem with rfl | hmem
      · exact Nat.le_refl _
      · exact (List.pairwise_cons.mp (List.pairwise_append.mp hsorted).2.1).1 op' hmem
  constructor
  · exact hlongest
  · rintro ⟨hmem, hprefix, hmax⟩
    cases hfind : operators.find? (·.isPrefixOf cs) with
    | none =>
      have hno := List.find?_eq_none.mp hfind op hmem
      exact absurd (List.isPrefixOf_iff_prefix.mpr hprefix) hno
    | some op' =>
      -- two beginnings of equal length are equal
      obtain ⟨hmem', hprefix', hmax'⟩ := hlongest hfind
      have hlen : op'.length = op.length :=
        Nat.le_antisymm (hmax op' hmem' hprefix') (hmax' op hmem hprefix)
      have heq : op' <+: op := List.prefix_of_prefix_length_le hprefix' hprefix (Nat.le_of_eq hlen)
      rw [heq.eq_of_length hlen]

/-- The rule for operators takes the one that is found. -/
theorem find?_operators_eq (cs : List Char) :
    operators.find? (·.isPrefixOf cs) = (operator? cs).map (·.text) := by
  unfold operator?
  split
  · next hnone => exact hnone
  · next op hsome => exact hsome

/-- The rule for operators takes the longest one. -/
theorem operator?_eq_some_iff {cs text rest : List Char} {kind : TokenKind} :
    (∃ l, operator? cs = some l ∧ l.text = text ∧ l.rest = rest ∧ l.kind = kind) ↔
      operators.find? (·.isPrefixOf cs) = some text ∧ cs = text ++ rest ∧
        kind = .punctuation := by
  unfold operator?
  split
  · next hnone =>
    constructor
    · rintro ⟨l, hl, -⟩
      cases hl
    · rintro ⟨hsome, -⟩
      rw [hnone] at hsome
      cases hsome
  · next op hsome =>
    have hprefix := (find?_operators_iff.mp hsome).2.1
    have hsplit : cs = op ++ cs.drop op.length := List.prefix_iff_eq_append.mp hprefix |>.symm
    constructor
    · rintro ⟨l, hl, rfl, rfl, rfl⟩
      obtain rfl := Option.some.inj hl
      exact ⟨hsome, hsplit, rfl⟩
    · rintro ⟨htext, hcs, rfl⟩
      obtain rfl : op = text := Option.some.inj (hsome.symm.trans htext)
      exact ⟨_, rfl, rfl, List.append_cancel_left (hsplit.symm.trans hcs), rfl⟩

/-! ## All lexemes -/

section Lexeme

variable {pos : Nat} {c : Char} {cs text rest : List Char} {kind : TokenKind}

/-- What the scanning rules take is spelled, and ends there. -/
theorem spells_of_takes_lexeme (h : Takes (lexeme pos c cs) text rest kind) :
    Spells text kind ∧ Ends text rest := by
  unfold lexeme at h
  split at h
  · exact spells_of_takes_number h
  next hnumber =>
  split at h
  · next hquote =>
    obtain ⟨text', value, hbody, rfl, rfl⟩ := takes_string_iff.mp h
    exact ⟨.string hquote (spellsBody_of_takes hquote hbody).1, fun d _ => goesOn_string hquote⟩
  split at h
  · next hpunctuation =>
    obtain ⟨rfl, rfl, rfl⟩ := takes_ok.mp h
    have hmem := List.contains_iff_mem.mp hpunctuation
    exact ⟨.punctuation hmem, (ends_punctuation hmem).mpr (Bool.not_eq_true _ ▸ hnumber)⟩
  split at h
  · next hstart =>
    obtain ⟨rfl, rfl, rfl⟩ := takes_ok.mp h
    exact ⟨.word hstart fun d hd => List.mem_takeWhile_imp hd,
      (ends_word hstart).mpr not_of_mem_head?_dropWhile⟩
  split at h
  · next l hl =>
    obtain ⟨rfl, rfl, rfl⟩ := takes_ok.mp h
    obtain ⟨hfind, hsplit, hkind⟩ := operator?_eq_some_iff.mp ⟨l, hl, rfl, rfl, rfl⟩
    obtain ⟨hmem, -, hmax⟩ := find?_operators_iff.mp hfind
    rw [hkind]
    exact ⟨.operator hmem, (ends_operator hmem).mpr (hsplit ▸ hmax)⟩
  · exact absurd h not_takes_error

/-- A string is taken as it is spelled. -/
theorem takes_string {value : List Char} (hquote : IsQuote c) (h : SpellsBody c text value) :
    Takes (lexeme pos c (text ++ rest)) (c :: text) rest
      (.literal (.string (String.ofList value))) := by
  obtain ⟨hdigit, hpoint, -⟩ := hquote.head
  have hstarts : ¬ starts (c :: (text ++ rest)) = true := by
    simp [starts_eq_false hdigit hpoint]
  rw [lexeme, dif_neg hstarts, if_pos hquote]
  exact takes_string_iff.mpr ⟨text, value, takesBody hquote h _ _ rest, rfl, rfl⟩

/-- A punctuation is taken where it ends. -/
theorem takes_punctuation (h : c ∈ punctuation) (hends : Ends [c] rest) :
    Takes (lexeme pos c rest) [c] rest .punctuation := by
  obtain ⟨-, hquote, -⟩ := punctuation_head h
  have hstarts := (ends_punctuation h).mp hends
  rw [lexeme, dif_neg (Bool.not_eq_true _ ▸ hstarts), if_neg hquote,
    if_pos (List.contains_iff_mem.mpr h)]
  exact takes_ok.mpr ⟨rfl, rfl, rfl⟩

/-- A name is taken up to where it ends. -/
theorem takes_word (hstart : isIdentStart c = true) (hpart : ∀ d ∈ cs, isIdentPart d = true)
    (hends : Ends (c :: cs) rest) :
    Takes (lexeme pos c (cs ++ rest)) (c :: cs) rest (wordKind (c :: cs)) := by
  obtain ⟨hdigit, hpoint, hquote, hpunctuation⟩ := word_head hstart
  have hnext := (ends_word hstart).mp hends
  have hstarts : ¬ starts (c :: (cs ++ rest)) = true := by
    simp [starts_eq_false hdigit hpoint]
  have htake : (cs ++ rest).takeWhile isIdentPart = cs := takeWhile_run hpart hnext
  have hdrop : (cs ++ rest).dropWhile isIdentPart = rest := dropWhile_run hpart hnext
  rw [lexeme, dif_neg hstarts, if_neg hquote, if_neg (by rwa [List.contains_iff_mem]),
    if_pos hstart]
  exact takes_ok.mpr ⟨congrArg (c :: ·) htake, hdrop, congrArg (fun w => wordKind (c :: w)) htake⟩

/-- An operator is taken where it ends. -/
theorem takes_operator (h : c :: cs ∈ operators) (hends : Ends (c :: cs) rest) :
    Takes (lexeme pos c (cs ++ rest)) (c :: cs) rest .punctuation := by
  obtain ⟨c', cs', heq, hdigit, hpoint, hquote, hpunctuation, hstart, -⟩ := operator_head h
  obtain ⟨rfl, rfl⟩ := List.cons.inj heq
  have hstarts : ¬ starts (c :: (cs ++ rest)) = true := by
    simp [starts_eq_false hdigit hpoint]
  have hfind : operators.find? (·.isPrefixOf (c :: (cs ++ rest))) = some (c :: cs) :=
    find?_operators_iff.mpr ⟨h, List.prefix_append _ rest, (ends_operator h).mp hends⟩
  obtain ⟨l, hl, htakes⟩ := operator?_eq_some_iff.mpr ⟨hfind, List.cons_append.symm, rfl⟩
  rw [lexeme, dif_neg hstarts, if_neg hquote, if_neg (by rwa [List.contains_iff_mem]),
    if_neg (by rw [hstart]; exact Bool.false_ne_true), hl]
  exact takes_ok.mpr htakes

/-- **The scanning rules take what is spelled, up to where it ends.** -/
theorem takes_lexeme_iff : Takes (lexeme pos c cs) text rest kind ↔
    c :: cs = text ++ rest ∧ Spells text kind ∧ Ends text rest := by
  constructor
  · exact fun h => ⟨h.split, spells_of_takes_lexeme h⟩
  rintro ⟨hsplit, hspells, hends⟩
  cases hspells with
  | number number =>
    have hstarts : starts (c :: cs) = true := by
      rw [hsplit]
      exact number.starts rest
    rw [lexeme, dif_pos hstarts]
    exact takes_number number hends hsplit hstarts
  | string opening body =>
    obtain ⟨rfl, rfl⟩ := List.cons.inj hsplit
    exact takes_string opening body
  | punctuation mem =>
    obtain ⟨rfl, rfl⟩ := List.cons.inj hsplit
    exact takes_punctuation mem hends
  | word start part =>
    obtain ⟨rfl, rfl⟩ := List.cons.inj hsplit
    exact takes_word start part hends
  | operator mem =>
    obtain ⟨c', cs', rfl, -⟩ := operator_head mem
    obtain ⟨rfl, rfl⟩ := List.cons.inj hsplit
    exact takes_operator mem hends

end Lexeme

end ExprSandbox.Lexer
