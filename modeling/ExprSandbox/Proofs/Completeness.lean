import ExprSandbox.Proofs.Soundness

/-!
# What is derived is read

A phrase is read back as the tree that it derives, whatever comes after it, as long as the next
token does not continue the phrase (`reads_of_derives`, by induction on the derivation with one
theorem for each rule).  For chains and for members, whose rules are left-recursive, what is shown
is that reading the phrase comes down to the loop that goes on behind it.

The limits have to leave room: every level of nesting takes a token of its own, so a phrase needs
no more depth than it has tokens, and no more height than its tree has.
-/

namespace ExprSandbox.Parser

/-! ## What ends a phrase -/

/-- No token goes on with an operand or with a chain of one of the levels. -/
def Ends (levels : List (List Connective)) (rest : List Token) : Prop :=
  ∀ t tail, rest = t :: tail →
    (∀ text ∈ [".", "[", "("], t.isPunctuation text = false) ∧
      ∀ level ∈ levels, connective? level t = none

/-- No token goes on with an expression. -/
def Closes (rest : List Token) : Prop :=
  Ends Connective.levels rest ∧ ∀ t tail, rest = t :: tail → t.isPunctuation "?" = false

/-- Nothing goes on at the end of the tokens. -/
theorem closes_nil : Closes [] := ⟨nofun, nofun⟩

/-- A punctuation ends chains of levels that it is no operator of. -/
theorem ends_cons {levels : List (List Connective)} {t : Token} {text : String}
    (h : t.isPunctuation text = true) (hsteps : text ∉ [".", "[", "("])
    (hlevels : ∀ level ∈ levels, ∀ c ∈ level, text ≠ c.text) (tail : List Token) :
    Ends levels (t :: tail) := by
  intro t' tail' heq
  obtain ⟨rfl, rfl⟩ := List.cons.inj heq
  constructor
  · intro text' hmem
    refine Token.isPunctuation_eq_false h ?_
    rintro rfl
    exact hsteps hmem
  · intro level hlevel
    refine List.find?_eq_none.mpr fun c hc => ?_
    rw [Token.isPunctuation_eq_false h (hlevels level hlevel c hc)]
    exact Bool.false_ne_true

/-- The punctuation that stands behind expressions. -/
def closers : List String := [")", "]", "\x7d", ",", ":", ";"]

/-- What stands behind expressions does not go on with them. -/
theorem closes_cons {t : Token} {text : String} (h : t.isPunctuation text = true)
    (hmem : text ∈ closers) (tail : List Token) : Closes (t :: tail) := by
  have hclosers : ∀ text ∈ closers, text ∉ [".", "[", "("] ∧ text ≠ "?" ∧
      ∀ level ∈ Connective.levels, ∀ c ∈ level, text ≠ c.text := by decide
  obtain ⟨hsteps, hquestion, hlevels⟩ := hclosers text hmem
  refine ⟨ends_cons h hsteps hlevels tail, fun t' tail' heq => ?_⟩
  obtain ⟨rfl, rfl⟩ := List.cons.inj heq
  exact Token.isPunctuation_eq_false h hquestion

/-- The `?` of a conditional goes on with no chain. -/
theorem ends_question {t : Token} (h : t.isPunctuation "?" = true) (tail : List Token) :
    Ends Connective.levels (t :: tail) :=
  ends_cons h (by decide) (by decide) tail

/-! ## Operators -/

/-- An operator of a level goes on with no level below, where all operators are spelled in another
way. -/
theorem ends_connective {level : List Connective} {below : List (List Connective)}
    (hlevels : level :: below <:+ Connective.levels) {c : Connective} (hc : c ∈ level) {t : Token}
    (h : t.isPunctuation c.text = true) (tail : List Token) : Ends below (t :: tail) := by
  have hdistinct : Connective.levels.Pairwise fun level level' =>
      ∀ c ∈ level, ∀ c' ∈ level', c.text ≠ c'.text := by decide
  have hsteps : ∀ level ∈ Connective.levels, ∀ c ∈ level, c.text ∉ [".", "[", "("] := by decide
  have hpairwise := List.pairwise_cons.mp (hdistinct.sublist hlevels.sublist)
  refine ends_cons h (hsteps level (hlevels.mem List.mem_cons_self) c hc) ?_ tail
  exact fun level' hlevel' c' hc' => hpairwise.1 level' hlevel' c hc c' hc'

/-- A token that spells an operator of a level is that operator. -/
theorem connective?_of_mem {level : List Connective} (hlevel : level ∈ Connective.levels)
    {c : Connective} (hc : c ∈ level) {t : Token} (h : t.isPunctuation c.text = true) :
    connective? level t = some c := by
  have hdistinct : ∀ level ∈ Connective.levels, ∀ c ∈ level, ∀ c' ∈ level,
      c.text = c'.text → c = c' := by decide
  cases hfind : connective? level t with
  | none =>
    have hnone := List.find?_eq_none.mp hfind c hc
    exact absurd h hnone
  | some c' =>
    obtain ⟨hmem, htext⟩ := connective?_eq_some hfind
    by_cases heq : c.text = c'.text
    · rw [hdistinct level hlevel c hc c' hmem heq]
    · rw [Token.isPunctuation_eq_false h heq] at htext
      cases htext

/-- A token that spells a unary operator is that operator. -/
theorem unaryOp?_of_text {t : Token} {op : UnaryOp} (h : t.isPunctuation op.text = true) :
    unaryOp? t = some op := by
  rw [Token.isPunctuation, Bool.and_eq_true, decide_eq_true_eq, decide_eq_true_eq] at h
  rw [unaryOp?, if_pos h.1, h.2, UnaryOp.ofText?_text]

/-- The first token of an operand is no unary operator. -/
theorem unaryOp?_of_first {t : Token}
    (h : ∀ text, t.isPunctuation text = true → text ∈ operandFirsts) : unaryOp? t = none := by
  cases hop : unaryOp? t with
  | none => rfl
  | some op =>
    have hmem := h op.text (unaryOp?_eq_some hop)
    revert hmem
    cases op <;> decide

/-- A punctuation that an expression cannot begin with is not its first token. -/
theorem isPunctuation_of_first {t : Token} {texts : List String}
    (h : ∀ text, t.isPunctuation text = true → text ∈ texts) {text : String} (hmem : text ∉ texts) :
    ¬ t.isPunctuation text = true :=
  fun htext => hmem (h text htext)

/-! ## Reading derived phrases -/

section Reads

variable {limits : Limits}

/-- The reader of chains of the given levels, `depth` levels above the deepest nesting. -/
abbrev chainAt (limits : Limits) (depth : Nat) (levels : List (List Connective)) :
    Reader Node :=
  levels.foldr (chain limits)
    (unary limits (nested limits depth .operand) (nested limits depth .expression))

/-- The phrase is read back as its value, before whatever does not continue it.  Where a loop goes
on behind the phrase, reading it comes down to that loop. -/
def Reads (limits : Limits) : (s : Symbol) → List Token → s.Value → Prop
  | .expression, ts, e => ∀ depth rest, ts.length ≤ depth → Closes rest →
      Yields (nested limits depth .expression (ts ++ rest)) (.of e) rest
  | .chain [], ts, e => ∀ depth rest, ts.length ≤ depth + 1 → Ends [] rest →
      Yields (chainAt limits depth [] (ts ++ rest)) (.of e) rest
  | .chain (level :: below), ts, e => ∀ depth rest e' rest', ts.length ≤ depth + 1 →
      level :: below <:+ Connective.levels → Ends below rest →
      Yields (chainRest limits level (chainAt limits depth below) (.of e) rest) e' rest' →
      Yields (chainAt limits depth (level :: below) (ts ++ rest)) e' rest'
  | .unary, ts, e => ∀ depth rest, ts.length ≤ depth + 1 → Ends [] rest →
      Yields (unary limits (nested limits depth .operand) (nested limits depth .expression)
        (ts ++ rest)) (.of e) rest
  | .member, ts, e => ∀ depth rest e' rest', ts.length ≤ depth + 1 →
      Yields (postfixRest limits (nested limits depth .expression) (.of e) rest) e' rest' →
      Yields (postfixed limits (nested limits depth .expression) (ts ++ rest)) e' rest'
  | .primary, ts, e => ∀ depth rest, ts.length ≤ depth + 1 →
      Yields (primary limits (nested limits depth .expression) (ts ++ rest)) (.of e) rest
  | .elements, ts, es => ∀ depth rest c, ts.length ≤ depth → c.isPunctuation "]" = true →
      Yields (elements (nested limits depth .expression) (ts ++ c :: rest)) (.of es) rest
  | .properties, ts, ps => ∀ depth rest c, ts.length ≤ depth → c.isPunctuation "\x7d" = true →
      Yields (properties (nested limits depth .expression) (ts ++ c :: rest)) (.of ps) rest
  | .arguments, ts, args => ∀ depth rest c, ts.length ≤ depth → c.isPunctuation ")" = true →
      Yields (argumentList (nested limits depth .expression) (ts ++ c :: rest)) (.of args) rest

variable {ts us ws : List Token} {t o c d q k n : Token} {e e₁ e₂ l r : Expression}

/-- What follows a phrase in brackets follows the closing one. -/
theorem bracketed_append (o c : Token) (us rest : List Token) :
    o :: (us ++ [c]) ++ rest = o :: (us ++ c :: rest) := by
  rw [List.cons_append, List.append_assoc, List.singleton_append]

/-! ### Chains -/

/-- A chain is read to its end before whatever does not continue it. -/
theorem Reads.chain {levels : List (List Connective)} (h : Reads limits (.chain levels) ts e)
    (hlevels : levels <:+ Connective.levels) (depth : Nat) (rest : List Token)
    (hlen : ts.length ≤ depth + 1) (hends : Ends levels rest) :
    Yields (chainAt limits depth levels (ts ++ rest)) (.of e) rest := by
  cases levels with
  | nil => exact h depth rest hlen hends
  | cons level below =>
    have hbelow : Ends below rest := fun t tail heq =>
      ⟨(hends t tail heq).1, fun level' hmem =>
        (hends t tail heq).2 level' (List.mem_cons_of_mem _ hmem)⟩
    refine h depth rest (.of e) rest hlen hlevels hbelow ?_
    -- no operator of the level follows, so its loop ends here
    cases rest with
    | nil => exact yields_chainRest_nil.mpr ⟨rfl, rfl⟩
    | cons t tail =>
      rw [yields_chainRest_cons, (hends t tail rfl).2 level List.mem_cons_self]
      exact ⟨rfl, rfl⟩

/-- Unary operators stand below the strongest level. -/
theorem reads_base (h : Reads limits .unary ts e) : Reads limits (.chain []) ts e :=
  fun depth rest hlen hends => h depth rest hlen hends

/-- One operand is read as a chain, and the loop of its level goes on behind it. -/
theorem reads_single {level : List Connective} {below : List (List Connective)}
    (h : Reads limits (.chain below) ts e) : Reads limits (.chain (level :: below)) ts e := by
  intro depth rest e' rest' hlen hlevels hends hrest
  have hbelow : below <:+ Connective.levels := (List.suffix_cons level below).trans hlevels
  exact yields_chain.mpr ⟨.of e, rest, h.chain hbelow depth rest hlen hends, hrest⟩

/-- A chain, an operator of its level and one operand more. -/
theorem reads_join {level : List Connective} {below : List (List Connective)} {op : Connective}
    (hleft : Reads limits (.chain (level :: below)) ts l) (hmem : op ∈ level)
    (htext : t.isPunctuation op.text = true) (hright : Reads limits (.chain below) us r)
    (hheight : (op.join l r).height ≤ limits.height) :
    Reads limits (.chain (level :: below)) (ts ++ t :: us) (op.join l r) := by
  intro depth rest e' rest' hlen hlevels hends hrest
  rw [List.length_append, List.length_cons] at hlen
  have hbelow : below <:+ Connective.levels := (List.suffix_cons level below).trans hlevels
  rw [List.append_assoc, List.cons_append]
  -- the operator ends the last operand on the left, and the loop takes it from there
  refine hleft depth _ e' rest' (by omega) hlevels (ends_connective hlevels hmem htext _) ?_
  rw [yields_chainRest_cons, connective?_of_mem (hlevels.mem List.mem_cons_self) hmem htext]
  exact ⟨.of r, rest, hright.chain hbelow depth rest (by omega) hends, hheight, hrest⟩

/-! ### Operands -/

/-- A unary operator is read with its operand, which takes a level of nesting. -/
theorem reads_unary {op : UnaryOp} (htext : t.isPunctuation op.text = true)
    (h : Reads limits .unary ts e) (hne : 0 < ts.length)
    (hheight : (Expression.unary op e).height ≤ limits.height) :
    Reads limits .unary (t :: ts) (.unary op e) := by
  intro depth rest hlen hends
  rw [List.length_cons] at hlen
  rw [List.cons_append, yields_unary_cons, unaryOp?_of_text htext]
  -- the operator is a token more, which pays for the level that its operand takes
  cases depth with
  | zero => omega
  | succ depth => exact ⟨.of e, rest, h depth rest (by omega) hends, hheight, rfl, rfl⟩

/-- An operand that begins with no unary operator is read to its end. -/
theorem reads_operand (h : Reads limits .member ts e) (hbegins : BeginsWith operandFirsts ts) :
    Reads limits .unary ts e := by
  intro depth rest hlen hends
  obtain ⟨t, tail, rfl, hfirst⟩ := hbegins
  rw [List.cons_append, yields_unary_cons, unaryOp?_of_first hfirst]
  refine h depth rest (.of e) rest hlen ?_
  -- no step follows, so the loop of steps ends here
  cases rest with
  | nil => exact yields_postfixRest_nil.mpr ⟨rfl, rfl⟩
  | cons t' tail' =>
    have hsteps := (hends t' tail' rfl).1
    rw [yields_postfixRest_cons, hsteps "." (by decide), hsteps "[" (by decide),
      hsteps "(" (by decide)]
    exact ⟨rfl, rfl⟩

/-- An operand without steps, and the loop of steps goes on behind it. -/
theorem reads_primary (h : Reads limits .primary ts e) : Reads limits .member ts e :=
  fun depth rest _ _ hlen hrest => yields_postfixed.mpr ⟨.of e, rest, h depth rest hlen, hrest⟩

/-- A member under a name. -/
theorem reads_dot (hbase : Reads limits .member ts e) (hdot : d.isPunctuation "." = true)
    (hname : n.isName = true)
    (hheight : (Expression.member e (.identifier n.text) false).height ≤ limits.height) :
    Reads limits .member (ts ++ [d, n]) (.member e (.identifier n.text) false) := by
  intro depth rest e' rest' hlen hrest
  rw [List.length_append] at hlen
  rw [List.append_assoc]
  refine hbase depth _ e' rest' (by omega) ?_
  rw [List.cons_append, yields_postfixRest_cons, if_pos hdot]
  exact ⟨n.text, rest, yields_memberName.mpr ⟨n, rfl, hname, rfl⟩, hheight, hrest⟩

/-- A member under a computed key. -/
theorem reads_index (hbase : Reads limits .member ts e) (hopen : o.isPunctuation "[" = true)
    (hkey : Reads limits .expression us e₁) (hclose : c.isPunctuation "]" = true)
    (hheight : (Expression.member e e₁ true).height ≤ limits.height) (hne : 0 < ts.length) :
    Reads limits .member (ts ++ o :: (us ++ [c])) (.member e e₁ true) := by
  intro depth rest e' rest' hlen hrest
  simp only [List.length_append, List.length_cons] at hlen
  rw [List.append_assoc, bracketed_append]
  refine hbase depth _ e' rest' (by omega) ?_
  rw [yields_postfixRest_cons, if_neg (Token.not_isPunctuation hopen (by decide)), if_pos hopen]
  exact ⟨.of e₁, c :: rest, hkey depth _ (by omega) (closes_cons hclose (by decide) rest), (), rest,
    yields_expect.mpr ⟨c, rfl, hclose⟩, hheight, hrest⟩

/-- A call without arguments. -/
theorem reads_callEmpty (hcallee : Reads limits .member ts e) (hopen : o.isPunctuation "(" = true)
    (hclose : c.isPunctuation ")" = true)
    (hheight : (Expression.call e []).height ≤ limits.height) :
    Reads limits .member (ts ++ [o, c]) (.call e []) := by
  intro depth rest e' rest' hlen hrest
  rw [List.length_append] at hlen
  rw [List.append_assoc]
  refine hcallee depth _ e' rest' (by omega) ?_
  rw [List.cons_append, yields_postfixRest_cons,
    if_neg (Token.not_isPunctuation hopen (by decide)),
    if_neg (Token.not_isPunctuation hopen (by decide)), if_pos hopen]
  refine ⟨.nil, rest, ?_, hheight, hrest⟩
  rw [List.cons_append, yields_arguments_cons, if_pos hclose]
  exact ⟨rfl, rfl⟩

/-- A call with arguments, which begin with no closing parenthesis. -/
theorem reads_call {args : List Expression} (hcallee : Reads limits .member ts e)
    (hopen : o.isPunctuation "(" = true) (harguments : Reads limits .arguments us args)
    (hbegins : BeginsWith expressionFirsts us) (hclose : c.isPunctuation ")" = true)
    (hheight : (Expression.call e args).height ≤ limits.height) (hne : 0 < ts.length) :
    Reads limits .member (ts ++ o :: (us ++ [c])) (.call e args) := by
  intro depth rest e' rest' hlen hrest
  simp only [List.length_append, List.length_cons] at hlen
  rw [List.append_assoc, bracketed_append]
  refine hcallee depth _ e' rest' (by omega) ?_
  rw [yields_postfixRest_cons, if_neg (Token.not_isPunctuation hopen (by decide)),
    if_neg (Token.not_isPunctuation hopen (by decide)), if_pos hopen]
  refine ⟨.of args, rest, ?_, hheight, hrest⟩
  -- arguments are read only where the parenthesis is not closed at once
  obtain ⟨t, tail, rfl, hfirst⟩ := hbegins
  have hargs := harguments depth rest c (by omega) hclose
  rw [List.cons_append] at hargs ⊢
  rw [yields_arguments_cons, if_neg (isPunctuation_of_first hfirst (by decide))]
  exact hargs

/-- Parentheses leave the expression in them as it is. -/
theorem reads_parentheses (hopen : o.isPunctuation "(" = true) (h : Reads limits .expression ts e)
    (hclose : c.isPunctuation ")" = true) : Reads limits .primary (o :: (ts ++ [c])) e := by
  intro depth rest hlen
  simp only [List.length_append, List.length_cons] at hlen
  rw [bracketed_append, yields_primary_cons, if_pos hopen]
  exact ⟨.of e, c :: rest, h depth _ (by omega) (closes_cons hclose (by decide) rest), (), rest,
    yields_expect.mpr ⟨c, rfl, hclose⟩, rfl, rfl⟩

/-- An array. -/
theorem reads_array {es : List (Option Expression)} (hopen : o.isPunctuation "[" = true)
    (h : Reads limits .elements ts es) (hclose : c.isPunctuation "]" = true)
    (hheight : (Expression.array es).height ≤ limits.height) :
    Reads limits .primary (o :: (ts ++ [c])) (.array es) := by
  intro depth rest hlen
  simp only [List.length_append, List.length_cons] at hlen
  rw [bracketed_append, yields_primary_cons, if_neg (Token.not_isPunctuation hopen (by decide)),
    if_pos hopen]
  exact ⟨.of es, rest, h depth rest c (by omega) hclose, hheight, rfl, rfl⟩

/-- An object. -/
theorem reads_object {ps : List (PropertyKey × Expression)} (hopen : o.isPunctuation "\x7b" = true)
    (h : Reads limits .properties ts ps) (hclose : c.isPunctuation "\x7d" = true)
    (hheight : (Expression.object ps).height ≤ limits.height) :
    Reads limits .primary (o :: (ts ++ [c])) (.object ps) := by
  intro depth rest hlen
  simp only [List.length_append, List.length_cons] at hlen
  rw [bracketed_append, yields_primary_cons, if_neg (Token.not_isPunctuation hopen (by decide)),
    if_neg (Token.not_isPunctuation hopen (by decide)), if_pos hopen]
  exact ⟨.of ps, rest, h depth rest c (by omega) hclose, hheight, rfl, rfl⟩

/-- A name. -/
theorem reads_identifier (hkind : t.kind = .identifier) :
    Reads limits .primary [t] (.identifier t.text) := by
  intro depth rest _
  have hne : t.kind ≠ .punctuation := by rw [hkind]; exact nofun
  rw [List.cons_append, yields_primary_of_kind hne, hkind]
  exact ⟨rfl, rfl⟩

/-- A literal. -/
theorem reads_literal {value : Constant} (hkind : t.kind = .literal value) :
    Reads limits .primary [t] (.literal value) := by
  intro depth rest _
  have hne : t.kind ≠ .punctuation := by rw [hkind]; exact nofun
  rw [List.cons_append, yields_primary_of_kind hne, hkind]
  exact ⟨rfl, rfl⟩

/-! ### Expressions -/

/-- A chain that no `?` follows is an expression. -/
theorem reads_plain (h : Reads limits (.chain Connective.levels) ts e) (hne : 0 < ts.length) :
    Reads limits .expression ts e := by
  intro depth rest hlen hcloses
  cases depth with
  | zero => omega
  | succ depth =>
    refine yields_conditional.mpr ⟨.of e, rest,
      h.chain (List.suffix_refl _) depth rest hlen hcloses.1, ?_⟩
    cases rest with
    | nil => exact ⟨rfl, rfl⟩
    | cons t tail =>
      rw [YieldsBranches, hcloses.2 t tail rfl]
      exact ⟨rfl, rfl⟩

/-- A test with the two branches behind it. -/
theorem reads_conditional (h : Reads limits (.chain Connective.levels) ts e)
    (hquestion : q.isPunctuation "?" = true) (h₁ : Reads limits .expression us e₁)
    (hcolon : c.isPunctuation ":" = true) (h₂ : Reads limits .expression ws e₂)
    (hheight : (Expression.conditional e e₁ e₂).height ≤ limits.height) (hne : 0 < ts.length) :
    Reads limits .expression (ts ++ q :: (us ++ c :: ws)) (.conditional e e₁ e₂) := by
  intro depth rest hlen hcloses
  simp only [List.length_append, List.length_cons] at hlen
  have hassoc : ts ++ q :: (us ++ c :: ws) ++ rest = ts ++ q :: (us ++ c :: (ws ++ rest)) := by simp
  rw [hassoc]
  cases depth with
  | zero => omega
  | succ depth =>
    refine yields_conditional.mpr ⟨.of e, q :: (us ++ c :: (ws ++ rest)),
      h.chain (List.suffix_refl _) depth _ (by omega) (ends_question hquestion _), ?_⟩
    rw [YieldsBranches, if_pos hquestion]
    exact ⟨.of e₁, c :: (ws ++ rest), h₁ depth _ (by omega) (closes_cons hcolon (by decide) _), (),
      ws ++ rest, yields_expect.mpr ⟨c, rfl, hcolon⟩, .of e₂, rest,
      h₂ depth rest (by omega) hcloses, hheight, rfl, rfl⟩

/-! ### Insides of brackets -/

/-- An array may be empty. -/
theorem reads_noElements : Reads limits .elements [] [] := by
  intro depth rest c _ hclose
  rw [List.nil_append, yields_elements_cons, if_pos hclose]
  exact ⟨rfl, rfl⟩

/-- A comma that follows no element is a hole. -/
theorem reads_hole {es : List (Option Expression)} (hcomma : t.isPunctuation "," = true)
    (h : Reads limits .elements ts es) : Reads limits .elements (t :: ts) (none :: es) := by
  intro depth rest c hlen hclose
  rw [List.length_cons] at hlen
  rw [List.cons_append, yields_elements_cons, if_neg (Token.not_isPunctuation hcomma (by decide)),
    if_pos hcomma]
  exact ⟨.of es, h depth rest c (by omega) hclose, rfl⟩

/-- The last element stands before the closing bracket. -/
theorem reads_lastElement (h : Reads limits .expression ts e)
    (hbegins : BeginsWith expressionFirsts ts) : Reads limits .elements ts [some e] := by
  intro depth rest c hlen hclose
  have he := h depth (c :: rest) hlen (closes_cons hclose (by decide) rest)
  obtain ⟨t, tail, rfl, hfirst⟩ := hbegins
  rw [List.cons_append] at he ⊢
  rw [yields_elements_cons, if_neg (isPunctuation_of_first hfirst (by decide)),
    if_neg (isPunctuation_of_first hfirst (by decide))]
  refine ⟨.of e, c :: rest, he, c, rest, rfl, ?_⟩
  rw [if_pos hclose]
  exact ⟨rfl, rfl⟩

/-- An element with its comma, and more elements. -/
theorem reads_element {es : List (Option Expression)} (h : Reads limits .expression ts e)
    (hbegins : BeginsWith expressionFirsts ts) (hcomma : t.isPunctuation "," = true)
    (hrest : Reads limits .elements us es) :
    Reads limits .elements (ts ++ t :: us) (some e :: es) := by
  intro depth rest c hlen hclose
  rw [List.length_append, List.length_cons] at hlen
  have he := h depth (t :: (us ++ c :: rest)) (by omega) (closes_cons hcomma (by decide) _)
  have hmore := hrest depth rest c (by omega) hclose
  obtain ⟨s, tail, rfl, hfirst⟩ := hbegins
  rw [List.append_assoc, List.cons_append, List.cons_append]
  rw [List.cons_append] at he
  rw [yields_elements_cons, if_neg (isPunctuation_of_first hfirst (by decide)),
    if_neg (isPunctuation_of_first hfirst (by decide))]
  refine ⟨.of e, t :: (us ++ c :: rest), he, t, us ++ c :: rest, rfl, ?_⟩
  rw [if_neg (Token.not_isPunctuation hcomma (by decide))]
  exact ⟨hcomma, .of es, hmore, rfl⟩

/-- An object may be empty. -/
theorem reads_noProperties : Reads limits .properties [] [] := by
  intro depth rest c _ hclose
  rw [List.nil_append, yields_properties_cons, if_pos hclose]
  exact ⟨rfl, rfl⟩

/-- The last property stands before the closing brace. -/
theorem reads_lastProperty {key : PropertyKey} (hkey : DerivesKey k key)
    (hcolon : o.isPunctuation ":" = true) (h : Reads limits .expression ts e) :
    Reads limits .properties (k :: o :: ts) [(key, e)] := by
  intro depth rest c hlen hclose
  simp only [List.length_cons] at hlen
  rw [List.cons_append, yields_properties_cons, if_neg hkey.not_isPunctuation]
  refine ⟨key, o :: (ts ++ c :: rest), yields_propertyKey.mpr ⟨k, rfl, hkey⟩, (), ts ++ c :: rest,
    yields_expect.mpr ⟨o, rfl, hcolon⟩, .of e, c :: rest,
    h depth _ (by omega) (closes_cons hclose (by decide) rest), c, rest, rfl, ?_⟩
  rw [if_pos hclose]
  exact ⟨rfl, rfl⟩

/-- A property with its comma, and more properties. -/
theorem reads_property {key : PropertyKey} {ps : List (PropertyKey × Expression)}
    (hkey : DerivesKey k key) (hcolon : o.isPunctuation ":" = true)
    (h : Reads limits .expression ts e) (hcomma : t.isPunctuation "," = true)
    (hrest : Reads limits .properties us ps) :
    Reads limits .properties (k :: o :: (ts ++ t :: us)) ((key, e) :: ps) := by
  intro depth rest c hlen hclose
  simp only [List.length_append, List.length_cons] at hlen
  have hassoc : k :: o :: (ts ++ t :: us) ++ c :: rest =
      k :: o :: (ts ++ t :: (us ++ c :: rest)) := by simp
  rw [hassoc, yields_properties_cons, if_neg hkey.not_isPunctuation]
  refine ⟨key, _, yields_propertyKey.mpr ⟨k, rfl, hkey⟩, (), _,
    yields_expect.mpr ⟨o, rfl, hcolon⟩, .of e, t :: (us ++ c :: rest),
    h depth _ (by omega) (closes_cons hcomma (by decide) _), t, us ++ c :: rest, rfl, ?_⟩
  rw [if_neg (Token.not_isPunctuation hcomma (by decide))]
  exact ⟨hcomma, .of ps, hrest depth rest c (by omega) hclose, rfl⟩

/-- The last argument stands before the closing parenthesis. -/
theorem reads_lastArgument (h : Reads limits .expression ts e) :
    Reads limits .arguments ts [e] := by
  intro depth rest c hlen hclose
  rw [yields_argumentList]
  refine ⟨.of e, c :: rest, h depth _ hlen (closes_cons hclose (by decide) rest), c, rest, rfl, ?_⟩
  rw [if_neg (Token.not_isPunctuation hclose (by decide))]
  exact ⟨hclose, rfl, rfl⟩

/-- An argument with its comma, and more arguments. -/
theorem reads_argument {args : List Expression} (h : Reads limits .expression ts e)
    (hcomma : t.isPunctuation "," = true) (hrest : Reads limits .arguments us args) :
    Reads limits .arguments (ts ++ t :: us) (e :: args) := by
  intro depth rest c hlen hclose
  rw [List.length_append, List.length_cons] at hlen
  rw [List.append_assoc, List.cons_append, yields_argumentList]
  refine ⟨.of e, t :: (us ++ c :: rest), h depth _ (by omega) (closes_cons hcomma (by decide) _), t,
    us ++ c :: rest, rfl, ?_⟩
  rw [if_pos hcomma]
  exact ⟨.of args, hrest depth rest c (by omega) hclose, rfl⟩

/-! ### All phrases -/

/-- **A derived phrase is read back**, if the limits leave room for the height of its tree. -/
theorem reads_of_derives {s : Symbol} {ts : List Token} {v : s.Value}
    (h : Derives s ts v) (hheight : s.height v ≤ limits.height) : Reads limits s ts v := by
  induction h with
  | plain test ih => exact reads_plain (ih hheight) (BeginsWith.length_pos test.begins)
  | conditional test question consequent colon alternate ih ih₁ ih₂ =>
    have hle := hheight
    simp only [Symbol.height, Expression.height] at hle ih ih₁ ih₂
    exact reads_conditional (ih (by omega)) question (ih₁ (by omega)) colon (ih₂ (by omega))
      hheight (BeginsWith.length_pos test.begins)
  | base operand ih => exact reads_base (ih hheight)
  | single operand ih => exact reads_single (ih hheight)
  | join left mem operator right ih ih' =>
    have hle := hheight
    simp only [Symbol.height, Connective.height_join] at hle ih ih'
    exact reads_join (ih (by omega)) mem operator (ih' (by omega)) hheight
  | unary operator argument ih =>
    have hle := hheight
    simp only [Symbol.height, Expression.height] at hle ih
    exact reads_unary operator (ih (by omega)) (BeginsWith.length_pos argument.begins) hheight
  | operand operand ih => exact reads_operand (ih hheight) operand.begins
  | primary operand ih => exact reads_primary (ih hheight)
  | dot base dot name ih =>
    have hle := hheight
    simp only [Symbol.height, Expression.height] at hle ih
    exact reads_dot (ih (by omega)) dot name hheight
  | index base opening key closing ih ih' =>
    have hle := hheight
    simp only [Symbol.height, Expression.height] at hle ih ih'
    exact reads_index (ih (by omega)) opening (ih' (by omega)) closing hheight
      (BeginsWith.length_pos base.begins)
  | callEmpty callee opening closing ih =>
    have hle := hheight
    simp only [Symbol.height, Expression.height] at hle ih
    exact reads_callEmpty (ih (by omega)) opening closing hheight
  | call callee opening arguments closing ih ih' =>
    have hle := hheight
    simp only [Symbol.height, Expression.height] at hle ih ih'
    exact reads_call (ih (by omega)) opening (ih' (by omega)) arguments.begins closing hheight
      (BeginsWith.length_pos callee.begins)
  | parentheses opening inner closing ih => exact reads_parentheses opening (ih hheight) closing
  | array opening elements closing ih =>
    exact reads_array opening (ih (Nat.le_of_succ_le hheight)) closing hheight
  | object opening properties closing ih =>
    exact reads_object opening (ih (Nat.le_of_succ_le hheight)) closing hheight
  | identifier kind => exact reads_identifier kind
  | literal kind => exact reads_literal kind
  | noElements => exact reads_noElements
  | hole comma rest ih => exact reads_hole comma (ih hheight)
  | lastElement element ih =>
    simp only [Symbol.height, Expression.elementsHeight] at hheight ih
    exact reads_lastElement (ih (by omega)) element.begins
  | element element comma rest ih ih' =>
    simp only [Symbol.height, Expression.elementsHeight] at hheight ih ih'
    exact reads_element (ih (by omega)) element.begins comma (ih' (by omega))
  | noProperties => exact reads_noProperties
  | lastProperty key colon value ih =>
    simp only [Symbol.height, Expression.propertiesHeight] at hheight ih
    exact reads_lastProperty key colon (ih (by omega))
  | property key colon value comma rest ih ih' =>
    simp only [Symbol.height, Expression.propertiesHeight] at hheight ih ih'
    exact reads_property key colon (ih (by omega)) comma (ih' (by omega))
  | lastArgument argument ih =>
    simp only [Symbol.height, Expression.argumentsHeight] at hheight ih
    exact reads_lastArgument (ih (by omega))
  | argument argument comma rest ih ih' =>
    simp only [Symbol.height, Expression.argumentsHeight] at hheight ih ih'
    exact reads_argument (ih (by omega)) comma (ih' (by omega))

/-! ## Programs -/

/-- Semicolons at the beginning are skipped. -/
theorem skipSemicolons_append {ss : List Token} (h : ∀ t ∈ ss, t.isPunctuation ";" = true)
    (us : List Token) : skipSemicolons (ss ++ us) = skipSemicolons us := by
  induction ss with
  | nil => rfl
  | cons s ss ih =>
    have hskip : skipSemicolons (s :: (ss ++ us)) = skipSemicolons (ss ++ us) :=
      List.dropWhile_cons_of_pos (h s List.mem_cons_self)
    rw [List.cons_append, hskip]
    exact ih fun t ht => h t (List.mem_cons_of_mem s ht)

/-- An expression begins with no semicolon. -/
theorem skipSemicolons_of_begins (h : BeginsWith expressionFirsts ts) (us : List Token) :
    skipSemicolons (ts ++ us) = ts ++ us := by
  obtain ⟨t, tail, rfl, hfirst⟩ := h
  exact List.dropWhile_cons_of_neg (isPunctuation_of_first hfirst (by decide))

/-- What follows an expression in a program does not go on with it. -/
theorem closes_of_derivesRest {p : Program} (h : DerivesRest us p) : Closes us := by
  cases h with
  | done semicolons =>
    cases us with
    | nil => exact closes_nil
    | cons s ss => exact closes_cons (semicolons s List.mem_cons_self) (by decide) ss
  | @more ss ts us e p separated semicolons expression rest =>
    cases ss with
    | nil => exact absurd rfl separated
    | cons s ss => exact closes_cons (semicolons s List.mem_cons_self) (by decide) _

/-- An expression is read back before the rest of a program. -/
theorem yields_expression (h : Derives .expression ts e) (hdepth : ts.length ≤ limits.depth)
    (hheight : ts.length ≤ limits.height) {p : Program} (hrest : DerivesRest us p) :
    Yields (expression limits (ts ++ us)) (.of e) us :=
  reads_of_derives h (Nat.le_trans h.height_le hheight) limits.depth us hdepth
    (closes_of_derivesRest hrest)

/-- The rest of a program is read back. -/
theorem programRest_of_derives {p : Program} (h : DerivesRest us p)
    (hdepth : us.length ≤ limits.depth) (hheight : us.length ≤ limits.height) :
    programRest limits us = .ok p := by
  induction h with
  | @done ss semicolons =>
    cases ss with
    | nil => exact programRest_nil
    | cons s ss =>
      have hskip : skipSemicolons ss = [] := by
        rw [← List.append_nil ss,
          skipSemicolons_append fun t ht => semicolons t (List.mem_cons_of_mem s ht)]
        rfl
      rw [programRest_cons, if_pos hskip]
      exact ⟨semicolons s List.mem_cons_self, rfl⟩
  | @more ss ts us e p separated semicolons expression rest ih =>
    cases ss with
    | nil => exact absurd rfl separated
    | cons s ss =>
      simp only [List.length_append, List.length_cons] at hdepth hheight
      have hskip : skipSemicolons (ss ++ (ts ++ us)) = ts ++ us := by
        rw [skipSemicolons_append fun t ht => semicolons t (List.mem_cons_of_mem s ht)]
        exact skipSemicolons_of_begins expression.begins us
      have hne : ts ++ us ≠ [] := by
        obtain ⟨t, tail, rfl, -⟩ := expression.begins
        exact nofun
      rw [List.cons_append, programRest_cons, hskip, if_neg hne]
      exact ⟨semicolons s List.mem_cons_self, .of e, us,
        yields_expression expression (by omega) (by omega) rest, p, ih (by omega) (by omega), rfl⟩

/-- **What is derived is accepted**, and read back as the program that it derives, if the limits
are no less than the number of the tokens. -/
theorem program_of_derives {p : Program} (h : DerivesProgram ts p)
    (hdepth : ts.length ≤ limits.depth) (hheight : ts.length ≤ limits.height) :
    program limits ts = .ok p := by
  cases h with
  | @program ts us e p expression rest =>
    rw [List.length_append] at hdepth hheight
    exact program_eq_ok.mpr ⟨.of e, us, yields_expression expression (by omega) (by omega) rest, p,
      programRest_of_derives rest (by omega) (by omega), rfl⟩

end Reads

/-- **The parser accepts exactly its grammar, and the tree is unique.**  With limits that are no
less than the number of the tokens, the tokens are read as a program if and only if they derive
it, and they derive no other one. -/
theorem program_eq_ok_iff_derives (limits : Limits) (ts : List Token)
    (hdepth : ts.length ≤ limits.depth) (hheight : ts.length ≤ limits.height) :
    (∀ p, program limits ts = .ok p ↔ DerivesProgram ts p) ∧
      ∀ p p', DerivesProgram ts p → DerivesProgram ts p' → p = p' := by
  refine ⟨fun p => ⟨derives_of_program, fun h => program_of_derives h hdepth hheight⟩, ?_⟩
  intro p p' h h'
  have hok := program_of_derives h hdepth hheight
  rw [program_of_derives h' hdepth hheight] at hok
  exact (Except.ok.inj hok).symm

/-- `a + b * c` is a sum, since `*` binds more strongly. -/
theorem program_sum_of_product :
    program ⟨64, 256⟩ [⟨"a", .identifier, 0⟩, ⟨"+", .punctuation, 2⟩, ⟨"b", .identifier, 4⟩,
        ⟨"*", .punctuation, 6⟩, ⟨"c", .identifier, 8⟩] =
      .ok [.binary .add (.identifier "a") (.binary .mul (.identifier "b") (.identifier "c"))] := by
  have hname : ∀ name pos, Derives (.chain []) [⟨name, .identifier, pos⟩] (.identifier name) :=
    fun _ _ => .base (.operand (.primary (.identifier rfl)))
  have hproduct : Derives (.chain (Connective.levels.drop 5))
      ([⟨"b", .identifier, 4⟩] ++ ⟨"*", .punctuation, 6⟩ :: [⟨"c", .identifier, 8⟩])
      (Connective.join (.binary .mul) (.identifier "b") (.identifier "c")) :=
    .join (.single (hname "b" 4)) (by decide) rfl (hname "c" 8)
  have hsum : Derives (.chain (Connective.levels.drop 4))
      ([⟨"a", .identifier, 0⟩] ++ ⟨"+", .punctuation, 2⟩ :: ([⟨"b", .identifier, 4⟩] ++
        ⟨"*", .punctuation, 6⟩ :: [⟨"c", .identifier, 8⟩]))
      (Connective.join (.binary .add) (.identifier "a") _) :=
    .join (.single (.single (hname "a" 0))) (by decide) rfl hproduct
  refine ((program_eq_ok_iff_derives _ _ (by decide) (by decide)).1 _).mpr ?_
  exact .program (.plain (.single (.single (.single (.single hsum))))) (.done nofun)

end ExprSandbox.Parser
