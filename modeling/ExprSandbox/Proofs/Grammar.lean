import ExprSandbox.Expression.Parser

/-!
# The grammar of programs

The grammar, apart from any reader: which tokens derive which tree.  `Derives` has one rule for
each production.  Chains of operators are left-recursive, so the rules themselves say that
operators group to the left; a conditional takes whole expressions behind its `?` and its `:`,
and so groups to the right.

Two facts hold along every derivation.  A phrase starts with a token that can start it, which is
never one that ends a phrase (`Derives.begins`), and a tree is no higher than its tokens are
many (`Derives.height_le`).
-/

namespace ExprSandbox

open ExprSandbox.Parser

/-- The operators of each level, the weakest level first. -/
example : Connective.levels.map (List.map Connective.text) =
    [["||"], ["&&"], ["==", "!=", "===", "!=="], ["<", ">", "<=", ">="], ["+", "-"],
      ["*", "/", "%"]] := rfl

/-! ## Symbols -/

/-- What can be derived.  A chain is told by its level and the levels below it. -/
inductive Symbol where
  | expression
  | chain (levels : List (List Connective))
  | unary
  | member
  | primary
  | elements
  | properties
  | arguments

/-- What the phrases of a symbol stand for. -/
abbrev Symbol.Value : Symbol → Type
  | .expression => Expression
  | .chain _ => Expression
  | .unary => Expression
  | .member => Expression
  | .primary => Expression
  | .elements => List (Option Expression)
  | .properties => List (PropertyKey × Expression)
  | .arguments => List Expression

/-- The key that a token is: a name is taken as it is written, and a text or a number by the name
of the member that it addresses. -/
inductive DerivesKey (t : Token) : PropertyKey → Prop
  | name (h : t.isName = true) : DerivesKey t (.identifier t.text)
  | string {s : String} (h : t.isName = false) (value : t.value? = some (.string s)) :
      DerivesKey t (.literal s)
  | number {x : Float} (h : t.isName = false) (value : t.value? = some (.number x)) :
      DerivesKey t (.literal (Number.text x))

/-! ## Derivations -/

/-- The tokens derive the value. -/
inductive Derives : (s : Symbol) → List Token → s.Value → Prop
  /-- An expression without `?`. -/
  | plain {ts : List Token} {e : Expression} (test : Derives (.chain Connective.levels) ts e) :
      Derives .expression ts e
  /-- A test, `?`, an expression, `:` and an expression. -/
  | conditional {ts us ws : List Token} {q c : Token} {e e₁ e₂ : Expression}
      (test : Derives (.chain Connective.levels) ts e) (question : q.isPunctuation "?" = true)
      (consequent : Derives .expression us e₁) (colon : c.isPunctuation ":" = true)
      (alternate : Derives .expression ws e₂) :
      Derives .expression (ts ++ q :: (us ++ c :: ws)) (.conditional e e₁ e₂)
  /-- Below the strongest level stand the unary operators. -/
  | base {ts : List Token} {e : Expression} (operand : Derives .unary ts e) :
      Derives (.chain []) ts e
  /-- A chain of one operand. -/
  | single {level : List Connective} {below : List (List Connective)} {ts : List Token}
      {e : Expression} (operand : Derives (.chain below) ts e) :
      Derives (.chain (level :: below)) ts e
  /-- A chain, an operator of its level and one operand more. -/
  | join {level : List Connective} {below : List (List Connective)} {ts us : List Token} {t : Token}
      {c : Connective} {l r : Expression} (left : Derives (.chain (level :: below)) ts l)
      (mem : c ∈ level) (operator : t.isPunctuation c.text = true)
      (right : Derives (.chain below) us r) :
      Derives (.chain (level :: below)) (ts ++ t :: us) (c.join l r)
  /-- A unary operator and its operand. -/
  | unary {t : Token} {ts : List Token} {op : UnaryOp} {e : Expression}
      (operator : t.isPunctuation op.text = true) (argument : Derives .unary ts e) :
      Derives .unary (t :: ts) (.unary op e)
  /-- An operand without unary operators. -/
  | operand {ts : List Token} {e : Expression} (operand : Derives .member ts e) :
      Derives .unary ts e
  /-- An operand without members and calls. -/
  | primary {ts : List Token} {e : Expression} (operand : Derives .primary ts e) :
      Derives .member ts e
  /-- A member under a name. -/
  | dot {ts : List Token} {d n : Token} {e : Expression} (base : Derives .member ts e)
      (dot : d.isPunctuation "." = true) (name : n.isName = true) :
      Derives .member (ts ++ [d, n]) (.member e (.identifier n.text) false)
  /-- A member under a computed key. -/
  | index {ts us : List Token} {o c : Token} {e k : Expression} (base : Derives .member ts e)
      (opening : o.isPunctuation "[" = true) (key : Derives .expression us k)
      (closing : c.isPunctuation "]" = true) :
      Derives .member (ts ++ o :: (us ++ [c])) (.member e k true)
  /-- A call without arguments. -/
  | callEmpty {ts : List Token} {o c : Token} {e : Expression} (callee : Derives .member ts e)
      (opening : o.isPunctuation "(" = true) (closing : c.isPunctuation ")" = true) :
      Derives .member (ts ++ [o, c]) (.call e [])
  /-- A call with arguments. -/
  | call {ts us : List Token} {o c : Token} {e : Expression} {args : List Expression}
      (callee : Derives .member ts e) (opening : o.isPunctuation "(" = true)
      (arguments : Derives .arguments us args) (closing : c.isPunctuation ")" = true) :
      Derives .member (ts ++ o :: (us ++ [c])) (.call e args)
  /-- An expression in parentheses. -/
  | parentheses {ts : List Token} {o c : Token} {e : Expression}
      (opening : o.isPunctuation "(" = true) (inner : Derives .expression ts e)
      (closing : c.isPunctuation ")" = true) : Derives .primary (o :: (ts ++ [c])) e
  /-- An array. -/
  | array {ts : List Token} {o c : Token} {es : List (Option Expression)}
      (opening : o.isPunctuation "[" = true) (elements : Derives .elements ts es)
      (closing : c.isPunctuation "]" = true) : Derives .primary (o :: (ts ++ [c])) (.array es)
  /-- An object. -/
  | object {ts : List Token} {o c : Token} {ps : List (PropertyKey × Expression)}
      (opening : o.isPunctuation "\x7b" = true) (properties : Derives .properties ts ps)
      (closing : c.isPunctuation "\x7d" = true) : Derives .primary (o :: (ts ++ [c])) (.object ps)
  /-- A name. -/
  | identifier {t : Token} (kind : t.kind = .identifier) : Derives .primary [t] (.identifier t.text)
  /-- A literal. -/
  | literal {t : Token} {value : Constant} (kind : t.kind = .literal value) :
      Derives .primary [t] (.literal value)
  /-- No elements. -/
  | noElements : Derives .elements [] []
  /-- A comma that follows no element leaves a hole. -/
  | hole {t : Token} {ts : List Token} {es : List (Option Expression)}
      (comma : t.isPunctuation "," = true) (rest : Derives .elements ts es) :
      Derives .elements (t :: ts) (none :: es)
  /-- The last element, without a comma. -/
  | lastElement {ts : List Token} {e : Expression} (element : Derives .expression ts e) :
      Derives .elements ts [some e]
  /-- An element and the comma after it. -/
  | element {ts us : List Token} {t : Token} {e : Expression} {es : List (Option Expression)}
      (element : Derives .expression ts e) (comma : t.isPunctuation "," = true)
      (rest : Derives .elements us es) : Derives .elements (ts ++ t :: us) (some e :: es)
  /-- No properties. -/
  | noProperties : Derives .properties [] []
  /-- The last property, without a comma. -/
  | lastProperty {ts : List Token} {k c : Token} {name : PropertyKey} {e : Expression}
      (key : DerivesKey k name) (colon : c.isPunctuation ":" = true)
      (value : Derives .expression ts e) : Derives .properties (k :: c :: ts) [(name, e)]
  /-- A property and the comma after it. -/
  | property {ts us : List Token} {k c t : Token} {name : PropertyKey} {e : Expression}
      {ps : List (PropertyKey × Expression)} (key : DerivesKey k name)
      (colon : c.isPunctuation ":" = true) (value : Derives .expression ts e)
      (comma : t.isPunctuation "," = true) (rest : Derives .properties us ps) :
      Derives .properties (k :: c :: (ts ++ t :: us)) ((name, e) :: ps)
  /-- The last argument, without a comma. -/
  | lastArgument {ts : List Token} {e : Expression} (argument : Derives .expression ts e) :
      Derives .arguments ts [e]
  /-- An argument, a comma and more arguments. -/
  | argument {ts us : List Token} {t : Token} {e : Expression} {args : List Expression}
      (argument : Derives .expression ts e) (comma : t.isPunctuation "," = true)
      (rest : Derives .arguments us args) : Derives .arguments (ts ++ t :: us) (e :: args)

/-- What follows the first expression of a program: semicolons before each further expression,
and any number of them at the end. -/
inductive DerivesRest : List Token → Program → Prop
  | done {ss : List Token} (semicolons : ∀ t ∈ ss, t.isPunctuation ";" = true) : DerivesRest ss []
  | more {ss ts us : List Token} {e : Expression} {p : Program} (separated : ss ≠ [])
      (semicolons : ∀ t ∈ ss, t.isPunctuation ";" = true) (expression : Derives .expression ts e)
      (rest : DerivesRest us p) : DerivesRest (ss ++ (ts ++ us)) (e :: p)

/-- The tokens derive the program. -/
inductive DerivesProgram : List Token → Program → Prop
  | program {ts us : List Token} {e : Expression} {p : Program}
      (expression : Derives .expression ts e) (rest : DerivesRest us p) :
      DerivesProgram (ts ++ us) (e :: p)

/-! ## First tokens -/

/-- A punctuation has the text it is asked for, and no other. -/
theorem Token.isPunctuation_eq_false {t : Token} {a b : String} (h : t.isPunctuation a = true)
    (hne : a ≠ b) : t.isPunctuation b = false := by
  unfold isPunctuation at h ⊢
  rw [Bool.and_eq_true, decide_eq_true_eq, decide_eq_true_eq] at h
  rw [h.2, decide_eq_false hne, Bool.and_false]

/-- A punctuation is no other one. -/
theorem Token.not_isPunctuation {t : Token} {a b : String} (h : t.isPunctuation a = true)
    (hne : a ≠ b) : ¬ t.isPunctuation b = true := by
  rw [isPunctuation_eq_false h hne]
  exact Bool.false_ne_true

/-- A name or a literal is no punctuation. -/
theorem Token.not_isPunctuation_of_kind {t : Token} (h : t.kind ≠ .punctuation) (text : String) :
    ¬ t.isPunctuation text = true := by
  rw [isPunctuation, decide_eq_false h, Bool.false_and]
  exact Bool.false_ne_true

/-- The key of a property is no brace. -/
theorem DerivesKey.not_isPunctuation {t : Token} {key : PropertyKey} (h : DerivesKey t key) :
    ¬ t.isPunctuation "\x7d" = true := by
  intro hclose
  rw [Token.isPunctuation, Bool.and_eq_true, decide_eq_true_eq, decide_eq_true_eq] at hclose
  obtain ⟨hkind, htext⟩ := hclose
  cases h with
  | name h =>
    rw [Token.isName, Token.isIdentifier, hkind, htext] at h
    revert h
    decide
  | string _ value =>
    rw [Token.value?, hkind] at value
    cases value
  | number _ value =>
    rw [Token.value?, hkind] at value
    cases value

/-- The first token, if it is punctuation at all, is one of these. -/
def BeginsWith (texts : List String) (ts : List Token) : Prop :=
  ∃ t tail, ts = t :: tail ∧ ∀ text, t.isPunctuation text = true → text ∈ texts

namespace BeginsWith

variable {texts texts' : List String} {ts : List Token}

/-- Whatever begins with a token is not empty. -/
theorem length_pos (h : BeginsWith texts ts) : 0 < ts.length := by
  obtain ⟨t, tail, rfl, -⟩ := h
  exact Nat.succ_pos _

/-- More tokens behind a phrase do not change its beginning. -/
theorem append (h : BeginsWith texts ts) (us : List Token) : BeginsWith texts (ts ++ us) := by
  obtain ⟨t, tail, rfl, hfirst⟩ := h
  exact ⟨t, tail ++ us, rfl, hfirst⟩

/-- The beginning may be told less exactly. -/
theorem mono (h : BeginsWith texts ts) (hsub : texts ⊆ texts') : BeginsWith texts' ts := by
  obtain ⟨t, tail, rfl, hfirst⟩ := h
  exact ⟨t, tail, rfl, fun text htext => hsub (hfirst text htext)⟩

/-- A phrase that begins with a given punctuation. -/
theorem cons {t : Token} {text : String} (h : t.isPunctuation text = true) (hmem : text ∈ texts)
    (tail : List Token) : BeginsWith texts (t :: tail) := by
  refine ⟨t, tail, rfl, fun text' h' => ?_⟩
  by_cases heq : text = text'
  · exact heq ▸ hmem
  · exact absurd h' (Token.not_isPunctuation h heq)

/-- A phrase that begins with a token that is no punctuation. -/
theorem of_kind {t : Token} (h : t.kind ≠ .punctuation) (tail : List Token) :
    BeginsWith texts (t :: tail) := by
  exact ⟨t, tail, rfl, fun text htext => absurd htext (Token.not_isPunctuation_of_kind h text)⟩

end BeginsWith

/-- What an operand without unary operators begins with, besides names and literals. -/
def operandFirsts : List String := ["(", "[", "\x7b"]

/-- What an expression begins with, besides names and literals. -/
def expressionFirsts : List String := ["(", "[", "\x7b", "+", "-", "!"]

/-- How the phrases of a symbol begin; the inside of brackets may be empty. -/
def Symbol.Begins : Symbol → List Token → Prop
  | .member, ts => BeginsWith operandFirsts ts
  | .primary, ts => BeginsWith operandFirsts ts
  | .elements, _ => True
  | .properties, _ => True
  | _, ts => BeginsWith expressionFirsts ts

/-- **A phrase begins with a token that can begin it.** -/
theorem Derives.begins {s : Symbol} {ts : List Token} {v : s.Value} (h : Derives s ts v) :
    s.Begins ts := by
  induction h with
  | plain test ih => exact ih
  | conditional test question consequent colon alternate ih => exact ih.append _
  | base operand ih => exact ih
  | single operand ih => exact ih
  | join left mem operator right ih => exact ih.append _
  | @unary t ts op e operator argument ih =>
    refine BeginsWith.cons operator ?_ ts
    cases op <;> decide
  | operand operand ih => exact BeginsWith.mono ih (by decide)
  | primary operand ih => exact ih
  | dot base dot name ih => exact BeginsWith.append ih _
  | index base opening key closing ih => exact BeginsWith.append ih _
  | callEmpty callee opening closing ih => exact BeginsWith.append ih _
  | call callee opening arguments closing ih => exact BeginsWith.append ih _
  | parentheses opening => exact BeginsWith.cons opening (by decide) _
  | array opening => exact BeginsWith.cons opening (by decide) _
  | object opening => exact BeginsWith.cons opening (by decide) _
  | identifier kind => exact BeginsWith.of_kind (by rw [kind]; exact nofun) _
  | literal kind => exact BeginsWith.of_kind (by rw [kind]; exact nofun) _
  | lastArgument argument ih => exact ih
  | argument argument comma rest ih => exact BeginsWith.append ih _
  -- nothing is said of how the inside of an array or an object begins
  | _ => trivial

/-! ## Heights -/

/-- The height of what a phrase stands for. -/
abbrev Symbol.height : (s : Symbol) → s.Value → Nat
  | .expression => Expression.height
  | .chain _ => Expression.height
  | .unary => Expression.height
  | .member => Expression.height
  | .primary => Expression.height
  | .elements => Expression.elementsHeight
  | .properties => Expression.propertiesHeight
  | .arguments => Expression.argumentsHeight

/-- **A tree is no higher than its tokens are many**: every node has a token of its own. -/
theorem Derives.height_le {s : Symbol} {ts : List Token} {v : s.Value} (h : Derives s ts v) :
    s.height v ≤ ts.length := by
  induction h with
  | plain test ih => exact ih
  | base operand ih => exact ih
  | single operand ih => exact ih
  | operand operand ih => exact ih
  | primary operand ih => exact ih
  | join left mem operator right ih ih' =>
    simp only [Symbol.height, Connective.height_join, List.length_append, List.length_cons]
      at ih ih' ⊢
    omega
  -- parentheses take tokens and leave no node
  | parentheses opening inner closing ih =>
    simp only [Symbol.height, List.length_append, List.length_cons] at ih ⊢
    omega
  | identifier kind => exact Nat.le_refl 1
  | literal kind => exact Nat.le_refl 1
  | _ =>
    simp only [Symbol.height, Expression.height, Expression.elementsHeight,
      Expression.propertiesHeight, Expression.argumentsHeight, List.length_append,
      List.length_cons, List.length_nil] at *
    omega

end ExprSandbox
