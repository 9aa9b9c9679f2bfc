import ExprSandbox.Proofs.Grammar

/-!
# Phrases that are begun

Tokens begin a phrase if more tokens can be put behind them so that all together derive something.
There is one lemma for each place in a production at which the tokens may end: a phrase that is
begun there begins the whole phrase, since every bracket, key and branch that is still open can be
closed with a name and the punctuation that is wanted.
-/

namespace ExprSandbox

open ExprSandbox.Parser

/-- The tokens can be gone on with to a phrase of the symbol. -/
def Begun (s : Symbol) (ts : List Token) : Prop :=
  ∃ us v, Derives s (ts ++ us) v

/-- The tokens can be gone on with to what may follow the first expression of a program. -/
def BegunRest (ts : List Token) : Prop :=
  ∃ us p, DerivesRest (ts ++ us) p

/-- The tokens can be gone on with to a program. -/
def BegunProgram (ts : List Token) : Prop :=
  ∃ us p, DerivesProgram (ts ++ us) p

/-! ## Tokens to go on with -/

/-- A name. -/
def someName : Token := ⟨"a", .identifier, 0⟩

/-- A given punctuation. -/
def mark (text : String) : Token := ⟨text, .punctuation, 0⟩

/-- A punctuation is the one that it is made for. -/
theorem isPunctuation_mark (text : String) : (mark text).isPunctuation text = true := by
  simp [Token.isPunctuation, mark]

/-- A name is an operand. -/
theorem derives_someName : Derives .primary [someName] (.identifier "a") :=
  .identifier rfl

/-- A name is a chain of every level. -/
theorem derives_someName_chain (levels : List (List Connective)) :
    Derives (.chain levels) [someName] (.identifier "a") := by
  induction levels with
  | nil => exact .base (.operand (.primary derives_someName))
  | cons level below ih => exact .single ih

/-- A name is an expression. -/
theorem derives_someName_expression : Derives .expression [someName] (.identifier "a") :=
  .plain (derives_someName_chain _)

section Begun

variable {s : Symbol} {ts us : List Token} {t o c d k q : Token} {e : Expression}

/-- A phrase that is there is begun. -/
theorem Derives.begun {v : s.Value} (h : Derives s ts v) : Begun s ts :=
  ⟨[], v, by rwa [List.append_nil]⟩

/-- Every phrase can be begun. -/
theorem begun_nil (s : Symbol) : Begun s [] :=
  match s with
  | .expression => ⟨_, _, derives_someName_expression⟩
  | .chain levels => ⟨_, _, derives_someName_chain levels⟩
  | .unary => ⟨_, _, .operand (.primary derives_someName)⟩
  | .member => ⟨_, _, .primary derives_someName⟩
  | .primary => ⟨_, _, derives_someName⟩
  | .elements => ⟨_, _, .noElements⟩
  | .properties => ⟨_, _, .noProperties⟩
  | .arguments => ⟨_, _, .lastArgument derives_someName_expression⟩

/-! ## Operators -/

/-- The test of an expression. -/
theorem Begun.plain (h : Begun (.chain Connective.levels) ts) : Begun .expression ts := by
  obtain ⟨us, v, h⟩ := h
  exact ⟨us, v, .plain h⟩

/-- A conditional whose first branch is begun. -/
theorem Begun.consequent (h : Begun .expression us)
    (htest : Derives (.chain Connective.levels) ts e) (hquestion : q.isPunctuation "?" = true) :
    Begun .expression (ts ++ q :: us) := by
  obtain ⟨ws, v, h⟩ := h
  have hwhole := Derives.conditional htest hquestion h (isPunctuation_mark ":")
    derives_someName_expression
  exact ⟨ws ++ [mark ":", someName], _, by simpa using hwhole⟩

/-- A conditional whose second branch is begun. -/
theorem Begun.alternate {ws : List Token} {e₁ : Expression} (h : Begun .expression ws)
    (htest : Derives (.chain Connective.levels) ts e) (hquestion : q.isPunctuation "?" = true)
    (hconsequent : Derives .expression us e₁) (hcolon : c.isPunctuation ":" = true) :
    Begun .expression (ts ++ q :: (us ++ c :: ws)) := by
  obtain ⟨xs, v, h⟩ := h
  have hwhole := Derives.conditional htest hquestion hconsequent hcolon h
  exact ⟨xs, _, by simpa using hwhole⟩

/-- The first operand of a chain. -/
theorem Begun.single {level : List Connective} {below : List (List Connective)}
    (h : Begun (.chain below) ts) : Begun (.chain (level :: below)) ts := by
  obtain ⟨us, v, h⟩ := h
  exact ⟨us, v, .single h⟩

/-- One operand more of a chain. -/
theorem Begun.join {level : List Connective} {below : List (List Connective)} {op : Connective}
    (h : Begun (.chain below) us) (hleft : Derives (.chain (level :: below)) ts e)
    (hmem : op ∈ level) (htext : t.isPunctuation op.text = true) :
    Begun (.chain (level :: below)) (ts ++ t :: us) := by
  obtain ⟨ws, v, h⟩ := h
  exact ⟨ws, _, by simpa using Derives.join hleft hmem htext h⟩

/-- A unary operator and its operand below the strongest level. -/
theorem Begun.base (h : Begun .unary ts) : Begun (.chain []) ts := by
  obtain ⟨us, v, h⟩ := h
  exact ⟨us, v, .base h⟩

/-- The operand of a unary operator. -/
theorem Begun.unary {op : UnaryOp} (h : Begun .unary ts) (htext : t.isPunctuation op.text = true) :
    Begun .unary (t :: ts) := by
  obtain ⟨us, v, h⟩ := h
  exact ⟨us, _, .unary htext h⟩

/-- An operand without unary operators. -/
theorem Begun.operand (h : Begun .member ts) : Begun .unary ts := by
  obtain ⟨us, v, h⟩ := h
  exact ⟨us, v, .operand h⟩

/-! ## Members and calls -/

/-- The beginning of an operand. -/
theorem Begun.primary (h : Begun .primary ts) : Begun .member ts := by
  obtain ⟨us, v, h⟩ := h
  exact ⟨us, v, .primary h⟩

/-- A dot, behind which a name is wanted. -/
theorem begun_dot (hbase : Derives .member ts e) (hdot : d.isPunctuation "." = true) :
    Begun .member (ts ++ [d]) :=
  ⟨[someName], _, by simpa using Derives.dot (n := someName) hbase hdot (by decide)⟩

/-- A computed key. -/
theorem Begun.index (h : Begun .expression us) (hbase : Derives .member ts e)
    (hopen : o.isPunctuation "[" = true) : Begun .member (ts ++ o :: us) := by
  obtain ⟨ws, v, h⟩ := h
  have hwhole := Derives.index hbase hopen h (isPunctuation_mark "]")
  exact ⟨ws ++ [mark "]"], _, by simpa using hwhole⟩

/-- The arguments of a call. -/
theorem Begun.call (h : Begun .arguments us) (hcallee : Derives .member ts e)
    (hopen : o.isPunctuation "(" = true) : Begun .member (ts ++ o :: us) := by
  obtain ⟨ws, v, h⟩ := h
  have hwhole := Derives.call hcallee hopen h (isPunctuation_mark ")")
  exact ⟨ws ++ [mark ")"], _, by simpa using hwhole⟩

/-! ## Brackets -/

/-- An expression in parentheses. -/
theorem Begun.parentheses (h : Begun .expression ts) (hopen : o.isPunctuation "(" = true) :
    Begun .primary (o :: ts) := by
  obtain ⟨us, v, h⟩ := h
  have hwhole := Derives.parentheses hopen h (isPunctuation_mark ")")
  exact ⟨us ++ [mark ")"], _, by simpa using hwhole⟩

/-- The elements of an array. -/
theorem Begun.array (h : Begun .elements ts) (hopen : o.isPunctuation "[" = true) :
    Begun .primary (o :: ts) := by
  obtain ⟨us, v, h⟩ := h
  have hwhole := Derives.array hopen h (isPunctuation_mark "]")
  exact ⟨us ++ [mark "]"], _, by simpa using hwhole⟩

/-- The properties of an object. -/
theorem Begun.object (h : Begun .properties ts) (hopen : o.isPunctuation "\x7b" = true) :
    Begun .primary (o :: ts) := by
  obtain ⟨us, v, h⟩ := h
  have hwhole := Derives.object hopen h (isPunctuation_mark "\x7d")
  exact ⟨us ++ [mark "\x7d"], _, by simpa using hwhole⟩

/-- Elements behind a hole. -/
theorem Begun.hole (h : Begun .elements ts) (hcomma : t.isPunctuation "," = true) :
    Begun .elements (t :: ts) := by
  obtain ⟨us, v, h⟩ := h
  exact ⟨us, _, .hole hcomma h⟩

/-- An element. -/
theorem Begun.lastElement (h : Begun .expression ts) : Begun .elements ts := by
  obtain ⟨us, v, h⟩ := h
  exact ⟨us, _, .lastElement h⟩

/-- Elements behind an element. -/
theorem Begun.element (h : Begun .elements us) (helement : Derives .expression ts e)
    (hcomma : t.isPunctuation "," = true) : Begun .elements (ts ++ t :: us) := by
  obtain ⟨ws, v, h⟩ := h
  exact ⟨ws, _, by simpa using Derives.element helement hcomma h⟩

/-- A key, behind which a colon is wanted. -/
theorem begun_key {key : PropertyKey} (hkey : DerivesKey k key) : Begun .properties [k] :=
  ⟨[mark ":", someName], _,
    .lastProperty hkey (isPunctuation_mark ":") derives_someName_expression⟩

/-- The value of a property. -/
theorem Begun.lastProperty {key : PropertyKey} (h : Begun .expression ts) (hkey : DerivesKey k key)
    (hcolon : c.isPunctuation ":" = true) : Begun .properties (k :: c :: ts) := by
  obtain ⟨us, v, h⟩ := h
  exact ⟨us, _, .lastProperty hkey hcolon h⟩

/-- Properties behind a property. -/
theorem Begun.property {key : PropertyKey} (h : Begun .properties us) (hkey : DerivesKey k key)
    (hcolon : c.isPunctuation ":" = true) (hvalue : Derives .expression ts e)
    (hcomma : t.isPunctuation "," = true) : Begun .properties (k :: c :: (ts ++ t :: us)) := by
  obtain ⟨ws, v, h⟩ := h
  exact ⟨ws, _, by simpa using Derives.property hkey hcolon hvalue hcomma h⟩

/-- An argument. -/
theorem Begun.lastArgument (h : Begun .expression ts) : Begun .arguments ts := by
  obtain ⟨us, v, h⟩ := h
  exact ⟨us, _, .lastArgument h⟩

/-- Arguments behind an argument. -/
theorem Begun.argument (h : Begun .arguments us) (hargument : Derives .expression ts e)
    (hcomma : t.isPunctuation "," = true) : Begun .arguments (ts ++ t :: us) := by
  obtain ⟨ws, v, h⟩ := h
  exact ⟨ws, _, by simpa using Derives.argument hargument hcomma h⟩

/-! ## Programs -/

/-- Nothing need follow an expression. -/
theorem derivesRest_nil : DerivesRest [] [] :=
  .done nofun

/-- What follows the first expression can be begun. -/
theorem begunRest_nil : BegunRest [] :=
  ⟨[], [], derivesRest_nil⟩

/-- An expression behind semicolons. -/
theorem Begun.rest (h : Begun .expression us) (hne : ts ≠ [])
    (hsemicolons : ∀ t ∈ ts, t.isPunctuation ";" = true) : BegunRest (ts ++ us) := by
  obtain ⟨ws, v, h⟩ := h
  have hwhole := DerivesRest.more hne hsemicolons h derivesRest_nil
  exact ⟨ws, _, by simpa using hwhole⟩

/-- What follows an expression behind semicolons. -/
theorem BegunRest.more {ss : List Token} (h : BegunRest us) (hne : ss ≠ [])
    (hsemicolons : ∀ t ∈ ss, t.isPunctuation ";" = true) (hexpression : Derives .expression ts e) :
    BegunRest (ss ++ (ts ++ us)) := by
  obtain ⟨ws, p, h⟩ := h
  have hwhole := DerivesRest.more hne hsemicolons hexpression h
  exact ⟨ws, _, by simpa using hwhole⟩

/-- The first expression. -/
theorem Begun.program (h : Begun .expression ts) : BegunProgram ts := by
  obtain ⟨us, v, h⟩ := h
  have hwhole := DerivesProgram.program h derivesRest_nil
  exact ⟨us, _, by simpa using hwhole⟩

/-- What follows the first expression. -/
theorem BegunRest.program (h : BegunRest us) (hexpression : Derives .expression ts e) :
    BegunProgram (ts ++ us) := by
  obtain ⟨ws, p, h⟩ := h
  have hwhole := DerivesProgram.program hexpression h
  exact ⟨ws, _, by simpa using hwhole⟩

end Begun

end ExprSandbox
