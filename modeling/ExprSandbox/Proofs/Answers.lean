import ExprSandbox.Proofs.Readers

/-!
# What readers answer

The answer of a reader is the value and the tokens that are left, or the error.  It is free of the
bound on what is left, so that the answers of one reader to different tokens can be compared.

There is one equation for each reader, which gives its answer in terms of those of the readers
that it is made of.  Unlike the equivalences for what readers yield, the equations tell the errors
apart.
-/

namespace ExprSandbox.Parser

/-- A value and the tokens that are left, or an error. -/
abbrev Answer (α : Type) :=
  Except ParseError (α × List Token)

/-- Goes on from a value and the tokens that are left behind it. -/
def Answer.andThen {α β : Type} (x : Answer α) (k : α → List Token → Answer β) : Answer β :=
  match x with
  | .error e => .error e
  | .ok (v, rest) => k v rest

/-- What a reading comes to, without the bound on what is left. -/
def answer {α : Type} {n : Nat} (x : Except ParseError (Parsed α n)) : Answer α :=
  x.map fun p => (p.value, p.rest)

/-- Goes on only if the tree that is made is not too high. -/
def unlessHigh {α : Type} (limits : Limits) (tree : Expression) (x : Answer α) : Answer α :=
  if limits.height < tree.height then .error (.tooDeep limits.height) else x

/-! ## Steps of readers -/

section Steps

variable {α β : Type} {m n : Nat}

/-- The answer of a reading that succeeds. -/
theorem answer_ok (p : Parsed α n) : answer (.ok p) = .ok (p.value, p.rest) := rfl

/-- A reading yields what its answer is. -/
theorem answer_eq_ok {x : Except ParseError (Parsed α n)} {v : α} {rest : List Token} :
    answer x = .ok (v, rest) ↔ Yields x v rest := by
  cases x with
  | error e =>
    constructor
    · exact nofun
    · intro h
      exact absurd h not_yields_error
  | ok p =>
    rw [answer_ok, yields_ok]
    constructor
    · intro h
      obtain ⟨rfl, rfl⟩ := Prod.mk.inj (Except.ok.inj h)
      exact ⟨rfl, rfl⟩
    · rintro ⟨rfl, rfl⟩
      rfl

/-- The answer of a reading that goes on from another one. -/
theorem answer_then {x : Except ParseError (Parsed β m)}
    {k : Parsed β m → Except ParseError (Parsed α n)} {K : β → List Token → Answer α}
    (hk : ∀ p, answer (k p) = K p.value p.rest) :
    answer (x >>= k) = (answer x).andThen K := by
  cases x with
  | error e => rfl
  | ok p => exact hk p

/-- The answer of a reading of which only the bound on what is left is changed. -/
theorem answer_weaken {x : Except ParseError (Parsed α m)} {h : m ≤ n} :
    answer (x >>= fun p => .ok (p.weaken h)) = answer x := by
  cases x with
  | error e => rfl
  | ok p => rfl

/-- The answer of a reading that makes a node. -/
theorem answer_node {limits : Limits} {tree : Expression} {children : Nat}
    {htree : children + 1 = tree.height} {k : Node → Except ParseError (Parsed α n)} :
    answer (node limits tree children htree >>= k) =
      unlessHigh limits tree (answer (k (.of tree))) := by
  rw [← Measured.eq_of tree _ htree]
  unfold node unlessHigh
  rw [← htree]
  split
  · rfl
  · rfl

/-- The answer of a reading that depends on a test. -/
theorem answer_ite {c : Prop} [Decidable c] {x y : Except ParseError (Parsed α n)} {a b : Answer α}
    (hx : answer x = a) (hy : answer y = b) : answer (if c then x else y) = if c then a else b := by
  rw [← hx, ← hy]
  exact apply_ite answer c x y

end Steps

section Readers

variable {limits : Limits} {t : Token} {tail ts : List Token} {level : List Connective}
variable {operand inner : Reader Node} {left base : Node}

/-- A punctuation that is asked for. -/
theorem answer_expect (text : String) (t : Token) (tail : List Token) :
    answer (expect text (t :: tail)) =
      if t.isPunctuation text then .ok ((), tail)
      else .error (.expected text (found (t :: tail))) := by
  rw [expect]
  exact answer_ite rfl rfl

/-! ## Chains -/

/-- What follows an operand in a chain, when there is nothing. -/
theorem answer_chainRest_nil :
    answer (chainRest limits level operand left []) = .ok (left, []) := by
  rw [chainRest]
  rfl

/-- What follows an operand in a chain. -/
theorem answer_chainRest_cons : answer (chainRest limits level operand left (t :: tail)) =
    match connective? level t with
    | none => .ok (left, t :: tail)
    | some c => (answer (operand tail)).andThen fun r mid =>
        unlessHigh limits (c.join left.tree r.tree)
          (answer (chainRest limits level operand (.of (c.join left.tree r.tree)) mid)) := by
  rw [chainRest]
  cases connective? level t with
  | none => rfl
  | some c => exact answer_then fun p => answer_node.trans (congrArg _ answer_weaken)

/-- A chain is an operand and what follows it. -/
theorem answer_chain : answer (chain limits level operand ts) =
    (answer (operand ts)).andThen fun l mid => answer (chainRest limits level operand l mid) := by
  rw [chain]
  exact answer_then fun p => answer_weaken

/-! ## Insides of brackets -/

/-- What follows an element of an array. -/
def afterElement (inner : Reader Node) (e : Node) : List Token → Answer Elements
  | [] => .error (.expected "," none)
  | t :: tail =>
    if t.isPunctuation "]" then .ok (.cons e .nil, tail)
    else if t.isPunctuation "," then
      (answer (elements inner tail)).andThen fun es rest => .ok (.cons e es, rest)
    else .error (.expected "," (found (t :: tail)))

/-- An element of an array and what follows it. -/
def fromElement (inner : Reader Node) (ts : List Token) : Answer Elements :=
  (answer (inner ts)).andThen (afterElement inner)

/-- Elements need a token: without one the reading of an expression fails. -/
theorem answer_elements_nil : answer (elements inner []) = fromElement inner [] := by
  rw [elements]
  exact answer_then fun p => absurd p.rest_lt (Nat.not_lt_zero _)

/-- The elements of an array. -/
theorem answer_elements_cons : answer (elements inner (t :: tail)) =
    if t.isPunctuation "]" then .ok (.nil, tail)
    else if t.isPunctuation "," then
      (answer (elements inner tail)).andThen fun es rest => .ok (.hole es, rest)
    else fromElement inner (t :: tail) := by
  rw [elements]
  refine answer_ite rfl (answer_ite (answer_then fun p => rfl) (answer_then fun p => ?_))
  split
  · next hrest =>
    rw [hrest]
    rfl
  · next s tail' hrest =>
    refine Eq.trans ?_ (congrArg (afterElement inner p.value) hrest.symm)
    exact answer_ite rfl (answer_ite (answer_then fun q => rfl) rfl)

/-- The key that a literal token is. -/
def literalKey? (t : Token) : Option PropertyKey :=
  match t.value? with
  | some (.string s) => some (.literal s)
  | some (.number x) => some (.literal (Number.text x))
  | _ => none

/-- The key of a property. -/
theorem answer_propertyKey (t : Token) (tail : List Token) :
    answer (propertyKey (t :: tail)) =
      if t.isName then .ok (.identifier t.text, tail)
      else match literalKey? t with
        | some key => .ok (key, tail)
        | none => .error (.expected "property key" (found (t :: tail))) := by
  rw [propertyKey, literalKey?]
  refine answer_ite rfl ?_
  cases t.value? with
  | none => rfl
  | some value => cases value <;> rfl

/-- What follows the value of a property. -/
def afterProperty (inner : Reader Node) (key : PropertyKey) (e : Node) :
    List Token → Answer Properties
  | [] => .error (.expected "," none)
  | t :: tail =>
    if t.isPunctuation "\x7d" then .ok (.cons key e .nil, tail)
    else if t.isPunctuation "," then
      (answer (properties inner tail)).andThen fun ps rest => .ok (.cons key e ps, rest)
    else .error (.expected "," (found (t :: tail)))

/-- A property of an object and what follows it. -/
def fromProperty (inner : Reader Node) (ts : List Token) : Answer Properties :=
  (answer (propertyKey ts)).andThen fun key mid =>
    (answer (expect ":" mid)).andThen fun _ mid =>
      (answer (inner mid)).andThen (afterProperty inner key)

/-- The properties of an object need a token. -/
theorem answer_properties_nil :
    answer (properties inner []) = .error (.expected "property key" none) := by
  rw [properties]
  rfl

/-- The properties of an object. -/
theorem answer_properties_cons : answer (properties inner (t :: tail)) =
    if t.isPunctuation "\x7d" then .ok (.nil, tail)
    else fromProperty inner (t :: tail) := by
  rw [properties]
  refine answer_ite rfl (answer_then fun key => answer_then fun colon => answer_then fun p => ?_)
  split
  · next hrest =>
    rw [hrest]
    rfl
  · next s tail' hrest =>
    refine Eq.trans ?_ (congrArg (afterProperty inner key.value p.value) hrest.symm)
    exact answer_ite rfl (answer_ite (answer_then fun q => rfl) rfl)

/-- What follows an argument. -/
def afterArgument (inner : Reader Node) (e : Node) : List Token → Answer Arguments
  | [] => .error (.expected ")" none)
  | t :: tail =>
    if t.isPunctuation "," then
      (answer (argumentList inner tail)).andThen fun args rest => .ok (.cons e args, rest)
    else if t.isPunctuation ")" then .ok (.cons e .nil, tail)
    else .error (.expected ")" (found (t :: tail)))

/-- One or more arguments. -/
theorem answer_argumentList : answer (argumentList inner ts) =
    (answer (inner ts)).andThen (afterArgument inner) := by
  rw [argumentList]
  refine answer_then fun p => ?_
  split
  · next hrest =>
    rw [hrest]
    rfl
  · next s tail' hrest =>
    refine Eq.trans ?_ (congrArg (afterArgument inner p.value) hrest.symm)
    exact answer_ite (answer_then fun q => rfl) (answer_ite rfl rfl)

/-- The arguments of a call. -/
theorem answer_arguments_cons : answer (arguments inner (t :: tail)) =
    if t.isPunctuation ")" then .ok (.nil, tail)
    else answer (argumentList inner (t :: tail)) := by
  rw [arguments]
  exact answer_ite rfl rfl

/-! ## Operands -/

/-- The name after a dot. -/
theorem answer_memberName (t : Token) (tail : List Token) : answer (memberName (t :: tail)) =
    if t.isName then .ok (t.text, tail)
    else .error (.expected "identifier" (found (t :: tail))) := by
  rw [memberName]
  exact answer_ite rfl rfl

/-- An operand of one token, unless the token is a punctuation. -/
def leaf (t : Token) (tail : List Token) : Answer Node :=
  match t.kind with
  | .identifier => .ok (.of (.identifier t.text), tail)
  | .literal value => .ok (.of (.literal value), tail)
  | .punctuation => .error (.unexpectedToken ⟨t.text, t.pos⟩)

/-- What stands at the beginning of an operand. -/
theorem answer_primary_cons : answer (primary limits inner (t :: tail)) =
    if t.isPunctuation "(" then
      (answer (inner tail)).andThen fun e mid =>
        (answer (expect ")" mid)).andThen fun _ rest => .ok (e, rest)
    else if t.isPunctuation "[" then
      (answer (elements inner tail)).andThen fun es rest =>
        unlessHigh limits (.array es.tree) (.ok (.of (.array es.tree), rest))
    else if t.isPunctuation "\x7b" then
      (answer (properties inner tail)).andThen fun ps rest =>
        unlessHigh limits (.object ps.tree) (.ok (.of (.object ps.tree), rest))
    else leaf t tail := by
  rw [primary]
  refine answer_ite (answer_then fun p => answer_then fun close => rfl)
    (answer_ite (answer_then fun es => answer_node)
      (answer_ite (answer_then fun ps => answer_node) ?_))
  unfold leaf
  cases t.kind with
  | identifier => rfl
  | literal value => rfl
  | punctuation => rfl

/-- What follows an operand, when there is nothing. -/
theorem answer_postfixRest_nil : answer (postfixRest limits inner base []) = .ok (base, []) := by
  rw [postfixRest]
  rfl

/-- The members and calls that follow an operand. -/
theorem answer_postfixRest_cons : answer (postfixRest limits inner base (t :: tail)) =
    if t.isPunctuation "." then
      (answer (memberName tail)).andThen fun name mid =>
        unlessHigh limits (.member base.tree (.identifier name) false)
          (answer
            (postfixRest limits inner (.of (.member base.tree (.identifier name) false)) mid))
    else if t.isPunctuation "[" then
      (answer (inner tail)).andThen fun key mid => (answer (expect "]" mid)).andThen fun _ mid =>
        unlessHigh limits (.member base.tree key.tree true)
          (answer (postfixRest limits inner (.of (.member base.tree key.tree true)) mid))
    else if t.isPunctuation "(" then
      (answer (arguments inner tail)).andThen fun args mid =>
        unlessHigh limits (.call base.tree args.tree)
          (answer (postfixRest limits inner (.of (.call base.tree args.tree)) mid))
    else .ok (base, t :: tail) := by
  rw [postfixRest]
  exact answer_ite (answer_then fun name => answer_node.trans (congrArg _ answer_weaken))
    (answer_ite (answer_then fun key => answer_then fun close =>
        answer_node.trans (congrArg _ answer_weaken))
      (answer_ite (answer_then fun args => answer_node.trans (congrArg _ answer_weaken)) rfl))

/-- An operand with its members and calls. -/
theorem answer_postfixed : answer (postfixed limits inner ts) =
    (answer (primary limits inner ts)).andThen fun base mid =>
      answer (postfixRest limits inner base mid) := by
  rw [postfixed]
  exact answer_then fun p => answer_weaken

/-- A unary operator with its operand, or an operand without one. -/
theorem answer_unary_cons : answer (unary limits operand inner (t :: tail)) =
    match unaryOp? t with
    | none => answer (postfixed limits inner (t :: tail))
    | some op => (answer (operand tail)).andThen fun a rest =>
        unlessHigh limits (.unary op a.tree) (.ok (.of (.unary op a.tree), rest)) := by
  rw [unary]
  cases unaryOp? t with
  | none => rfl
  | some op => exact answer_then fun p => answer_node

/-! ## Expressions -/

/-- What follows the test of an expression. -/
def afterTest (limits : Limits) (inner : Reader Node) (test : Node) : List Token → Answer Node
  | [] => .ok (test, [])
  | t :: tail =>
    if t.isPunctuation "?" then
      (answer (inner tail)).andThen fun e₁ mid => (answer (expect ":" mid)).andThen fun _ mid =>
        (answer (inner mid)).andThen fun e₂ rest =>
          unlessHigh limits (.conditional test.tree e₁.tree e₂.tree)
            (.ok (.of (.conditional test.tree e₁.tree e₂.tree), rest))
    else .ok (test, t :: tail)

/-- A chain of the weakest level, and what follows it. -/
theorem answer_conditional : answer (conditional limits operand inner ts) =
    (answer (Connective.levels.foldr (chain limits) (unary limits operand inner) ts)).andThen
      (afterTest limits inner) := by
  rw [conditional]
  refine answer_then fun test => ?_
  let stay : List Token → Answer Node := fun rest => .ok (test.value, rest)
  split
  · next hrest =>
    rw [hrest]
    exact congrArg stay hrest
  · next t tail hrest =>
    refine Eq.trans ?_ (congrArg (afterTest limits inner test.value) hrest.symm)
    refine answer_ite (answer_then fun e₁ => answer_then fun colon => answer_then fun e₂ =>
      answer_node) ?_
    exact congrArg stay hrest

/-! ## Programs -/

/-- The answer of a program takes all tokens. -/
def whole (x : Except ParseError Program) : Answer Program :=
  x.map fun p => (p, [])

/-- The answer of a program behind an expression. -/
theorem whole_cons (e : Expression) (x : Except ParseError Program) :
    whole (x >>= fun more => .ok (e :: more)) =
      (whole x).andThen fun p rest => .ok (e :: p, rest) := by
  cases x with
  | error er => rfl
  | ok more => rfl

/-- The answer of a program that begins with an expression. -/
theorem whole_then {n : Nat} {x : Except ParseError (Parsed Node n)}
    {k : List Token → Except ParseError Program} :
    whole (x >>= fun p => k p.rest >>= fun more => .ok (p.value.tree :: more)) =
      (answer x).andThen fun e mid =>
        (whole (k mid)).andThen fun p rest => .ok (e.tree :: p, rest) := by
  cases x with
  | error e => rfl
  | ok p => exact whole_cons p.value.tree (k p.rest)

/-- An expression of a program and what follows it. -/
def fromExpression (limits : Limits) (ts : List Token) : Answer Program :=
  (answer (expression limits ts)).andThen fun e mid =>
    (whole (programRest limits mid)).andThen fun p rest => .ok (e.tree :: p, rest)

/-- What follows the first expression of a program. -/
theorem whole_programRest_cons : whole (programRest limits (t :: tail)) =
    if t.isPunctuation ";" then
      if skipSemicolons tail = [] then .ok ([], [])
      else fromExpression limits (skipSemicolons tail)
    else .error (.unexpectedToken ⟨t.text, t.pos⟩) := by
  rw [programRest]
  split
  · split
    · rfl
    · exact whole_then
  · rfl

/-- A program is an expression and what follows it. -/
theorem whole_program : whole (program limits ts) = fromExpression limits ts :=
  whole_then

end Readers

end ExprSandbox.Parser
