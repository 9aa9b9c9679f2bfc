import ExprSandbox.Proofs.Grammar

/-!
# What readers yield

One theorem for each reader, which says when it yields a value and the tokens that are left, in
terms of what the readers that it is made of yield.  The theorems are equivalences, so that they
serve both ways: from what was read to a derivation, and from a derivation to what is read.

A node that is made is told by its tree (`Measured.of`), because the height that was tracked for
it is the one of the tree.
-/

namespace ExprSandbox.Parser

/-! ## Heights beside trees -/

namespace Measured

variable {α : Type} {measure : α → Nat}

/-- A tree with its own height beside it. -/
def of (tree : α) : Measured measure :=
  ⟨tree, measure tree, rfl⟩

/-- No other height can stand beside a tree. -/
theorem eq_of (tree : α) (height : Nat) (h : height = measure tree) :
    (⟨tree, height, h⟩ : Measured measure) = of tree := by
  subst h
  rfl

end Measured

/-- The reading succeeds with the value `v` and leaves the tokens `rest`. -/
def Yields {α : Type} {n : Nat} (x : Except ParseError (Parsed α n)) (v : α) (rest : List Token) :
    Prop :=
  ∃ p, x = .ok p ∧ p.value = v ∧ p.rest = rest

/-! ## Steps of readers -/

section Yields

variable {α β : Type} {m n : Nat} {v : α} {rest : List Token} {x : Except ParseError (Parsed β m)}

/-- What is left is less than there was. -/
theorem Yields.rest_lt {x : Except ParseError (Parsed α n)} (h : Yields x v rest) :
    rest.length < n := by
  obtain ⟨p, -, -, rfl⟩ := h
  exact p.rest_lt

/-- A reading that has succeeded. -/
theorem yields_ok {p : Parsed α n} : Yields (.ok p) v rest ↔ v = p.value ∧ rest = p.rest := by
  constructor
  · rintro ⟨q, hq, rfl, rfl⟩
    obtain rfl := Except.ok.inj hq
    exact ⟨rfl, rfl⟩
  · rintro ⟨rfl, rfl⟩
    exact ⟨p, rfl, rfl, rfl⟩

/-- A reading that has failed. -/
theorem not_yields_error {e : ParseError} : ¬ Yields (.error e : Except _ (Parsed α n)) v rest := by
  rintro ⟨p, hp, -⟩
  cases hp

/-- A reading that goes on from another one. -/
theorem yields_then {k : Parsed β m → Except ParseError (Parsed α n)} {Q : β → List Token → Prop}
    (hk : ∀ p, Yields (k p) v rest ↔ Q p.value p.rest) :
    Yields (x >>= k) v rest ↔ ∃ b mid, Yields x b mid ∧ Q b mid := by
  cases x with
  | error e =>
    constructor
    · intro h
      exact absurd h not_yields_error
    · rintro ⟨b, mid, h, -⟩
      exact absurd h not_yields_error
  | ok p =>
    constructor
    · intro h
      exact ⟨p.value, p.rest, yields_ok.mpr ⟨rfl, rfl⟩, (hk p).mp h⟩
    · rintro ⟨b, mid, h, hQ⟩
      obtain ⟨rfl, rfl⟩ := yields_ok.mp h
      exact (hk p).mpr hQ

/-- A reading of which only the value is changed. -/
theorem yields_changed {g : β → α} {h : ∀ p : Parsed β m, p.rest.length < n} :
    Yields (x >>= fun p => .ok ⟨g p.value, p.rest, h p⟩) v rest ↔
      ∃ b, Yields x b rest ∧ v = g b := by
  refine (yields_then (Q := fun b mid => v = g b ∧ rest = mid) fun p => yields_ok).trans ?_
  constructor
  · rintro ⟨b, mid, hx, rfl, rfl⟩
    exact ⟨b, hx, rfl⟩
  · rintro ⟨b, hx, rfl⟩
    exact ⟨b, rest, hx, rfl, rfl⟩

/-- A reading of which only the bound on what is left is changed. -/
theorem yields_weaken {x : Except ParseError (Parsed α m)} {h : m ≤ n} :
    Yields (x >>= fun p => .ok (p.weaken h)) v rest ↔ Yields x v rest := by
  refine (yields_then (Q := fun b mid => v = b ∧ rest = mid) fun p =>
    yields_ok (p := p.weaken h)).trans ?_
  constructor
  · rintro ⟨b, mid, hx, rfl, rfl⟩
    exact hx
  · intro hx
    exact ⟨v, rest, hx, rfl, rfl⟩

/-- A reading that makes a node: as the height that was tracked for it is the one of its tree, it
is the tree that must not be too high. -/
theorem yields_node {limits : Limits} {tree : Expression} {children : Nat}
    {htree : children + 1 = tree.height} {k : Node → Except ParseError (Parsed α n)} :
    Yields (node limits tree children htree >>= k) v rest ↔
      tree.height ≤ limits.height ∧ Yields (k (.of tree)) v rest := by
  rw [← Measured.eq_of tree _ htree, ← htree]
  unfold node
  split
  · next hlt =>
    constructor
    · intro h
      exact absurd h not_yields_error
    · rintro ⟨hle, -⟩
      omega
  · next hle => exact ⟨fun h => ⟨Nat.le_of_not_lt hle, h⟩, fun h => h.2⟩

/-- What holds of the first token and the others. -/
theorem exists_cons_iff {t : Token} {ts tail : List Token} {P : Token → List Token → Prop}
    (h : ts = t :: tail) : (∃ s mid, ts = s :: mid ∧ P s mid) ↔ P t tail := by
  subst h
  constructor
  · rintro ⟨s, mid, heq, h⟩
    obtain ⟨rfl, rfl⟩ := List.cons.inj heq
    exact h
  · intro h
    exact ⟨t, tail, rfl, h⟩

/-- A reading that has failed for want of a token. -/
theorem yields_missing {ts : List Token} {er : ParseError} {P : Token → List Token → Prop}
    (h : ts = []) : Yields (.error er : Except _ (Parsed α n)) v rest ↔
      ∃ s mid, ts = s :: mid ∧ P s mid := by
  subst h
  constructor
  · intro h
    exact absurd h not_yields_error
  · rintro ⟨s, mid, heq, -⟩
    cases heq

/-- A reading that depends on a test. -/
theorem yields_ite {c : Prop} [Decidable c] {y z : Except ParseError (Parsed α n)} {P Q : Prop}
    (hy : c → (Yields y v rest ↔ P)) (hz : ¬ c → (Yields z v rest ↔ Q)) :
    Yields (if c then y else z) v rest ↔ if c then P else Q := by
  split
  · next h => exact hy h
  · next h => exact hz h

/-- A reading that needs a test to hold. -/
theorem yields_guard {c : Prop} [Decidable c] {y : Except ParseError (Parsed α n)} {er : ParseError}
    {P : Prop} (hy : Yields y v rest ↔ P) :
    Yields (if c then y else .error er) v rest ↔ c ∧ P := by
  split
  · next h => exact hy.trans (and_iff_right h).symm
  · next h => exact ⟨fun h' => absurd h' not_yields_error, fun h' => absurd h'.1 h⟩

end Yields

section Readers

variable {limits : Limits} {t : Token} {tail ts rest : List Token} {e left : Node}

/-- A given punctuation is the first token. -/
theorem yields_expect {text : String} {u : Unit} : Yields (expect text ts) u rest ↔
    ∃ t, ts = t :: rest ∧ t.isPunctuation text = true := by
  cases ts with
  | nil =>
    constructor
    · intro h
      exact absurd h not_yields_error
    · rintro ⟨t, heq, -⟩
      cases heq
  | cons t tail =>
    rw [expect]
    split
    · next ht =>
      rw [yields_ok]
      constructor
      · rintro ⟨-, rfl⟩
        exact ⟨t, rfl, ht⟩
      · rintro ⟨t', heq, -⟩
        exact ⟨rfl, (List.cons.inj heq).2.symm⟩
    · next ht =>
      constructor
      · exact fun h => absurd h not_yields_error
      · rintro ⟨t', heq, ht'⟩
        rw [(List.cons.inj heq).1] at ht
        exact absurd ht' ht

/-! ## Chains -/

variable {level : List Connective} {operand inner : Reader Node}

/-- A chain ends with its tokens. -/
theorem yields_chainRest_nil : Yields (chainRest limits level operand left []) e rest ↔
    e = left ∧ rest = [] := by
  rw [chainRest]
  exact yields_ok

/-- A chain ends before a token that is no operator of its level, and goes on with an operator and
an operand. -/
theorem yields_chainRest_cons : Yields (chainRest limits level operand left (t :: tail)) e rest ↔
    match connective? level t with
    | none => e = left ∧ rest = t :: tail
    | some c => ∃ r mid, Yields (operand tail) r mid ∧
        (c.join left.tree r.tree).height ≤ limits.height ∧
        Yields (chainRest limits level operand (.of (c.join left.tree r.tree)) mid) e rest := by
  rw [chainRest]
  cases connective? level t with
  | none => exact yields_ok
  | some c =>
    exact yields_then fun p => yields_node.trans (and_congr_right fun _ => yields_weaken)

/-- A chain is an operand and what follows it. -/
theorem yields_chain : Yields (chain limits level operand ts) e rest ↔
    ∃ l mid, Yields (operand ts) l mid ∧
      Yields (chainRest limits level operand l mid) e rest := by
  rw [chain]
  exact yields_then fun p => yields_weaken

/-! ## Insides of brackets -/

/-- There are no elements without a bracket that ends them. -/
theorem not_yields_elements_nil {es : Elements} :
    ¬ Yields (elements inner []) es rest := by
  rw [elements, yields_then (Q := fun _ _ => False)]
  · rintro ⟨b, mid, -, h⟩
    exact h
  · intro p
    exact absurd p.rest_lt (Nat.not_lt_zero _)

/-- The elements of an array end, or go on with a hole or an element. -/
theorem yields_elements_cons {es : Elements} :
    Yields (elements inner (t :: tail)) es rest ↔
      if t.isPunctuation "]" then es = .nil ∧ rest = tail
      else if t.isPunctuation "," then
        ∃ es', Yields (elements inner tail) es' rest ∧ es = .hole es'
      else ∃ e mid, Yields (inner (t :: tail)) e mid ∧ ∃ s mid', mid = s :: mid' ∧
        if s.isPunctuation "]" then es = .cons e .nil ∧ rest = mid'
        else s.isPunctuation "," = true ∧
          ∃ es', Yields (elements inner mid') es' rest ∧ es = .cons e es' := by
  rw [elements]
  refine yields_ite (fun _ => yields_ok) fun _ => yields_ite (fun _ => yields_changed) fun _ =>
    yields_then fun p => ?_
  split
  · next hnil => exact yields_missing hnil
  · next s mid' hrest =>
    refine Iff.trans ?_ (exists_cons_iff hrest).symm
    exact yields_ite (fun _ => yields_ok) fun _ => yields_guard yields_changed

/-- The key of a property is the first token. -/
theorem yields_propertyKey {key : PropertyKey} : Yields (propertyKey ts) key rest ↔
    ∃ t, ts = t :: rest ∧ DerivesKey t key := by
  cases ts with
  | nil =>
    constructor
    · intro h
      exact absurd h not_yields_error
    · rintro ⟨t, heq, -⟩
      cases heq
  | cons t tail =>
    rw [propertyKey]
    constructor
    · intro h
      split at h
      · next hname =>
        obtain ⟨rfl, rfl⟩ := yields_ok.mp h
        exact ⟨t, rfl, .name hname⟩
      · next hname =>
        rw [Bool.not_eq_true] at hname
        split at h
        · next s hs =>
          obtain ⟨rfl, rfl⟩ := yields_ok.mp h
          exact ⟨t, rfl, .string hname hs⟩
        · next x hx =>
          obtain ⟨rfl, rfl⟩ := yields_ok.mp h
          exact ⟨t, rfl, .number hname hx⟩
        · exact absurd h not_yields_error
    · rintro ⟨t', heq, hkey⟩
      obtain ⟨rfl, rfl⟩ := List.cons.inj heq
      cases hkey with
      | name h =>
        rw [if_pos h]
        exact yields_ok.mpr ⟨rfl, rfl⟩
      | string h value =>
        rw [if_neg (by rw [h]; exact Bool.false_ne_true), value]
        exact yields_ok.mpr ⟨rfl, rfl⟩
      | number h value =>
        rw [if_neg (by rw [h]; exact Bool.false_ne_true), value]
        exact yields_ok.mpr ⟨rfl, rfl⟩

/-- There are no properties without a brace that ends them. -/
theorem not_yields_properties_nil {ps : Properties} :
    ¬ Yields (properties inner []) ps rest := by
  rw [properties]
  exact not_yields_error

/-- The properties of an object end, or go on with a property. -/
theorem yields_properties_cons {ps : Properties} :
    Yields (properties inner (t :: tail)) ps rest ↔
      if t.isPunctuation "\x7d" then ps = .nil ∧ rest = tail
      else ∃ key mid, Yields (propertyKey (t :: tail)) key mid ∧
        ∃ u mid₁, Yields (expect ":" mid) u mid₁ ∧
        ∃ e mid₂, Yields (inner mid₁) e mid₂ ∧ ∃ s mid₃, mid₂ = s :: mid₃ ∧
          if s.isPunctuation "\x7d" then ps = .cons key e .nil ∧ rest = mid₃
          else s.isPunctuation "," = true ∧
            ∃ ps', Yields (properties inner mid₃) ps' rest ∧ ps = .cons key e ps' := by
  rw [properties]
  refine yields_ite (fun _ => yields_ok) fun _ => yields_then fun key => yields_then fun colon =>
    yields_then fun p => ?_
  split
  · next hnil => exact yields_missing hnil
  · next s mid' hrest =>
    refine Iff.trans ?_ (exists_cons_iff hrest).symm
    exact yields_ite (fun _ => yields_ok) fun _ => yields_guard yields_changed

/-- Arguments end, or go on after a comma. -/
theorem yields_argumentList {args : Arguments} :
    Yields (argumentList inner ts) args rest ↔
      ∃ e mid, Yields (inner ts) e mid ∧ ∃ s mid', mid = s :: mid' ∧
        if s.isPunctuation "," then
          ∃ args', Yields (argumentList inner mid') args' rest ∧ args = .cons e args'
        else s.isPunctuation ")" = true ∧ args = .cons e .nil ∧ rest = mid' := by
  rw [argumentList]
  refine yields_then fun p => ?_
  split
  · next hnil => exact yields_missing hnil
  · next s mid' hrest =>
    refine Iff.trans ?_ (exists_cons_iff hrest).symm
    exact yields_ite (fun _ => yields_changed) fun _ => yields_guard yields_ok

/-- There are no arguments, or some. -/
theorem yields_arguments_cons {args : Arguments} :
    Yields (arguments inner (t :: tail)) args rest ↔
      if t.isPunctuation ")" then args = .nil ∧ rest = tail
      else Yields (argumentList inner (t :: tail)) args rest := by
  rw [arguments]
  exact yields_ite (fun _ => yields_ok) fun _ => Iff.rfl

/-- The name after a dot is the first token. -/
theorem yields_memberName {name : String} : Yields (memberName ts) name rest ↔
    ∃ t, ts = t :: rest ∧ t.isName = true ∧ name = t.text := by
  cases ts with
  | nil =>
    constructor
    · intro h
      exact absurd h not_yields_error
    · rintro ⟨t, heq, -⟩
      cases heq
  | cons t tail =>
    rw [memberName, yields_guard yields_ok]
    constructor
    · rintro ⟨hname, rfl, rfl⟩
      exact ⟨t, rfl, hname, rfl⟩
    · rintro ⟨t', heq, hname, rfl⟩
      obtain ⟨rfl, rfl⟩ := List.cons.inj heq
      exact ⟨hname, rfl, rfl⟩

/-! ## Operands -/

/-- No operand is read from no tokens. -/
theorem not_yields_primary_nil : ¬ Yields (primary limits inner []) e rest := by
  rw [primary]
  exact not_yields_error

/-- What stands at the beginning of an operand decides what it is. -/
theorem yields_primary_cons : Yields (primary limits inner (t :: tail)) e rest ↔
    if t.isPunctuation "(" then
      ∃ e' mid, Yields (inner tail) e' mid ∧ ∃ u mid', Yields (expect ")" mid) u mid' ∧
        e = e' ∧ rest = mid'
    else if t.isPunctuation "[" then
      ∃ es mid, Yields (elements inner tail) es mid ∧
        (Expression.array es.tree).height ≤ limits.height ∧ e = .of (.array es.tree) ∧ rest = mid
    else if t.isPunctuation "\x7b" then
      ∃ ps mid, Yields (properties inner tail) ps mid ∧
        (Expression.object ps.tree).height ≤ limits.height ∧ e = .of (.object ps.tree) ∧
        rest = mid
    else match t.kind with
      | .identifier => e = .of (.identifier t.text) ∧ rest = tail
      | .literal value => e = .of (.literal value) ∧ rest = tail
      | .punctuation => False := by
  rw [primary]
  refine yields_ite (fun _ => yields_then fun p => yields_then fun close => yields_ok) fun _ =>
    yields_ite (fun _ => yields_then fun es => yields_node.trans
      (and_congr_right fun _ => yields_ok)) fun _ =>
    yields_ite (fun _ => yields_then fun ps => yields_node.trans
      (and_congr_right fun _ => yields_ok)) fun _ => ?_
  cases t.kind with
  | identifier => exact yields_ok
  | literal value => exact yields_ok
  | punctuation => exact iff_false_intro not_yields_error

/-- A token that is no punctuation is an operand by itself. -/
theorem yields_primary_of_kind (h : t.kind ≠ .punctuation) :
    Yields (primary limits inner (t :: tail)) e rest ↔
      match t.kind with
      | .identifier => e = .of (.identifier t.text) ∧ rest = tail
      | .literal value => e = .of (.literal value) ∧ rest = tail
      | .punctuation => False := by
  have hno := Token.not_isPunctuation_of_kind h
  rw [yields_primary_cons, if_neg (hno "("), if_neg (hno "["), if_neg (hno "\x7b")]

variable {base : Node}

/-- Members and calls end with the tokens. -/
theorem yields_postfixRest_nil : Yields (postfixRest limits inner base []) e rest ↔
    e = base ∧ rest = [] := by
  rw [postfixRest]
  exact yields_ok

/-- Members and calls go on for as long as a token begins one. -/
theorem yields_postfixRest_cons : Yields (postfixRest limits inner base (t :: tail)) e rest ↔
    if t.isPunctuation "." then
      ∃ name mid, Yields (memberName tail) name mid ∧
        (Expression.member base.tree (.identifier name) false).height ≤ limits.height ∧
        Yields (postfixRest limits inner (.of (.member base.tree (.identifier name) false)) mid)
          e rest
    else if t.isPunctuation "[" then
      ∃ k mid, Yields (inner tail) k mid ∧ ∃ u mid', Yields (expect "]" mid) u mid' ∧
        (Expression.member base.tree k.tree true).height ≤ limits.height ∧
        Yields (postfixRest limits inner (.of (.member base.tree k.tree true)) mid') e rest
    else if t.isPunctuation "(" then
      ∃ args mid, Yields (arguments inner tail) args mid ∧
        (Expression.call base.tree args.tree).height ≤ limits.height ∧
        Yields (postfixRest limits inner (.of (.call base.tree args.tree)) mid) e rest
    else e = base ∧ rest = t :: tail := by
  rw [postfixRest]
  exact yields_ite (fun _ => yields_then fun name => yields_node.trans
      (and_congr_right fun _ => yields_weaken)) fun _ =>
    yields_ite (fun _ => yields_then fun key => yields_then fun close => yields_node.trans
      (and_congr_right fun _ => yields_weaken)) fun _ =>
    yields_ite (fun _ => yields_then fun args => yields_node.trans
      (and_congr_right fun _ => yields_weaken)) fun _ => yields_ok

/-- An operand is its beginning and the members and calls after it. -/
theorem yields_postfixed : Yields (postfixed limits inner ts) e rest ↔
    ∃ base mid, Yields (primary limits inner ts) base mid ∧
      Yields (postfixRest limits inner base mid) e rest := by
  rw [postfixed]
  exact yields_then fun p => yields_weaken

/-- No operand is read from no tokens. -/
theorem not_yields_unary_nil : ¬ Yields (unary limits operand inner []) e rest := by
  rw [unary, yields_postfixed]
  rintro ⟨base, mid, h, -⟩
  exact not_yields_primary_nil h

/-- A unary operator with its operand, or an operand without one. -/
theorem yields_unary_cons : Yields (unary limits operand inner (t :: tail)) e rest ↔
    match unaryOp? t with
    | none => Yields (postfixed limits inner (t :: tail)) e rest
    | some op => ∃ a mid, Yields (operand tail) a mid ∧
        (Expression.unary op a.tree).height ≤ limits.height ∧ e = .of (.unary op a.tree) ∧
        rest = mid := by
  rw [unary]
  cases unaryOp? t with
  | none => exact Iff.rfl
  | some op =>
    exact yields_then fun p => yields_node.trans (and_congr_right fun _ => yields_ok)

/-! ## Expressions -/

/-- What is yielded when the test of an expression is followed by the given tokens: the two branches
if these begin with `?`, and nothing more otherwise. -/
def YieldsBranches (limits : Limits) (inner : Reader Node) (test e : Node) (rest : List Token) :
    List Token → Prop
  | [] => e = test ∧ rest = []
  | t :: tail =>
    if t.isPunctuation "?" then
      ∃ e₁ mid₁, Yields (inner tail) e₁ mid₁ ∧ ∃ u mid₂, Yields (expect ":" mid₁) u mid₂ ∧
      ∃ e₂ mid₃, Yields (inner mid₂) e₂ mid₃ ∧
        (Expression.conditional test.tree e₁.tree e₂.tree).height ≤ limits.height ∧
        e = .of (.conditional test.tree e₁.tree e₂.tree) ∧ rest = mid₃
    else e = test ∧ rest = t :: tail

/-- A chain of the weakest level, with the branches of a conditional if `?` follows. -/
theorem yields_conditional : Yields (conditional limits operand inner ts) e rest ↔
    ∃ test mid, Yields (Connective.levels.foldr (chain limits) (unary limits operand inner) ts)
        test mid ∧ YieldsBranches limits inner test e rest mid := by
  rw [conditional]
  refine yields_then fun test => ?_
  split
  · next hnil =>
    refine Iff.trans ?_ (Iff.of_eq (congrArg (YieldsBranches _ _ _ _ _) hnil.symm))
    exact yields_ok.trans (by rw [hnil]; exact Iff.rfl)
  · next t tail hrest =>
    refine Iff.trans ?_ (Iff.of_eq (congrArg (YieldsBranches _ _ _ _ _) hrest.symm))
    refine yields_ite (fun _ => yields_then fun e₁ => yields_then fun colon =>
      yields_then fun e₂ => yields_node.trans (and_congr_right fun _ => yields_ok)) fun _ => ?_
    exact yields_ok.trans (by rw [hrest])

/-! ## Programs -/

/-- Nothing need follow the first expression. -/
theorem programRest_nil : programRest limits [] = .ok [] := by
  rw [programRest]

/-- A reading that goes on from an expression and gives the rest of a program. -/
theorem bind_eq_ok {α : Type} {n : Nat} {x : Except ParseError (Parsed α n)}
    {k : Parsed α n → Except ParseError Program} {p : Program} {Q : α → List Token → Prop}
    (hk : ∀ a, k a = .ok p ↔ Q a.value a.rest) :
    (x >>= k) = .ok p ↔ ∃ a mid, Yields x a mid ∧ Q a mid := by
  cases x with
  | error e =>
    constructor
    · exact nofun
    · rintro ⟨a, mid, h, -⟩
      exact absurd h not_yields_error
  | ok a =>
    constructor
    · intro h
      exact ⟨a.value, a.rest, yields_ok.mpr ⟨rfl, rfl⟩, (hk a).mp h⟩
    · rintro ⟨b, mid, h, hQ⟩
      obtain ⟨rfl, rfl⟩ := yields_ok.mp h
      exact (hk a).mpr hQ

/-- The rest of a program behind an expression. -/
theorem cons_eq_ok {x : Except ParseError Program} {tree : Expression} {p : Program} :
    (x >>= fun more => .ok (tree :: more)) = .ok p ↔ ∃ p', x = .ok p' ∧ p = tree :: p' := by
  cases x with
  | error er =>
    constructor
    · exact nofun
    · rintro ⟨p', hp', -⟩
      cases hp'
  | ok more =>
    constructor
    · intro h
      exact ⟨more, rfl, (Except.ok.inj h).symm⟩
    · rintro ⟨p', hp', rfl⟩
      obtain rfl := Except.ok.inj hp'
      rfl

/-- What follows the first expression begins with a semicolon. -/
theorem programRest_cons {p : Program} : programRest limits (t :: tail) = .ok p ↔
    t.isPunctuation ";" = true ∧
      if skipSemicolons tail = [] then p = []
      else ∃ e mid, Yields (expression limits (skipSemicolons tail)) e mid ∧
        ∃ p', programRest limits mid = .ok p' ∧ p = e.tree :: p' := by
  rw [programRest]
  by_cases ht : t.isPunctuation ";" = true
  · rw [if_pos ht, and_iff_right ht]
    split
    · exact ⟨fun h => (Except.ok.inj h).symm, fun h => h ▸ rfl⟩
    · exact bind_eq_ok fun a => cons_eq_ok
  · rw [if_neg ht]
    constructor
    · intro h
      cases h
    · rintro ⟨htext, -⟩
      exact absurd htext ht

/-- A program is an expression and what follows it. -/
theorem program_eq_ok {p : Program} : program limits ts = .ok p ↔
    ∃ e mid, Yields (expression limits ts) e mid ∧
      ∃ p', programRest limits mid = .ok p' ∧ p = e.tree :: p' := by
  rw [program]
  exact bind_eq_ok fun a => cons_eq_ok

end Readers

end ExprSandbox.Parser
