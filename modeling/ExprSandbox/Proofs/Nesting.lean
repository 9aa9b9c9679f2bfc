import ExprSandbox.Proofs.Grammar

/-!
# Nesting

The nesting of a tree counts what the parser reads one level deeper: operands of unary operators,
branches, keys, arguments, elements and values.  A reader that may go `depth` levels deep makes no
tree that nests deeper.
-/

namespace ExprSandbox

namespace Expression

mutual
/-- The number of levels on the deepest path down the tree. -/
def nesting : Expression → Nat
  | .literal _ => 0
  | .identifier _ => 0
  | .array elements => elementsNesting elements
  | .object properties => propertiesNesting properties
  | .unary _ argument => argument.nesting + 1
  | .binary _ left right => max left.nesting right.nesting
  | .logical _ left right => max left.nesting right.nesting
  | .conditional test consequent alternate =>
    max test.nesting (max (consequent.nesting + 1) (alternate.nesting + 1))
  | .member base property computed =>
    max base.nesting (if computed then property.nesting + 1 else property.nesting)
  | .call callee arguments => max callee.nesting (argumentsNesting arguments)

/-- The number of levels of the elements of an array literal, their own included. -/
def elementsNesting : List (Option Expression) → Nat
  | [] => 0
  | none :: rest => elementsNesting rest
  | some e :: rest => max (e.nesting + 1) (elementsNesting rest)

/-- The number of levels of the values of an object literal, their own included. -/
def propertiesNesting : List (PropertyKey × Expression) → Nat
  | [] => 0
  | (_, e) :: rest => max (e.nesting + 1) (propertiesNesting rest)

/-- The number of levels of the arguments of a call, their own included. -/
def argumentsNesting : List Expression → Nat
  | [] => 0
  | e :: rest => max (e.nesting + 1) (argumentsNesting rest)
end

end Expression

namespace Parser

/-! ## What a reading ensures -/

/-- If the reading succeeds, then this holds of what it has read. -/
def Ensures {α : Type} (P : α → Prop) (x : Except ParseError α) : Prop :=
  ∀ a, x = .ok a → P a

section Ensures

variable {α β : Type} {P : α → Prop}

/-- A reading that has succeeded. -/
theorem ensures_ok {a : α} (h : P a) : Ensures P (.ok a) := by
  intro b hb
  obtain rfl := Except.ok.inj hb
  exact h

/-- A reading that has failed. -/
theorem ensures_error {e : ParseError} : Ensures P (.error e) := by
  intro a ha
  cases ha

/-- A reading that goes on from another one. -/
theorem ensures_bind {x : Except ParseError β} {k : β → Except ParseError α}
    (h : ∀ b, x = .ok b → Ensures P (k b)) : Ensures P (x >>= k) := by
  cases x with
  | error e => exact ensures_error
  | ok b => exact h b rfl

/-- A reading that depends on a test. -/
theorem ensures_ite {c : Prop} [Decidable c] {x y : Except ParseError α} (hx : Ensures P x)
    (hy : Ensures P y) : Ensures P (if c then x else y) := by
  split
  · exact hx
  · exact hy

/-- A node has the tree that it is made of and stands one level above the children. -/
theorem node_eq_ok {limits : Limits} {tree : Expression} {children : Nat}
    {htree : children + 1 = tree.height} {e : Node}
    (h : node limits tree children htree = .ok e) :
    e.tree = tree ∧ e.height = children + 1 ∧ e.height ≤ limits.height := by
  unfold node at h
  split at h
  · cases h
  · next hle =>
    obtain rfl := Except.ok.inj h
    exact ⟨rfl, rfl, Nat.le_of_not_lt hle⟩

end Ensures

/-! ## Levels of a reader -/

/-- The reader makes no tree that nests `depth` levels deep. -/
def NestsBelow (depth : Nat) (inner : Reader Node) : Prop :=
  ∀ ts, Ensures (fun p => p.value.tree.nesting < depth) (inner ts)

section NestsBelow

variable {limits : Limits} {level : List Connective} {depth : Nat}
variable {operand inner : Reader Node}

/-- An operator joins two trees and adds no level. -/
theorem nesting_join (c : Connective) (left right : Expression) :
    (c.join left right).nesting = max left.nesting right.nesting := by
  cases c <;> simp [Connective.join, Expression.nesting]

/-- A chain nests as deep as its operands. -/
theorem chainRest_nesting (h : NestsBelow depth operand) {left : Node}
    (hleft : left.tree.nesting < depth) (ts : List Token) :
    Ensures (fun p => p.value.tree.nesting < depth) (chainRest limits level operand left ts) := by
  fun_induction chainRest limits level operand left ts with
  | case1 left => exact ensures_ok hleft
  | case2 left t rest hnone => exact ensures_ok hleft
  | case3 left t rest c hc ih =>
    refine ensures_bind fun right hright => ensures_bind fun e he => ensures_bind fun whole hw => ?_
    have hjoin : e.tree.nesting < depth := by
      rw [(node_eq_ok he).1, nesting_join]
      exact Nat.max_lt.mpr ⟨hleft, h rest right hright⟩
    exact ensures_ok (ih right e hjoin whole hw)

/-- A chain nests as deep as its operands. -/
theorem chain_nesting (h : NestsBelow depth operand) :
    NestsBelow depth (chain limits level operand) := by
  intro ts
  refine ensures_bind fun left hleft => ensures_bind fun whole hw => ensures_ok ?_
  exact chainRest_nesting h (h ts left hleft) left.rest whole hw

/-- The elements of an array are one level above what they nest. -/
theorem elements_nesting (h : NestsBelow depth inner) (ts : List Token) :
    Ensures (fun p => Expression.elementsNesting p.value.tree ≤ depth) (elements inner ts) := by
  fun_induction elements inner ts with
  | case1 => exact ensures_bind fun e he => absurd e.rest_lt (Nat.not_lt_zero _)
  | case2 t tail hclose => exact ensures_ok (Nat.zero_le _)
  | case3 t tail hclose hcomma ih =>
    exact ensures_bind fun more hmore => ensures_ok (ih more hmore)
  | case4 t tail hclose hcomma ih =>
    refine ensures_bind fun e he => ?_
    have hlt : e.value.tree.nesting < depth := h _ e he
    split
    · exact ensures_error
    · next s mid hrest =>
      refine ensures_ite (ensures_ok ?_) (ensures_ite ?_ ensures_error)
      · exact Nat.max_le.mpr ⟨hlt, Nat.zero_le _⟩
      · refine ensures_bind fun more hmore => ensures_ok ?_
        exact Nat.max_le.mpr ⟨hlt, ih e s mid hrest more hmore⟩

/-- The values of an object are one level above what they nest. -/
theorem properties_nesting (h : NestsBelow depth inner) (ts : List Token) :
    Ensures (fun p => Expression.propertiesNesting p.value.tree ≤ depth) (properties inner ts) := by
  fun_induction properties inner ts with
  | case1 => exact ensures_error
  | case2 t tail hclose => exact ensures_ok (Nat.zero_le _)
  | case3 t tail hclose ih =>
    refine ensures_bind fun key _ => ensures_bind fun colon _ => ensures_bind fun e he => ?_
    have hlt : e.value.tree.nesting < depth := h _ e he
    split
    · exact ensures_error
    · next s mid hrest =>
      refine ensures_ite (ensures_ok ?_) (ensures_ite ?_ ensures_error)
      · exact Nat.max_le.mpr ⟨hlt, Nat.zero_le _⟩
      · refine ensures_bind fun more hmore => ensures_ok ?_
        exact Nat.max_le.mpr ⟨hlt, ih key colon e s mid hrest more hmore⟩

/-- The arguments of a call are one level above what they nest. -/
theorem argumentList_nesting (h : NestsBelow depth inner) (ts : List Token) :
    Ensures (fun p => Expression.argumentsNesting p.value.tree ≤ depth)
      (argumentList inner ts) := by
  fun_induction argumentList inner ts with
  | case1 ts ih =>
    refine ensures_bind fun e he => ?_
    have hlt : e.value.tree.nesting < depth := h _ e he
    split
    · exact ensures_error
    · next s mid hrest =>
      refine ensures_ite ?_ (ensures_ite (ensures_ok ?_) ensures_error)
      · refine ensures_bind fun more hmore => ensures_ok ?_
        exact Nat.max_le.mpr ⟨hlt, ih e s mid hrest more hmore⟩
      · exact Nat.max_le.mpr ⟨hlt, Nat.zero_le _⟩

/-- The arguments of a call are one level above what they nest. -/
theorem arguments_nesting (h : NestsBelow depth inner) (ts : List Token) :
    Ensures (fun p => Expression.argumentsNesting p.value.tree ≤ depth) (arguments inner ts) := by
  cases ts with
  | nil => exact argumentList_nesting h []
  | cons t rest => exact ensures_ite (ensures_ok (Nat.zero_le _)) (argumentList_nesting h _)

/-- An operand is as deep as what is read inside its brackets. -/
theorem primary_nesting (h : NestsBelow depth inner) :
    NestsBelow (depth + 1) (primary limits inner) := by
  intro ts
  cases ts with
  | nil => exact ensures_error
  | cons t rest =>
    refine ensures_ite ?_ (ensures_ite ?_ (ensures_ite ?_ ?_))
    · refine ensures_bind fun e he => ensures_bind fun close _ => ensures_ok ?_
      exact Nat.lt_succ_of_lt (h rest e he)
    · refine ensures_bind fun es hes => ensures_bind fun e he => ensures_ok ?_
      rw [(node_eq_ok he).1]
      exact Nat.lt_succ_of_le (elements_nesting h rest es hes)
    · refine ensures_bind fun ps hps => ensures_bind fun e he => ensures_ok ?_
      rw [(node_eq_ok he).1]
      exact Nat.lt_succ_of_le (properties_nesting h rest ps hps)
    · split
      · exact ensures_ok (Nat.succ_pos _)
      · exact ensures_ok (Nat.succ_pos _)
      · exact ensures_error

/-- Members and calls are as deep as their base and what is read inside their brackets. -/
theorem postfixRest_nesting (h : NestsBelow depth inner) {base : Node}
    (hbase : base.tree.nesting ≤ depth) (ts : List Token) :
    Ensures (fun p => p.value.tree.nesting ≤ depth) (postfixRest limits inner base ts) := by
  fun_induction postfixRest limits inner base ts with
  | case1 base => exact ensures_ok hbase
  | case2 base t tail hdot ih =>
    refine ensures_bind fun name _ => ensures_bind fun e he => ensures_bind fun whole hw => ?_
    have hmember : e.tree.nesting ≤ depth := by
      rw [(node_eq_ok he).1]
      exact Nat.max_le.mpr ⟨hbase, Nat.zero_le _⟩
    exact ensures_ok (ih name e hmember whole hw)
  | case3 base t tail hdot hopen ih =>
    refine ensures_bind fun key hkey => ensures_bind fun close _ => ensures_bind fun e he =>
      ensures_bind fun whole hw => ?_
    have hmember : e.tree.nesting ≤ depth := by
      rw [(node_eq_ok he).1]
      exact Nat.max_le.mpr ⟨hbase, h tail key hkey⟩
    exact ensures_ok (ih key close e hmember whole hw)
  | case4 base t tail hdot hopen hcall ih =>
    refine ensures_bind fun args hargs => ensures_bind fun e he => ensures_bind fun whole hw => ?_
    have hcall : e.tree.nesting ≤ depth := by
      rw [(node_eq_ok he).1]
      exact Nat.max_le.mpr ⟨hbase, arguments_nesting h tail args hargs⟩
    exact ensures_ok (ih args e hcall whole hw)
  | case5 base t tail hdot hopen hcall => exact ensures_ok hbase

/-- An operand with its members and calls is as deep as what is read inside brackets. -/
theorem postfixed_nesting (h : NestsBelow depth inner) :
    NestsBelow (depth + 1) (postfixed limits inner) := by
  intro ts
  refine ensures_bind fun base hbase => ensures_bind fun whole hw => ensures_ok ?_
  have hle : base.value.tree.nesting ≤ depth := Nat.le_of_lt_succ (primary_nesting h ts base hbase)
  exact Nat.lt_succ_of_le (postfixRest_nesting h hle base.rest whole hw)

/-- A unary operator is one level above its operand. -/
theorem unary_nesting (hoperand : NestsBelow depth operand) (hinner : NestsBelow depth inner) :
    NestsBelow (depth + 1) (unary limits operand inner) := by
  intro ts
  cases ts with
  | nil => exact postfixed_nesting hinner []
  | cons t rest =>
    rw [unary]
    split
    · exact postfixed_nesting hinner (t :: rest)
    · refine ensures_bind fun argument hargument => ensures_bind fun e he => ensures_ok ?_
      rw [(node_eq_ok he).1]
      exact Nat.succ_lt_succ (hoperand rest argument hargument)

/-- A conditional is one level above its branches. -/
theorem conditional_nesting (hoperand : NestsBelow depth operand)
    (hinner : NestsBelow depth inner) :
    NestsBelow (depth + 1) (conditional limits operand inner) := by
  have hlevels : ∀ levels : List (List Connective), NestsBelow (depth + 1)
      (levels.foldr (chain limits) (unary limits operand inner)) := by
    intro levels
    induction levels with
    | nil => exact unary_nesting hoperand hinner
    | cons level levels ih => exact chain_nesting ih
  intro ts
  refine ensures_bind fun test htest => ?_
  have htest : test.value.tree.nesting < depth + 1 := hlevels Connective.levels ts test htest
  split
  · exact ensures_ok htest
  · refine ensures_ite ?_ (ensures_ok htest)
    refine ensures_bind fun consequent hc => ensures_bind fun colon _ =>
      ensures_bind fun alternate ha => ensures_bind fun e he => ensures_ok ?_
    have hc : consequent.value.tree.nesting < depth := hinner _ consequent hc
    have ha : alternate.value.tree.nesting < depth := hinner _ alternate ha
    rw [(node_eq_ok he).1, Expression.nesting]
    omega

end NestsBelow

/-- **A reader that may go `depth` levels deep makes no tree that nests deeper.** -/
theorem nested_nesting (limits : Limits) (depth : Nat) (kind : Nested) :
    NestsBelow depth (nested limits depth kind) := by
  induction depth generalizing kind with
  | zero => exact fun ts => ensures_error
  | succ depth ih =>
    cases kind with
    | expression => exact conditional_nesting (ih .operand) (ih .expression)
    | operand => exact unary_nesting (ih .operand) (ih .expression)

/-- The expressions of a program nest less deep than the limit. -/
theorem programRest_nesting (limits : Limits) (ts : List Token) :
    Ensures (fun p => ∀ e ∈ p, e.nesting < limits.depth) (programRest limits ts) := by
  fun_induction programRest limits ts with
  | case1 => exact ensures_ok (by simp)
  | case2 t rest hsemicolon hskip => exact ensures_ok (by simp)
  | case3 t rest hsemicolon hskip ih =>
    refine ensures_bind fun e he => ensures_bind fun more hmore => ensures_ok ?_
    have hlt : e.value.tree.nesting < limits.depth := nested_nesting limits _ _ _ e he
    exact List.forall_mem_cons.mpr ⟨hlt, ih e more hmore⟩
  | case4 t rest hsemicolon => exact ensures_error

/-- The expressions of a program nest less deep than the limit. -/
theorem program_nesting (limits : Limits) (ts : List Token) :
    Ensures (fun p => ∀ e ∈ p, e.nesting < limits.depth) (program limits ts) := by
  refine ensures_bind fun e he => ensures_bind fun more hmore => ensures_ok ?_
  have hlt : e.value.tree.nesting < limits.depth := nested_nesting limits _ _ _ e he
  exact List.forall_mem_cons.mpr ⟨hlt, programRest_nesting limits e.rest more hmore⟩

end Parser

end ExprSandbox
