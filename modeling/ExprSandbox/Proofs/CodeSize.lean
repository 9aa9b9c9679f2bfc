import ExprSandbox.Proofs.Compilation
import ExprSandbox.Proofs.Occurrences

/-!
# The size of compiled routines

A routine is counted by its statements, in all blocks, and by the nodes of the operands in them.
Lowering makes at most eight statements and operand nodes for each node of a tree, and at most two
temporaries (`lower_costs`): an operand that is used more than once is put into a temporary first,
so that only leaves are written twice.  Hence the size of a routine is linear in that of its program
(`ofProgram_size_le`).
-/

namespace ExprSandbox

/-! ## Nodes of trees -/

namespace Expression

mutual
/-- The number of nodes of an expression.  The property of a member is one of them, also behind a
dot; a hole is none. -/
def nodes : Expression → Nat
  | .literal _ => 1
  | .identifier _ => 1
  | .array elements => elementsNodes elements + 1
  | .object properties => propertiesNodes properties + 1
  | .unary _ argument => argument.nodes + 1
  | .binary _ left right => left.nodes + right.nodes + 1
  | .logical _ left right => left.nodes + right.nodes + 1
  | .conditional test consequent alternate =>
    test.nodes + consequent.nodes + alternate.nodes + 1
  | .member base property _ => base.nodes + property.nodes + 1
  | .call callee arguments => callee.nodes + argumentsNodes arguments + 1

/-- The number of nodes of the elements of an array literal. -/
def elementsNodes : List (Option Expression) → Nat
  | [] => 0
  | none :: rest => elementsNodes rest
  | some e :: rest => e.nodes + elementsNodes rest

/-- The number of nodes of the values of an object literal. -/
def propertiesNodes : List (PropertyKey × Expression) → Nat
  | [] => 0
  | (_, e) :: rest => e.nodes + propertiesNodes rest

/-- The number of nodes of arguments. -/
def argumentsNodes : List Expression → Nat
  | [] => 0
  | e :: rest => e.nodes + argumentsNodes rest
end

end Expression

/-- The number of nodes of the trees of a program. -/
def Program.nodes : Program → Nat
  | [] => 0
  | e :: rest => e.nodes + nodes rest

/-! ## The size of routines -/

namespace Operand

mutual
/-- The number of nodes of an operand; a hole is none. -/
def nodes : Operand → Nat
  | .literal _ => 1
  | .temp _ => 1
  | .context => 1
  | .array slots => slotsNodes slots + 1
  | .object entries => entriesNodes entries + 1
  | .unary _ argument => argument.nodes + 1
  | .binary _ left right => left.nodes + right.nodes + 1

/-- The number of nodes of the slots of an array. -/
def slotsNodes : List (Option Operand) → Nat
  | [] => 0
  | none :: rest => slotsNodes rest
  | some o :: rest => o.nodes + slotsNodes rest

/-- The number of nodes of the entries of an object. -/
def entriesNodes : List (String × Operand) → Nat
  | [] => 0
  | (_, o) :: rest => o.nodes + entriesNodes rest
end

/-- The number of nodes of several operands. -/
def allNodes : List Operand → Nat
  | [] => 0
  | o :: rest => o.nodes + allNodes rest

theorem allNodes_cons (o : Operand) (os : List Operand) :
    allNodes (o :: os) = o.nodes + allNodes os := rfl

theorem allNodes_singleton (o : Operand) : allNodes [o] = o.nodes := rfl

end Operand

namespace Statement

/-- A statement counts as one, besides the nodes of its operands. -/
def size (s : Statement) : Nat :=
  Operand.allNodes s.operands + 1

/-- The size of several statements, without what is in their blocks. -/
def allSizes : List Statement → Nat
  | [] => 0
  | s :: rest => s.size + allSizes rest

/-- The size of code: that of its statements, in all blocks. -/
def codeSize (code : List Statement) : Nat :=
  allSizes (listingAll code)

section Size

variable (t : Nat) (o key callee receiver : Operand)

theorem size_assign : (assign t o).size = o.nodes + 1 :=
  congrArg (· + 1) (Operand.allNodes_singleton o)

theorem size_readContext (name : String) : (readContext t name).size = 1 := rfl

theorem size_readMember_named (name : String) :
    (readMember t o (.named name)).size = o.nodes + 1 :=
  congrArg (· + 1) (Operand.allNodes_singleton o)

theorem size_readMember_computed :
    (readMember t o (.computed key)).size = o.nodes + key.nodes + 1 := by
  rw [size, operands, Operand.allNodes_cons, Operand.allNodes_singleton]

theorem size_call (arguments : List Operand) : (call t callee receiver arguments).size =
    callee.nodes + (receiver.nodes + Operand.allNodes arguments) + 1 := by
  rw [size, operands, Operand.allNodes_cons, Operand.allNodes_cons]

theorem allSizes_append (c c' : List Statement) :
    allSizes (c ++ c') = allSizes c + allSizes c' := by
  induction c with
  | nil => exact (Nat.zero_add _).symm
  | cons s rest ih => rw [List.cons_append, allSizes, allSizes, ih, Nat.add_assoc]

theorem codeSize_nil : codeSize [] = 0 := rfl

theorem codeSize_append (c c' : List Statement) :
    codeSize (c ++ c') = codeSize c + codeSize c' := by
  rw [codeSize, listingAll_append, allSizes_append, ← codeSize, ← codeSize]

/-- A statement without blocks. -/
theorem codeSize_singleton {s : Statement} (h : s.target? = some t) : codeSize [s] = s.size := by
  rw [codeSize, listingAll_singleton, listing_of_target h, allSizes, allSizes, Nat.add_zero]

/-- A conditional counts its test and both of its blocks. -/
theorem codeSize_branch (a b : List Statement) :
    codeSize [.branch o a b] = o.nodes + 1 + (codeSize a + codeSize b) := by
  rw [codeSize, listingAll_singleton, listing, allSizes, allSizes_append, ← codeSize, ← codeSize,
    size, operands, Operand.allNodes_singleton]

end Size

end Statement

/-- The size of a routine: its statements in all blocks, and the nodes of all operands, that of the
result included. -/
def Routine.size (r : Routine) : Nat :=
  Statement.codeSize r.body + r.result.nodes

/-! ## Parts of lowered code -/

namespace Lowered

open Statement

/-- The code and what it leaves have together at most the given size, and the code takes at most
the given number of temporaries, from `j` on. -/
structure Costs {α : Type} (count : α → Nat) (size temps j : Nat) (l : Lowered α) : Prop where
  size : codeSize l.code + count l.value ≤ size
  temps : l.next ≤ j + temps

section Costs

variable {α β γ : Type} {count : α → Nat} {count' : β → Nat} {count'' : γ → Nat}
variable {n m t u j : Nat} {l : Lowered α} {l' : Lowered β} {base : Operand}

/-- More may be allowed. -/
theorem Costs.mono (h : l.Costs count n t j) (hn : n ≤ m) (ht : t ≤ u) : l.Costs count m u j :=
  ⟨Nat.le_trans h.size hn, Nat.le_trans h.temps (Nat.add_le_add_left ht j)⟩

/-- A value is made that has `k` nodes more. -/
theorem Costs.build (h : l.Costs count n t j) {f : α → β} {k : Nat}
    (hf : ∀ a, count' (f a) = count a + k) :
    Costs count' (n + k) t j ⟨l.code, f l.value, l.next⟩ := by
  refine ⟨?_, h.temps⟩
  show codeSize l.code + count' (f l.value) ≤ n + k
  rw [hf, ← Nat.add_assoc]
  exact Nat.add_le_add_right h.size k

/-- Parts in sequence, of which a value is made: what the second part costs may include the value of
the first. -/
theorem Costs.seq (h : l.Costs count n t j) {c : γ}
    (hsize : codeSize l'.code + count'' c ≤ count l.value + m) (htemps : l'.next ≤ l.next + u) :
    Costs count'' (n + m) (t + u) j ⟨l.code ++ l'.code, c, l'.next⟩ := by
  have hfirst := h.size
  have hfirstTemps := h.temps
  constructor
  · show codeSize (l.code ++ l'.code) + count'' c ≤ n + m
    rw [codeSize_append]
    omega
  · show l'.next ≤ j + (t + u)
    omega

/-- Parts in sequence, of which a value is made that has `k` nodes more. -/
theorem Costs.both (h : l.Costs count n t j) (h' : l'.Costs count' m u l.next) {f : α → β → γ}
    {k : Nat} (hf : ∀ a b, count'' (f a b) = count a + count' b + k) :
    Costs count'' (n + (m + k)) (t + u) j ⟨l.code ++ l'.code, f l.value l'.value, l'.next⟩ := by
  have hsecond := h'.size
  refine h.seq ?_ h'.temps
  rw [hf]
  omega

/-- A statement that makes a temporary, after other statements. -/
theorem Costs.emit {code : List Statement} {next : Nat} {s : Statement}
    (hsize : codeSize code + codeSize [s] + 1 ≤ n) (htemps : next + 1 ≤ j + t) :
    (emit code next s).Costs Operand.nodes n t j := by
  constructor
  · show codeSize (code ++ [s]) + 1 ≤ n
    rw [codeSize_append]
    exact hsize
  · exact htemps

/-- A copyable operand is a leaf, and making it takes an assignment at most. -/
theorem materialize_costs (o : Operand) (next : Nat) :
    codeSize (materialize o next).code ≤ o.nodes + 1 ∧ (materialize o next).value.nodes = 1 ∧
      (materialize o next).next ≤ next + 1 := by
  have hassign : codeSize [.assign next o] ≤ o.nodes + 1 := by
    rw [codeSize_singleton next rfl, size_assign]
  cases o with
  | literal value => exact ⟨Nat.zero_le _, rfl, Nat.le_succ _⟩
  | temp index => exact ⟨Nat.zero_le _, rfl, Nat.le_succ _⟩
  | context => exact ⟨Nat.zero_le _, rfl, Nat.le_succ _⟩
  | _ => exact ⟨hassign, rfl, Nat.le_refl _⟩

/-- A read under a computed key adds a conditional, its test and two leaves for the base. -/
theorem readComputed_costs {key : Lowered Operand} (hkey : key.Costs Operand.nodes n t j) :
    (readComputed base key).Costs Operand.nodes (base.nodes + n + 8) (t + 2) j := by
  have hsize := hkey.size
  have htemps := hkey.temps
  unfold readComputed
  split
  · refine .emit ?_ (by omega)
    rw [codeSize_nil, codeSize_singleton key.next rfl, size_readMember_computed]
    omega
  · -- the base is written three times, as a leaf
    obtain ⟨hcode, hleaf, hnext⟩ := materialize_costs base key.next
    refine .emit ?_ (by omega)
    rw [codeSize_branch, codeSize_append, codeSize_singleton _ rfl, size_readMember_computed,
      codeSize_nil, present, Operand.nodes, Operand.nodes, hleaf]
    omega

/-- A read of a member, where the name may be known without evaluating the key. -/
theorem readMember_costs (name? : Option String) {key : Nat → Lowered Operand} {next : Nat}
    (hkey : (key next).Costs Operand.nodes n t next) :
    (readMember base name? key next).Costs Operand.nodes (base.nodes + n + 8) (t + 2) next := by
  cases name? with
  | some name =>
    refine .emit ?_ (by omega)
    rw [codeSize_nil, codeSize_singleton next rfl, size_readMember_named]
    omega
  | none => exact readComputed_costs hkey

/-- A block adds an assignment. -/
theorem codeSize_block (e : Lowered Operand) (target : Nat) :
    codeSize (block target e) = codeSize e.code + e.value.nodes + 1 := by
  rw [block, codeSize_append, codeSize_singleton target rfl, size_assign, Nat.add_assoc]

/-- The number of nodes of a callee and its receiver. -/
def Target.nodes (t : Target) : Nat :=
  t.callee.nodes + t.receiver.nodes

/-- A callee without a receiver has a literal in its place. -/
theorem Costs.callee {l : Lowered Operand} (h : l.Costs Operand.nodes n t j) :
    l.withoutReceiver.Costs Target.nodes (n + 6) (t + 1) j := by
  have hnodes (o : Operand) : (Target.mk o (.literal .undefined)).nodes = o.nodes + 1 := rfl
  exact (h.build hnodes).mono (Nat.add_le_add_left (by decide) n) (Nat.le_succ t)

end Costs

end Lowered

/-! ## Lowered expressions -/

namespace Expression

open Lowered Statement

/-- Lowering the expression costs at most eight for each of its nodes, and two temporaries. -/
def LowersLinearly (e : Expression) : Prop :=
  ∀ next, (e.lower next).Costs Operand.nodes (8 * e.nodes) (2 * e.nodes) next

/-- Lowering the callee costs as much, and part of what the node of the call may cost. -/
def LowersCalleeLinearly (e : Expression) : Prop :=
  ∀ next, (e.lowerCallee next).Costs Target.nodes (8 * e.nodes + 6) (2 * e.nodes + 1) next

section Forms

variable {left right test consequent alternate base property callee : Expression}

/-- A name takes one statement. -/
theorem identifier_costs (name : String) :
    (identifier name).LowersLinearly ∧ (identifier name).LowersCalleeLinearly := by
  have hread (next : Nat) :
      (emit [] next (.readContext next name)).Costs Operand.nodes 2 1 next := by
    refine .emit ?_ (Nat.le_refl _)
    rw [codeSize_nil, codeSize_singleton next rfl, size_readContext]
  have hcallee (o : Operand) : (Target.mk o .context).nodes = o.nodes + 1 := rfl
  constructor
  · exact fun next => (hread next).mono (show 2 ≤ 8 by decide) (show 1 ≤ 2 by decide)
  · exact fun next => ((hread next).build hcallee).mono (show 3 ≤ 14 by decide)
      (show 1 ≤ 3 by decide)

/-- Two operands and the operator between them. -/
theorem binary_costs (operator : BinaryOp) (hleft : left.LowersLinearly)
    (hright : right.LowersLinearly) : (binary operator left right).LowersLinearly := by
  intro next
  have hnodes (l r : Operand) : (Operand.binary operator l r).nodes = l.nodes + r.nodes + 1 := rfl
  refine ((hleft next).both (hright _) hnodes).mono ?_ ?_ <;> rw [nodes] <;> omega

/-- A logical operator adds two assignments, a conditional and its test. -/
theorem logical_costs (operator : LogicalOp) (hleft : left.LowersLinearly)
    (hright : right.LowersLinearly) : (logical operator left right).LowersLinearly := by
  intro next
  obtain ⟨hl, hlnext⟩ := hleft (next + 1)
  obtain ⟨hr, hrnext⟩ := hright (left.lower (next + 1)).next
  have htest : (logicalTest operator (.temp next)).nodes ≤ 2 := by
    cases operator with
    | and => exact Nat.le_succ 1
    | or => exact Nat.le_refl 2
  constructor
  · show codeSize (block next _ ++ [.branch _ (block next _) []]) + 1 ≤ _
    rw [codeSize_append, codeSize_block, codeSize_branch, codeSize_block, codeSize_nil, nodes]
    omega
  · show (right.lower (left.lower (next + 1)).next).next ≤ _
    rw [nodes]
    omega

/-- A conditional adds a statement and an assignment in each of its blocks. -/
theorem conditional_costs (htest : test.LowersLinearly) (hconsequent : consequent.LowersLinearly)
    (halternate : alternate.LowersLinearly) :
    (conditional test consequent alternate).LowersLinearly := by
  intro next
  obtain ⟨ht, htnext⟩ := htest next
  obtain ⟨hc, hcnext⟩ := hconsequent ((test.lower next).next + 1)
  obtain ⟨ha, hanext⟩ := halternate (consequent.lower ((test.lower next).next + 1)).next
  constructor
  · show codeSize ((test.lower next).code ++ [.branch _ (block _ _) (block _ _)]) + 1 ≤ _
    rw [codeSize_append, codeSize_branch, codeSize_block, codeSize_block, nodes]
    omega
  · show (alternate.lower (consequent.lower ((test.lower next).next + 1)).next).next ≤ _
    rw [nodes]
    omega

/-- A member is its base and the read. -/
theorem member_costs (computed : Bool) (hbase : base.LowersLinearly)
    (hproperty : property.LowersLinearly) : (member base property computed).LowersLinearly := by
  intro next
  let b := base.lower next
  let m := readMember b.value (property.staticName? computed) property.lower b.next
  have hm : m.Costs Operand.nodes (b.value.nodes + 8 * property.nodes + 8)
    (2 * property.nodes + 2) b.next := readMember_costs _ (hproperty b.next)
  have hread : codeSize m.code + m.value.nodes ≤ b.value.nodes + (8 * property.nodes + 8) := by
    rw [← Nat.add_assoc]
    exact hm.size
  refine ((hbase next).seq hread hm.temps).mono ?_ ?_ <;> rw [nodes] <;> omega

/-- A method is read from a base that is kept for the call. -/
theorem method_costs (computed : Bool) (hbase : base.LowersLinearly)
    (hproperty : property.LowersLinearly) :
    (member base property computed).LowersCalleeLinearly := by
  intro next
  let b := base.lower next
  let o := materialize b.value b.next
  let m := readMember o.value (property.staticName? computed) property.lower o.next
  have hb : b.Costs Operand.nodes (8 * base.nodes) (2 * base.nodes) next := hbase next
  obtain ⟨hcode, hleaf, honext⟩ : codeSize o.code ≤ b.value.nodes + 1 ∧ o.value.nodes = 1 ∧
    o.next ≤ b.next + 1 := materialize_costs b.value b.next
  have hm : m.Costs Operand.nodes (o.value.nodes + 8 * property.nodes + 8) (2 * property.nodes + 2)
    o.next := readMember_costs _ (hproperty o.next)
  have hkept : Costs Operand.nodes (8 * base.nodes + 2) (2 * base.nodes + 1) next
      ⟨b.code ++ o.code, o.value, o.next⟩ := hb.seq (by omega) honext
  have hmethod : codeSize m.code + (Target.mk m.value o.value).nodes ≤
      o.value.nodes + (8 * property.nodes + 9) := by
    have hsize := hm.size
    show codeSize m.code + (m.value.nodes + o.value.nodes) ≤ _
    omega
  refine (hkept.seq hmethod hm.temps).mono ?_ ?_ <;> rw [nodes] <;> omega

/-- A call is its callee, its arguments and one statement. -/
theorem call_costs {arguments : List Expression} (hcallee : callee.LowersCalleeLinearly)
    (harguments : ∀ next, (lowerArguments arguments next).Costs Operand.allNodes
      (8 * argumentsNodes arguments) (2 * argumentsNodes arguments) next) :
    (call callee arguments).LowersLinearly := by
  intro next
  rw [lower_call]
  obtain ⟨hc, hcnext⟩ := hcallee next
  obtain ⟨ha, hanext⟩ := harguments (callee.lowerCallee next).next
  rw [Target.nodes] at hc
  refine .emit ?_ ?_
  · rw [codeSize_append, codeSize_singleton _ rfl, size_call, nodes]
    omega
  · rw [nodes]
    omega

end Forms

mutual
/-- **Lowering is linear in the number of nodes**, for values and for callees. -/
theorem lower_costs (e : Expression) : e.LowersLinearly ∧ e.LowersCalleeLinearly := by
  match e with
  | .literal value =>
    have h : (literal value).LowersLinearly :=
      fun next => ⟨show 1 ≤ 8 by decide, Nat.le_add_right _ _⟩
    exact ⟨h, fun next => (h next).callee⟩
  | .identifier name => exact identifier_costs name
  | .array elements =>
    have h : (array elements).LowersLinearly := fun next =>
      ((lowerElements_costs elements next).build fun vs => by rw [Operand.nodes]).mono
        (by rw [nodes]; omega) (by rw [nodes]; omega)
    exact ⟨h, fun next => (h next).callee⟩
  | .object properties =>
    have h : (object properties).LowersLinearly := fun next =>
      ((lowerProperties_costs properties next).build fun vs => by rw [Operand.nodes]).mono
        (by rw [nodes]; omega) (by rw [nodes]; omega)
    exact ⟨h, fun next => (h next).callee⟩
  | .unary operator argument =>
    have h : (unary operator argument).LowersLinearly := fun next =>
      (((lower_costs argument).1 next).build fun o => by rw [Operand.nodes]).mono
        (by rw [nodes]; omega) (by rw [nodes]; omega)
    exact ⟨h, fun next => (h next).callee⟩
  | .binary operator left right =>
    have h := binary_costs operator (lower_costs left).1 (lower_costs right).1
    exact ⟨h, fun next => (h next).callee⟩
  | .logical operator left right =>
    have h := logical_costs operator (lower_costs left).1 (lower_costs right).1
    exact ⟨h, fun next => (h next).callee⟩
  | .conditional test consequent alternate =>
    have h := conditional_costs (lower_costs test).1 (lower_costs consequent).1
      (lower_costs alternate).1
    exact ⟨h, fun next => (h next).callee⟩
  | .member base property computed =>
    have hbase := (lower_costs base).1
    have hproperty := (lower_costs property).1
    exact ⟨member_costs computed hbase hproperty, method_costs computed hbase hproperty⟩
  | .call callee arguments =>
    have h := call_costs (lower_costs callee).2 (lowerArguments_costs arguments)
    exact ⟨h, fun next => (h next).callee⟩

/-- The elements of an array are lowered one after the other. -/
theorem lowerElements_costs (es : List (Option Expression)) (next : Nat) :
    (lowerElements es next).Costs Operand.slotsNodes (8 * elementsNodes es)
      (2 * elementsNodes es) next := by
  match es with
  | [] => exact ⟨Nat.le_refl 0, Nat.le_refl next⟩
  | none :: rest =>
    have hmore := lowerElements_costs rest next
    exact ⟨hmore.size, hmore.temps⟩
  | some e :: rest =>
    have hnodes (o : Operand) (os : List (Option Operand)) :
        Operand.slotsNodes (some o :: os) = o.nodes + Operand.slotsNodes os + 0 := rfl
    refine (((lower_costs e).1 next).both (lowerElements_costs rest _) hnodes).mono ?_ ?_ <;>
      rw [elementsNodes] <;> omega

/-- The values of an object are lowered one after the other. -/
theorem lowerProperties_costs (ps : List (PropertyKey × Expression)) (next : Nat) :
    (lowerProperties ps next).Costs Operand.entriesNodes (8 * propertiesNodes ps)
      (2 * propertiesNodes ps) next := by
  match ps with
  | [] => exact ⟨Nat.le_refl 0, Nat.le_refl next⟩
  | (key, e) :: rest =>
    have hnodes (o : Operand) (os : List (String × Operand)) :
        Operand.entriesNodes ((key.name, o) :: os) = o.nodes + Operand.entriesNodes os + 0 := rfl
    refine (((lower_costs e).1 next).both (lowerProperties_costs rest _) hnodes).mono ?_ ?_ <;>
      rw [propertiesNodes] <;> omega

/-- Arguments are lowered one after the other. -/
theorem lowerArguments_costs (args : List Expression) (next : Nat) :
    (lowerArguments args next).Costs Operand.allNodes (8 * argumentsNodes args)
      (2 * argumentsNodes args) next := by
  match args with
  | [] => exact ⟨Nat.le_refl 0, Nat.le_refl next⟩
  | e :: rest =>
    have hnodes (o : Operand) (os : List Operand) :
        Operand.allNodes (o :: os) = o.nodes + Operand.allNodes os + 0 := Operand.allNodes_cons o os
    refine (((lower_costs e).1 next).both (lowerArguments_costs rest _) hnodes).mono ?_ ?_ <;>
      rw [argumentsNodes] <;> omega
end

end Expression

/-! ## Routines -/

namespace Routine

/-- Expressions in order: of those that are not the last one only the code is kept. -/
theorem lowerAll_costs (p : Program) (result : Operand) (next : Nat) :
    (lowerAll result next p).Costs Operand.nodes (result.nodes + 8 * p.nodes) (2 * p.nodes)
      next := by
  induction p generalizing result next with
  | nil =>
    have hcode : Statement.codeSize (lowerAll result next []).code = 0 := rfl
    refine ⟨?_, Nat.le_refl next⟩
    rw [hcode, Nat.zero_add]
    exact Nat.le_refl _
  | cons e rest ih =>
    have hnodes : Program.nodes (e :: rest) = e.nodes + Program.nodes rest := rfl
    obtain ⟨hrest, hresttemps⟩ := ih (e.lower next).value (e.lower next).next
    have h := ((Expression.lower_costs e).1 next).seq hrest hresttemps
    refine h.mono ?_ ?_ <;> rw [hnodes] <;> omega

/-- **Compiled code is linear in the size of the program.**  The statements of a routine, in all
blocks, and the nodes of all its operands are at most eight for each node of the program and one
more, and there are at most two temporaries for each node. -/
theorem ofProgram_size_le (p : Program) :
    (ofProgram p).size ≤ 8 * p.nodes + 1 ∧ (ofProgram p).declared.length ≤ 2 * p.nodes := by
  obtain ⟨hsize, htemps⟩ := lowerAll_costs p (.literal .undefined) 0
  constructor
  · rw [Nat.add_comm]
    exact hsize
  · show (List.range _).length ≤ _
    rw [List.length_range]
    omega

end Routine

end ExprSandbox
