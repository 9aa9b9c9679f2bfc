import ExprSandbox.Evaluator
import ExprSandbox.Proofs.Compilation
import ExprSandbox.Proofs.Limits
import ExprSandbox.Proofs.Occurrences

/-!
# The depth of compiled routines

Running and printing a routine recurse into its blocks, and from there into operands.  The depth
of code counts both: a statement behind `k` conditionals with an operand of height `n` makes for a
depth of `k + n`.  Lowered code is no deeper than its tree is high (`lower_within`): a block is
made by a node, which is one higher than what ends up inside the block, and the operands that
lowering adds of its own (tests and receivers) have parts that are temporaries or constants.

So the height limit of the parser bounds the depth of whatever is compiled (`ofProgram_shallow`).
-/

namespace ExprSandbox

/-! ## Heights of operands -/

namespace Operand

mutual
/-- The number of nodes on the longest path down the operand. -/
def height : Operand → Nat
  | .literal _ => 1
  | .temp _ => 1
  | .context => 1
  | .array slots => slotsHeight slots + 1
  | .object entries => entriesHeight entries + 1
  | .unary _ argument => argument.height + 1
  | .binary _ left right => max left.height right.height + 1

/-- The height of the highest slot of an array. -/
def slotsHeight : List (Option Operand) → Nat
  | [] => 0
  | none :: rest => slotsHeight rest
  | some o :: rest => max o.height (slotsHeight rest)

/-- The height of the highest entry of an object. -/
def entriesHeight : List (String × Operand) → Nat
  | [] => 0
  | (_, o) :: rest => max o.height (entriesHeight rest)
end

/-- The height of the highest operand. -/
def allHeight : List Operand → Nat
  | [] => 0
  | o :: rest => max o.height (allHeight rest)

/-- Every operand has a node. -/
theorem height_pos (o : Operand) : 0 < o.height := by
  cases o <;> simp [height]

/-- An operand among others is no higher than the highest one. -/
theorem height_le_allHeight {o : Operand} {os : List Operand} (h : o ∈ os) :
    o.height ≤ allHeight os := by
  induction os with
  | nil => cases h
  | cons first rest ih =>
    rw [allHeight]
    rcases List.mem_cons.mp h with rfl | h
    · exact Nat.le_max_left _ _
    · exact Nat.le_trans (ih h) (Nat.le_max_right _ _)

end Operand

/-! ## Statements in blocks -/

namespace Statement

/-- The statement lies inside `k` nested conditionals of the code. -/
inductive Inside (s : Statement) : Nat → List Statement → Prop
  | here {code : List Statement} (mem : s ∈ code) : Inside s 0 code
  | consequent {k : Nat} {code a b : List Statement} {test : Operand}
      (mem : .branch test a b ∈ code) (inner : Inside s k a) : Inside s (k + 1) code
  | alternate {k : Nat} {code a b : List Statement} {test : Operand}
      (mem : .branch test a b ∈ code) (inner : Inside s k b) : Inside s (k + 1) code

mutual
/-- The depth of a statement: that of its operands, and one more than that of its blocks. -/
def depth : Statement → Nat
  | .assign _ value => value.height
  | .readContext _ _ => 1
  | .readMember _ base (.named _) => base.height
  | .readMember _ base (.computed key) => max base.height key.height
  | .call _ callee receiver arguments =>
    max (max callee.height receiver.height) (Operand.allHeight arguments)
  | .branch test a b => max test.height (max (depthAll a) (depthAll b) + 1)

/-- The depth of code is that of its deepest statement. -/
def depthAll : List Statement → Nat
  | [] => 0
  | s :: rest => max s.depth (depthAll rest)
end

/-- The depth of code that is put together. -/
theorem depthAll_append (c c' : List Statement) :
    depthAll (c ++ c') = max (depthAll c) (depthAll c') := by
  induction c with
  | nil => simp [depthAll]
  | cons s rest ih => rw [List.cons_append, depthAll, depthAll, ih, Nat.max_assoc]

/-- The depth of a single statement. -/
theorem depthAll_singleton (s : Statement) : depthAll [s] = s.depth := by
  rw [depthAll, depthAll, Nat.max_zero]

/-- A statement is no deeper than the code that it is part of. -/
theorem depth_le_depthAll {s : Statement} {code : List Statement} (h : s ∈ code) :
    s.depth ≤ depthAll code := by
  induction code with
  | nil => cases h
  | cons first rest ih =>
    rw [depthAll]
    rcases List.mem_cons.mp h with rfl | h
    · exact Nat.le_max_left _ _
    · exact Nat.le_trans (ih h) (Nat.le_max_right _ _)

/-- An operand is no higher than its statement is deep. -/
theorem height_le_depth {s : Statement} {o : Operand} (h : o ∈ s.operands) :
    o.height ≤ s.depth := by
  cases s with
  | assign target value =>
    obtain rfl := List.mem_singleton.mp h
    exact Nat.le_refl _
  | readContext target name => cases h
  | readMember target base key =>
    cases key with
    | named name =>
      obtain rfl := List.mem_singleton.mp h
      exact Nat.le_refl _
    | computed key =>
      rcases List.mem_cons.mp h with rfl | h
      · exact Nat.le_max_left _ _
      · obtain rfl := List.mem_singleton.mp h
        exact Nat.le_max_right _ _
  | call target callee receiver arguments =>
    have hdepth : (call target callee receiver arguments).depth =
      max (max callee.height receiver.height) (Operand.allHeight arguments) := rfl
    rcases List.mem_cons.mp h with rfl | h
    · omega
    · rcases List.mem_cons.mp h with rfl | h
      · omega
      · have := Operand.height_le_allHeight h
        omega
  | branch test a b =>
    obtain rfl := List.mem_singleton.mp h
    exact Nat.le_max_left _ _

/-- Every statement takes a level. -/
theorem depth_pos (s : Statement) : 0 < s.depth := by
  cases s with
  | readContext target name => exact Nat.one_pos
  | assign target value => exact value.height_pos
  | readMember target base key =>
    have hbase : base ∈ (readMember target base key).operands := by cases key <;> simp [operands]
    exact Nat.lt_of_lt_of_le base.height_pos (height_le_depth hbase)
  | call target callee receiver arguments =>
    exact Nat.lt_of_lt_of_le callee.height_pos (height_le_depth List.mem_cons_self)
  | branch test a b =>
    exact Nat.lt_of_lt_of_le test.height_pos (height_le_depth List.mem_cons_self)

/-- **Each conditional around a statement adds a level.** -/
theorem Inside.depth_le {s : Statement} {k : Nat} {code : List Statement} (h : s.Inside k code) :
    k + s.depth ≤ depthAll code := by
  induction h with
  | here mem =>
    rw [Nat.zero_add]
    exact depth_le_depthAll mem
  | @consequent k code a b test mem inner ih =>
    have hle := depth_le_depthAll mem
    rw [depth] at hle
    omega
  | @alternate k code a b test mem inner ih =>
    have hle := depth_le_depthAll mem
    rw [depth] at hle
    omega

end Statement

/-- Block nesting and operand height together stay within `h`, all over the routine. -/
structure Routine.Shallow (r : Routine) (h : Nat) : Prop where
  /-- The operands of a statement that lies inside `k` conditionals are no higher than `h - k`. -/
  operands : ∀ k (s : Statement), s.Inside k r.body → ∀ o ∈ s.operands, k + o.height ≤ h
  /-- No statement lies inside `h` conditionals, not even one without operands. -/
  blocks : ∀ k (s : Statement), s.Inside k r.body → k < h
  /-- The result is no higher than `h`. -/
  result : r.result.height ≤ h

/-- Code that is no deeper than `h` and a result that is no higher. -/
theorem Routine.shallow_of_depth {r : Routine} {h : Nat} (hbody : Statement.depthAll r.body ≤ h)
    (hresult : r.result.height ≤ h) : r.Shallow h where
  operands k s hs o ho := by
    have hdepth := hs.depth_le
    have hheight := Statement.height_le_depth ho
    omega
  blocks k s hs := by
    have hdepth := hs.depth_le
    have hpos := s.depth_pos
    omega
  result := hresult

/-! ## Parts of lowered code -/

namespace Lowered

/-- The code is no deeper than `h`, and what it leaves is no higher. -/
structure Within {α : Type} (height : α → Nat) (h : Nat) (l : Lowered α) : Prop where
  code : Statement.depthAll l.code ≤ h
  value : height l.value ≤ h

section Within

variable {α : Type} {size : α → Nat} {h h' n : Nat} {base : Operand}

/-- A bound may be raised. -/
theorem Within.mono {l : Lowered α} (hl : l.Within size h) (hle : h ≤ h') : l.Within size h' :=
  ⟨Nat.le_trans hl.code hle, Nat.le_trans hl.value hle⟩

/-- A statement that makes a temporary, after other statements. -/
theorem within_emit {code : List Statement} {target : Nat} {s : Statement}
    (hcode : Statement.depthAll code ≤ h) (hs : s.depth ≤ h) :
    (emit code target s).Within Operand.height h where
  code := by
    show Statement.depthAll (code ++ [s]) ≤ h
    rw [Statement.depthAll_append, Statement.depthAll_singleton]
    exact Nat.max_le.mpr ⟨hcode, hs⟩
  value := Nat.le_trans s.depth_pos hs

/-- A copyable operand is a leaf, and the code for it is no deeper than the operand is high. -/
theorem materialize_depth (o : Operand) (next : Nat) :
    Statement.depthAll (materialize o next).code ≤ o.height ∧
      (materialize o next).value.height = 1 := by
  have hassign : Statement.depthAll [.assign next o] ≤ o.height :=
    Nat.le_of_eq (Statement.depthAll_singleton _)
  cases o with
  | literal value => exact ⟨Nat.zero_le _, rfl⟩
  | temp index => exact ⟨Nat.zero_le _, rfl⟩
  | context => exact ⟨Nat.zero_le _, rfl⟩
  | _ => exact ⟨hassign, rfl⟩

/-- A read under a computed key is one level above the base and the key. -/
theorem within_readComputed {key : Lowered Operand} (hbase : base.height ≤ h)
    (hkey : key.Within Operand.height h) :
    (readComputed base key).Within Operand.height (h + 1) := by
  have hvalue := hkey.value
  unfold readComputed
  split
  · refine within_emit (Nat.zero_le _) ?_
    rw [Statement.depth]
    omega
  · -- the code of the key moves into a block, behind a test of a leaf
    obtain ⟨hcode, hleaf⟩ := materialize_depth base key.next
    have hkeycode := hkey.code
    have hpos := base.height_pos
    refine within_emit (Nat.le_trans hcode (by omega)) ?_
    rw [Statement.depth, Statement.depthAll_append, Statement.depthAll_singleton, Statement.depth,
      present, Operand.height, Operand.height, hleaf, Statement.depthAll]
    omega

/-- A read is one level above the base and the key. -/
theorem within_readMember (name? : Option String) {key : Nat → Lowered Operand} {next : Nat}
    (hbase : base.height ≤ h) (hkey : (key next).Within Operand.height h) :
    (readMember base name? key next).Within Operand.height (h + 1) := by
  cases name? with
  | some name => exact within_emit (Nat.zero_le _) (Nat.le_succ_of_le hbase)
  | none => exact within_readComputed hbase hkey

/-- A block is as deep as the expression whose value it keeps. -/
theorem depthAll_block {e : Lowered Operand} (he : e.Within Operand.height h) (target : Nat) :
    Statement.depthAll (block target e) ≤ h := by
  rw [block, Statement.depthAll_append, Statement.depthAll_singleton]
  exact Nat.max_le.mpr ⟨he.code, he.value⟩

/-- A conditional is one level above its blocks. -/
theorem depth_branch {test : Operand} {a b : List Statement} (htest : test.height ≤ h + 1)
    (ha : Statement.depthAll a ≤ h) (hb : Statement.depthAll b ≤ h) :
    (Statement.branch test a b).depth ≤ h + 1 := by
  rw [Statement.depth]
  omega

/-- Code of two parts is as deep as the deeper one. -/
theorem depthAll_append_le {c c' : List Statement} (hc : Statement.depthAll c ≤ h)
    (hc' : Statement.depthAll c' ≤ h) : Statement.depthAll (c ++ c') ≤ h := by
  rw [Statement.depthAll_append]
  exact Nat.max_le.mpr ⟨hc, hc'⟩

/-- The height of a callee and its receiver. -/
def Target.height (t : Target) : Nat :=
  max t.callee.height t.receiver.height

/-- A callee without a receiver is as high as its expression. -/
theorem Within.callee {l : Lowered Operand} (hl : l.Within Operand.height h) :
    (⟨l.code, ⟨l.value, .literal .undefined⟩, l.next⟩ : Lowered Target).Within Target.height h where
  code := hl.code
  value := Nat.max_le.mpr ⟨hl.value, Nat.le_trans l.value.height_pos hl.value⟩

end Within

end Lowered

/-! ## Lowered expressions -/

namespace Expression

open Lowered

/-- The lowered code of the expression is no deeper than the expression is high, wherever its
temporaries start. -/
def LowersWithin (e : Expression) : Prop :=
  ∀ next, (e.lower next).Within Operand.height e.height

/-- The lowered code of the callee is no deeper than the expression is high. -/
def LowersCalleeWithin (e : Expression) : Prop :=
  ∀ next, (e.lowerCallee next).Within Target.height e.height

section Forms

variable {e left right test consequent alternate base property callee : Expression}

/-- A name takes one statement. -/
theorem identifier_within (name : String) :
    (identifier name).LowersWithin ∧ (identifier name).LowersCalleeWithin := by
  constructor
  · exact fun next => within_emit (Nat.zero_le _) (Nat.le_refl 1)
  · intro next
    have hname : (emit [] next (.readContext next name)).Within Operand.height 1 :=
      within_emit (Nat.zero_le _) (Nat.le_refl 1)
    exact ⟨hname.code, Nat.le_refl 1⟩

/-- Two operands and the operator between them. -/
theorem binary_within (operator : BinaryOp) (hleft : left.LowersWithin)
    (hright : right.LowersWithin) : (binary operator left right).LowersWithin := by
  intro next
  have hl := (hleft next).mono (Nat.le_max_left _ right.height)
  have hr := (hright (left.lower next).next).mono (Nat.le_max_right left.height _)
  constructor
  · exact Nat.le_succ_of_le (depthAll_append_le hl.code hr.code)
  · exact Nat.succ_le_succ (Nat.max_le.mpr ⟨hl.value, hr.value⟩)

/-- The right operand of a logical operator is in a block, and the left one is not. -/
theorem logical_within (operator : LogicalOp) (hleft : left.LowersWithin)
    (hright : right.LowersWithin) : (logical operator left right).LowersWithin := by
  intro next
  have hl := depthAll_block (hleft (next + 1)) next
  have hr := depthAll_block (hright (left.lower (next + 1)).next) next
  have hpos := right.height_pos
  -- `!` makes the test one higher than a temporary, as the node is one higher than a leaf
  have htest : (logicalTest operator (.temp next)).height ≤ 2 := by
    cases operator with
    | and => exact Nat.le_succ 1
    | or => exact Nat.le_refl 2
  have hbranch := depth_branch (h := right.height) (Nat.le_trans htest (by omega)) hr
    (b := []) (Nat.zero_le _)
  constructor
  · show Statement.depthAll (block next _ ++ [_]) ≤ max left.height right.height + 1
    rw [Statement.depthAll_append, Statement.depthAll_singleton]
    omega
  · exact Nat.succ_le_succ (Nat.zero_le _)

/-- Both branches of a conditional are in blocks. -/
theorem conditional_within (htest : test.LowersWithin) (hconsequent : consequent.LowersWithin)
    (halternate : alternate.LowersWithin) :
    (conditional test consequent alternate).LowersWithin := by
  intro next
  have ht := htest next
  have hc := hconsequent ((test.lower next).next + 1)
  have ha := halternate (consequent.lower ((test.lower next).next + 1)).next
  have hcode := ht.code
  let h := max (max test.height consequent.height) alternate.height
  have hbranch := depth_branch (h := h) (Nat.le_trans ht.value (by omega))
    (depthAll_block (hc.mono (by omega)) (test.lower next).next)
    (depthAll_block (ha.mono (by omega)) (test.lower next).next)
  constructor
  · show Statement.depthAll ((test.lower next).code ++ [_]) ≤ h + 1
    rw [Statement.depthAll_append, Statement.depthAll_singleton]
    omega
  · exact Nat.succ_le_succ (Nat.zero_le _)

/-- A member is read one level above its base and its key. -/
theorem member_within (computed : Bool) (hbase : base.LowersWithin)
    (hproperty : property.LowersWithin) : (member base property computed).LowersWithin := by
  intro next
  have hb := (hbase next).mono (Nat.le_max_left _ property.height)
  have hp := (hproperty (base.lower next).next).mono (Nat.le_max_right base.height _)
  have hread := within_readMember (property.staticName? computed) hb.value hp
  exact ⟨depthAll_append_le (Nat.le_succ_of_le hb.code) hread.code, hread.value⟩

/-- A method is read from a base that is kept for the call. -/
theorem method_within (computed : Bool) (hbase : base.LowersWithin)
    (hproperty : property.LowersWithin) : (member base property computed).LowersCalleeWithin := by
  intro next
  have hb := (hbase next).mono (Nat.le_max_left _ property.height)
  let o := materialize (base.lower next).value (base.lower next).next
  obtain ⟨hcode, hleaf⟩ := materialize_depth (base.lower next).value (base.lower next).next
  have hp := (hproperty o.next).mono (Nat.le_max_right base.height _)
  have hpos := Nat.le_trans property.height_pos (Nat.le_max_right base.height _)
  have hread := within_readMember (property.staticName? computed) (hleaf.trans_le hpos) hp
  have hkept := depthAll_append_le hb.code (Nat.le_trans hcode hb.value)
  constructor
  · exact depthAll_append_le (Nat.le_succ_of_le hkept) hread.code
  · exact Nat.max_le.mpr ⟨hread.value, hleaf.trans_le (Nat.succ_le_succ (Nat.zero_le _))⟩

/-- A call is as deep as its callee and its arguments. -/
theorem call_within {arguments : List Expression} (hcallee : callee.LowersCalleeWithin)
    (harguments : ∀ next, (lowerArguments arguments next).Within Operand.allHeight
      (argumentsHeight arguments)) : (call callee arguments).LowersWithin := by
  intro next
  rw [lower_call]
  have hc := (hcallee next).mono (Nat.le_max_left _ (argumentsHeight arguments))
  have ha := (harguments (callee.lowerCallee next).next).mono (Nat.le_max_right callee.height _)
  refine within_emit (Nat.le_succ_of_le (depthAll_append_le hc.code ha.code)) ?_
  exact Nat.le_succ_of_le (Nat.max_le.mpr ⟨hc.value, ha.value⟩)

end Forms

mutual
/-- **Lowered code is no deeper than its tree is high**, as a value and as a callee. -/
theorem lower_within (e : Expression) : e.LowersWithin ∧ e.LowersCalleeWithin := by
  match e with
  | .literal value =>
    have h : (literal value).LowersWithin := fun next => ⟨Nat.zero_le _, Nat.le_refl 1⟩
    exact ⟨h, fun next => (h next).callee⟩
  | .identifier name => exact identifier_within name
  | .array elements =>
    have h : (array elements).LowersWithin := fun next =>
      have hes := lowerElements_within elements next
      ⟨Nat.le_succ_of_le hes.code, Nat.succ_le_succ hes.value⟩
    exact ⟨h, fun next => (h next).callee⟩
  | .object properties =>
    have h : (object properties).LowersWithin := fun next =>
      have hps := lowerProperties_within properties next
      ⟨Nat.le_succ_of_le hps.code, Nat.succ_le_succ hps.value⟩
    exact ⟨h, fun next => (h next).callee⟩
  | .unary operator argument =>
    have h : (unary operator argument).LowersWithin := fun next =>
      have ha := (lower_within argument).1 next
      ⟨Nat.le_succ_of_le ha.code, Nat.succ_le_succ ha.value⟩
    exact ⟨h, fun next => (h next).callee⟩
  | .binary operator left right =>
    have h := binary_within operator (lower_within left).1 (lower_within right).1
    exact ⟨h, fun next => (h next).callee⟩
  | .logical operator left right =>
    have h := logical_within operator (lower_within left).1 (lower_within right).1
    exact ⟨h, fun next => (h next).callee⟩
  | .conditional test consequent alternate =>
    have h := conditional_within (lower_within test).1 (lower_within consequent).1
      (lower_within alternate).1
    exact ⟨h, fun next => (h next).callee⟩
  | .member base property computed =>
    have hbase := (lower_within base).1
    have hproperty := (lower_within property).1
    exact ⟨member_within computed hbase hproperty, method_within computed hbase hproperty⟩
  | .call callee arguments =>
    have h := call_within (lower_within callee).2 (lowerArguments_within arguments)
    exact ⟨h, fun next => (h next).callee⟩

/-- The elements of an array are as deep as the highest one. -/
theorem lowerElements_within (es : List (Option Expression)) (next : Nat) :
    (lowerElements es next).Within Operand.slotsHeight (elementsHeight es) := by
  match es with
  | [] => exact ⟨Nat.le_refl 0, Nat.le_refl 0⟩
  | none :: rest =>
    have hmore := lowerElements_within rest next
    exact ⟨hmore.code, hmore.value⟩
  | some e :: rest =>
    have hfirst := ((lower_within e).1 next).mono (Nat.le_max_left _ (elementsHeight rest))
    have hmore := (lowerElements_within rest (e.lower next).next).mono (Nat.le_max_right e.height _)
    exact ⟨depthAll_append_le hfirst.code hmore.code,
      Nat.max_le.mpr ⟨hfirst.value, hmore.value⟩⟩

/-- The values of an object are as deep as the highest one. -/
theorem lowerProperties_within (ps : List (PropertyKey × Expression)) (next : Nat) :
    (lowerProperties ps next).Within Operand.entriesHeight (propertiesHeight ps) := by
  match ps with
  | [] => exact ⟨Nat.le_refl 0, Nat.le_refl 0⟩
  | (key, e) :: rest =>
    have hfirst := ((lower_within e).1 next).mono (Nat.le_max_left _ (propertiesHeight rest))
    have hmore := (lowerProperties_within rest (e.lower next).next).mono
      (Nat.le_max_right e.height _)
    exact ⟨depthAll_append_le hfirst.code hmore.code,
      Nat.max_le.mpr ⟨hfirst.value, hmore.value⟩⟩

/-- Arguments are as deep as the highest one. -/
theorem lowerArguments_within (args : List Expression) (next : Nat) :
    (lowerArguments args next).Within Operand.allHeight (argumentsHeight args) := by
  match args with
  | [] => exact ⟨Nat.le_refl 0, Nat.le_refl 0⟩
  | e :: rest =>
    have hfirst := ((lower_within e).1 next).mono (Nat.le_max_left _ (argumentsHeight rest))
    have hmore := (lowerArguments_within rest (e.lower next).next).mono
      (Nat.le_max_right e.height _)
    exact ⟨depthAll_append_le hfirst.code hmore.code,
      Nat.max_le.mpr ⟨hfirst.value, hmore.value⟩⟩
end

end Expression

/-! ## Routines -/

/-- Expressions in order are as deep as the highest of them, and the last one gives the result. -/
theorem Routine.lowerAll_within {p : Program} {h : Nat} (hp : ∀ e ∈ p, e.height ≤ h)
    (result : Operand) (hresult : result.height ≤ h) (next : Nat) :
    (lowerAll result next p).Within Operand.height h := by
  induction p generalizing result next with
  | nil => exact ⟨Nat.zero_le _, hresult⟩
  | cons e rest ih =>
    obtain ⟨he, hrest⟩ := List.forall_mem_cons.mp hp
    have hfirst := ((Expression.lower_within e).1 next).mono he
    have hmore := ih hrest (e.lower next).value hfirst.value (e.lower next).next
    exact ⟨Lowered.depthAll_append_le hfirst.code hmore.code, hmore.value⟩

/-- The trees of a program that was read are no higher than the limit. -/
theorem Parser.height_le_of_program {limits : Limits} {ts : List Token} {p : Program}
    (h : program limits ts = .ok p) (hone : 1 ≤ limits.height) :
    ∀ e ∈ p, e.height ≤ limits.height := by
  -- one height more changes nothing, and coming down from it again is a matter of the heights
  have hstays : program ⟨limits.depth, limits.height + 1⟩ ts = program limits ts :=
    program_of_le (Nat.le_refl _) (Nat.le_succ _) (by rw [h]; exact nofun)
  have hmore := hstays.trans h
  have hback := program_of_lower hmore (Nat.lt_succ_self _) hone
  rw [h] at hback
  split at hback
  · next hall => exact hall
  · cases hback

/-- A source compiles if it has tokens and these are read as a program. -/
theorem Evaluator.ofSource_eq_ok_iff {options : Options} {source : String} {ev : Evaluator} :
    ofSource options source = .ok ev ↔ ∃ ts p, Lexer.tokenize source = .ok ts ∧
      Parser.program options.limits ts = .ok p ∧ ev = ofProgram options.denied p := by
  unfold ofSource Program.ofSource
  cases htokens : Lexer.tokenize source with
  | error e => simp [Except.mapError, Except.map, bind, Except.bind]
  | ok ts =>
    cases hp : Parser.program options.limits ts with
    | error e => simp [Except.mapError, Except.map, bind, Except.bind, hp]
    | ok p => simp [Except.mapError, Except.map, bind, Except.bind, hp, eq_comm]

/-- **The height limit bounds the depth of what is compiled**: of the routine of every program
whose trees are no higher, and so of the routine of every source that is read within the limit. -/
theorem ofProgram_shallow :
    (∀ (p : Program) (h : Nat), 1 ≤ h → (∀ e ∈ p, e.height ≤ h) →
      (Routine.ofProgram p).Shallow h) ∧
    ∀ (options : Options) (source : String) (ev : Evaluator), 1 ≤ options.limits.height →
      Evaluator.ofSource options source = .ok ev → ev.routine.Shallow options.limits.height := by
  have hprogram : ∀ (p : Program) (h : Nat), 1 ≤ h → (∀ e ∈ p, e.height ≤ h) →
      (Routine.ofProgram p).Shallow h := by
    intro p h hone hp
    have hwithin := Routine.lowerAll_within hp (.literal .undefined) hone 0
    exact Routine.shallow_of_depth hwithin.code hwithin.value
  refine ⟨hprogram, fun options source ev hone hev => ?_⟩
  obtain ⟨ts, p, -, hp, rfl⟩ := Evaluator.ofSource_eq_ok_iff.mp hev
  exact hprogram p options.limits.height hone (Parser.height_le_of_program hp hone)

/-- `a[b || c]`: the code of the key lies in a block, and that of `c` in a block inside it. -/
theorem ofProgram_shallow_key :
    let e : Expression := .member (.identifier "a")
      (.logical .or (.identifier "b") (.identifier "c")) true
    let options : Options := ⟨⟨64, 3⟩, .standard⟩
    Evaluator.ofSource options "a[b||c]" = .ok (.ofProgram .standard [e]) ∧
      Statement.Inside (.readContext 3 "c") 2 (Routine.ofProgram [e]).body ∧
      (Routine.ofProgram [e]).Shallow 3 := by
  intro e options
  have htokens : Lexer.tokenize "a[b||c]" = .ok [⟨"a", .identifier, 0⟩, ⟨"[", .punctuation, 1⟩,
      ⟨"b", .identifier, 2⟩, ⟨"||", .punctuation, 3⟩, ⟨"c", .identifier, 5⟩,
      ⟨"]", .punctuation, 6⟩] := by with_unfolding_all rfl
  have hsource : Evaluator.ofSource options "a[b||c]" = .ok (.ofProgram .standard [e]) :=
    Evaluator.ofSource_eq_ok_iff.mpr ⟨_, [e], htokens, by with_unfolding_all rfl, rfl⟩
  have hbody : (Routine.ofProgram [e]).body = [.readContext 0 "a",
      .branch (.binary .notEqual (.temp 0) (.literal .null)) [.readContext 2 "b",
        .assign 1 (.temp 2), .branch (.unary .not (.temp 1)) [.readContext 3 "c",
          .assign 1 (.temp 3)] [], .readMember 4 (.temp 0) (.computed (.temp 1))] []] := rfl
  have hinside : Statement.Inside (.readContext 3 "c") 2 (Routine.ofProgram [e]).body := by
    rw [hbody]
    exact .consequent (.tail _ (.head _))
      (.consequent (.tail _ (.tail _ (.head _))) (.here (.head _)))
  exact ⟨hsource, hinside, ofProgram_shallow.2 options _ _ (by decide) hsource⟩

end ExprSandbox
