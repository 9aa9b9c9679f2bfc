import ExprSandbox.Proofs.Compilation

/-!
# Lowering by writing

Lowered code is described by what an expression gives, wherever its temporaries start.  It can as
well be written, statement by statement, into a routine that grows: a temporary is declared when
it is taken, a statement goes to the end of the current block, and a block is written by putting
the current one aside and taking it back afterwards.  Both come to the same routine
(`Assembly.routine_eq_ofProgram`); in particular the declared temporaries, which are collected
one by one here, are an initial piece of the numbers.
-/

namespace ExprSandbox

/-- What has been written of a routine: the temporary that is taken next, those that have been
declared, and the statements of the current block. -/
structure Assembly where
  next : Nat
  declared : List Nat
  body : List Statement

/-- A computation that goes on writing a routine. -/
abbrev Assembler (α : Type) :=
  StateM Assembly α

/-! ## Writing -/

namespace Assembler

variable {α : Type}

/-- Takes a temporary and declares it. -/
def temp : Assembler Nat := fun a =>
  (a.next, { a with next := a.next + 1, declared := a.declared ++ [a.next] })

/-- Writes a statement at the end of the current block. -/
def write (s : Statement) : Assembler Unit := fun a =>
  ((), { a with body := a.body ++ [s] })

/-- Writes a block of its own, and returns it. -/
def apart (m : Assembler α) : Assembler (α × List Statement) := fun a =>
  let r := m { a with body := [] }
  ((r.1, r.2.body), { r.2 with body := a.body })

/-- Writes a statement that puts a value into a temporary, which is taken for it. -/
def make (s : Nat → Statement) : Assembler Operand := do
  let target ← temp
  write (s target)
  return .temp target

/-- Writes what puts a value into a temporary that was taken before. -/
def assign (target : Nat) (value : Assembler Operand) : Assembler Unit := do
  let v ← value
  write (.assign target v)

/-- Writes what makes an operand copyable. -/
def materialize (o : Operand) : Assembler Operand :=
  match o with
  | .literal _ => return o
  | .temp _ => return o
  | .context => return o
  | o => make fun target => .assign target o

/-- Writes the read under a computed key that was written into a block of its own; if the block
has statements, it goes behind the test of the base. -/
def readComputed (base : Operand) (key : Operand × List Statement) : Assembler Operand :=
  if key.2.isEmpty then make fun target => .readMember target base (.computed key.1)
  else do
    let base ← materialize base
    make fun target => .branch (Lowered.present base)
      (key.2 ++ [.readMember target base (.computed key.1)]) []

/-- Writes the read of a member. -/
def readMember (base : Operand) (name? : Option String) (key : Assembler Operand) :
    Assembler Operand :=
  match name? with
  | some name => make fun target => .readMember target base (.named name)
  | none => do readComputed base (← apart key)

end Assembler

namespace Expression

open Assembler

mutual
/-- Writes the statements of an expression, and returns its value. -/
def assemble (e : Expression) : Assembler Operand :=
  match e with
  | .literal value => return .literal value
  | .identifier name => make fun target => .readContext target name
  | .array elements => return .array (← assembleElements elements)
  | .object properties => return .object (← assembleProperties properties)
  | .unary operator argument => return .unary operator (← argument.assemble)
  | .binary operator left right => do
    let l ← left.assemble
    return .binary operator l (← right.assemble)
  | .logical operator left right => do
    let target ← temp
    Assembler.assign target left.assemble
    let consequent ← apart (Assembler.assign target right.assemble)
    write (.branch (Lowered.logicalTest operator (.temp target)) consequent.2 [])
    return .temp target
  | .conditional test consequent alternate => do
    let t ← test.assemble
    let target ← temp
    let c ← apart (Assembler.assign target consequent.assemble)
    let a ← apart (Assembler.assign target alternate.assemble)
    write (.branch t c.2 a.2)
    return .temp target
  | .member base property computed => do
    let b ← base.assemble
    readMember b (property.staticName? computed) property.assemble
  | .call callee arguments => do
    let target : Assembler Lowered.Target :=
      match callee with
      | .member base property computed => do
        let b ← base.assemble
        let o ← materialize b
        let m ← readMember o (property.staticName? computed) property.assemble
        return ⟨m, o⟩
      | .identifier name => return ⟨← make fun target => .readContext target name, .context⟩
      | callee => return ⟨← callee.assemble, .literal .undefined⟩
    let t ← target
    let args ← assembleArguments arguments
    make fun target => .call target t.callee t.receiver args

/-- Writes the elements of an array from left to right. -/
def assembleElements (elements : List (Option Expression)) : Assembler (List (Option Operand)) :=
  match elements with
  | [] => return []
  | none :: rest => return none :: (← assembleElements rest)
  | some e :: rest => do
    let first ← e.assemble
    return some first :: (← assembleElements rest)

/-- Writes the values of an object from left to right. -/
def assembleProperties (properties : List (PropertyKey × Expression)) :
    Assembler (List (String × Operand)) :=
  match properties with
  | [] => return []
  | (key, e) :: rest => do
    let first ← e.assemble
    return (key.name, first) :: (← assembleProperties rest)

/-- Writes arguments from left to right. -/
def assembleArguments (arguments : List Expression) : Assembler (List Operand) :=
  match arguments with
  | [] => return []
  | e :: rest => do
    let first ← e.assemble
    return first :: (← assembleArguments rest)
end

end Expression

namespace Assembly

/-- Writes expressions one after the other; the last one gives the value, and `result` does when
there is none. -/
def assembleAll (result : Operand) : Program → Assembler Operand
  | [] => return result
  | e :: rest => do assembleAll (← e.assemble) rest

/-- The routine that is written for a program. -/
def routine (p : Program) : Routine :=
  let r := assembleAll (.literal .undefined) p ⟨0, [], []⟩
  ⟨r.2.declared, r.2.body, r.1⟩

/-! ## What is written -/

/-- The assembly after lowered code was written: every temporary that the code takes is declared,
in order. -/
def extend {α : Type} (a : Assembly) (l : Lowered α) : Assembly :=
  ⟨l.next, a.declared ++ List.range' a.next (l.next - a.next), a.body ++ l.code⟩

end Assembly

namespace Lowered

variable {α β : Type}

/-- Code in sequence: what is lowered second knows the value of the first. -/
def bind (l : Nat → Lowered α) (k : α → Nat → Lowered β) (next : Nat) : Lowered β :=
  let first := l next
  let second := k first.value first.next
  ⟨first.code ++ second.code, second.value, second.next⟩

/-- Lowered code, with something else made of its value. -/
def map (f : α → β) (l : Nat → Lowered α) (next : Nat) : Lowered β :=
  ⟨(l next).code, f (l next).value, (l next).next⟩

end Lowered

/-- Writing comes to what is lowered, and gives no temporary back. -/
def Assembler.Writes {α : Type} (m : Assembler α) (l : Nat → Lowered α) : Prop :=
  ∀ a : Assembly, a.next ≤ (l a.next).next ∧ m a = ((l a.next).value, a.extend (l a.next))

namespace Assembler

section Writes

variable {α β : Type} {m : Assembler α} {l : Nat → Lowered α}

/-- Nothing is written for a value that is there. -/
theorem writes_pure (x : α) : Writes (pure x) (Lowered.pure x) := by
  intro a
  refine ⟨le_refl _, Prod.ext rfl ?_⟩
  show a = a.extend (Lowered.pure x a.next)
  simp [Assembly.extend, Lowered.pure]

/-- A temporary is declared and no statement written. -/
theorem writes_temp : Writes temp fun next => ⟨[], next, next + 1⟩ := by
  intro a
  refine ⟨Nat.le_succ _, Prod.ext rfl ?_⟩
  simp [temp, Assembly.extend]

/-- A statement is written and no temporary declared. -/
theorem writes_write (s : Statement) : Writes (write s) fun next => ⟨[s], (), next⟩ := by
  intro a
  refine ⟨le_refl _, Prod.ext rfl ?_⟩
  simp [write, Assembly.extend]

/-- **What is written in sequence**: the temporaries of both parts are consecutive. -/
theorem Writes.bind (h : Writes m l) {k : α → Assembler β} {l' : α → Nat → Lowered β}
    (hk : ∀ x, Writes (k x) (l' x)) : Writes (m >>= k) (Lowered.bind l l') := by
  intro a
  obtain ⟨hle, hm⟩ := h a
  obtain ⟨hle', hm'⟩ := hk (l a.next).value (a.extend (l a.next))
  change (l a.next).next ≤ (l' _ (l a.next).next).next at hle'
  refine ⟨le_trans hle hle', ?_⟩
  show k (m a).1 (m a).2 = _
  rw [hm, hm']
  refine Prod.ext rfl ?_
  -- the intervals of both parts touch
  have hrange := List.range'_append_1 (s := a.next) (m := (l a.next).next - a.next)
    (n := (l' (l a.next).value (l a.next).next).next - (l a.next).next)
  rw [Nat.add_sub_cancel' hle, Nat.add_comm, Nat.sub_add_sub_cancel hle' hle] at hrange
  simp only [Assembly.extend, Lowered.bind, List.append_assoc, hrange]

/-- Something else is made of what is returned. -/
theorem Writes.map (h : Writes m l) (f : α → β) :
    Writes (m >>= fun x => pure (f x)) (Lowered.map f l) := by
  intro a
  obtain ⟨hle, hm⟩ := h a
  refine ⟨hle, ?_⟩
  show (f (m a).1, (m a).2) = _
  rw [hm]
  rfl

/-- What is written into a block leaves the current one as it was. -/
theorem Writes.apart (h : Writes m l) :
    Writes (apart m) fun next => ⟨[], ((l next).value, (l next).code), (l next).next⟩ := by
  intro a
  obtain ⟨hle, hm⟩ := h { a with body := [] }
  refine ⟨hle, ?_⟩
  rw [Assembler.apart, hm]
  simp [Assembly.extend]

/-- The same code, described in another way. -/
theorem Writes.congr (h : Writes m l) {l' : Nat → Lowered α} (hl : ∀ next, l next = l' next) :
    Writes m l' :=
  funext hl ▸ h

/-- A statement with a temporary of its own. -/
theorem writes_make (s : Nat → Statement) :
    Writes (make s) fun next => Lowered.emit [] next (s next) :=
  writes_temp.bind fun target => (writes_write (s target)).bind fun _ => writes_pure _

/-- A block for the value of an expression. -/
theorem writes_assign {m : Assembler Operand} {l : Nat → Lowered Operand} (h : Writes m l)
    (target : Nat) :
    Writes (assign target m) fun next => ⟨Lowered.block target (l next), (), (l next).next⟩ :=
  h.bind fun v => writes_write (.assign target v)

/-- What makes an operand copyable. -/
theorem writes_materialize (o : Operand) : Writes (materialize o) (Lowered.materialize o) := by
  cases o with
  | literal value => exact writes_pure _
  | temp index => exact writes_pure _
  | context => exact writes_pure _
  | _ => exact writes_make _

/-- The read under a computed key. -/
theorem writes_readComputed (base : Operand) (key : Operand × List Statement) :
    Writes (readComputed base key) fun next =>
      Lowered.readComputed base ⟨key.2, key.1, next⟩ := by
  unfold readComputed Lowered.readComputed
  split
  · exact writes_make _
  · refine ((writes_materialize base).bind fun o => writes_make _).congr fun next => ?_
    simp only [Lowered.bind, Lowered.emit, List.nil_append]

/-- The read of a member. -/
theorem writes_readMember (base : Operand) (name? : Option String) {key : Assembler Operand}
    {l : Nat → Lowered Operand} (h : Writes key l) :
    Writes (readMember base name? key) (Lowered.readMember base name? l) := by
  cases name? with
  | some name => exact writes_make _
  | none => exact h.apart.bind fun k => writes_readComputed base k

end Writes

end Assembler

/-! ## Expressions -/

namespace Expression

open Assembler

/-- Writes a callee with its receiver. -/
def assembleCallee (callee : Expression) : Assembler Lowered.Target :=
  match callee with
  | .member base property computed => do
    let b ← base.assemble
    let o ← materialize b
    let m ← readMember o (property.staticName? computed) property.assemble
    return ⟨m, o⟩
  | .identifier name => return ⟨← make fun target => .readContext target name, .context⟩
  | callee => return ⟨← callee.assemble, .literal .undefined⟩

/-- A call is written in the order callee, arguments, call. -/
theorem assemble_call (callee : Expression) (arguments : List Expression) :
    (call callee arguments).assemble = (do
      let t ← callee.assembleCallee
      let args ← assembleArguments arguments
      make fun target => .call target t.callee t.receiver args) := by
  cases callee <;> rfl

section Forms

variable {e left right test consequent alternate base property : Expression}

/-- The code of the expression is written as it is lowered. -/
def WritesLowered (e : Expression) : Prop :=
  Writes e.assemble e.lower

/-- The code of the callee is written as it is lowered. -/
def WritesCallee (e : Expression) : Prop :=
  Writes e.assembleCallee e.lowerCallee

/-- An expression that is no name and no member is called without a receiver. -/
theorem WritesLowered.callee (h : e.WritesLowered) (hidentifier : ∀ name, e ≠ .identifier name)
    (hmember : ∀ base property computed, e ≠ .member base property computed) :
    e.WritesCallee := by
  cases e with
  | identifier name => exact absurd rfl (hidentifier name)
  | member base property computed => exact absurd rfl (hmember base property computed)
  | _ => exact Writes.map h _

/-- A name is one statement. -/
theorem writes_identifier (name : String) :
    (identifier name).WritesLowered ∧ (identifier name).WritesCallee :=
  ⟨writes_make _, (writes_make _).map _⟩

/-- Two operands and the operator between them. -/
theorem writes_binary (operator : BinaryOp) (hleft : left.WritesLowered)
    (hright : right.WritesLowered) : (binary operator left right).WritesLowered :=
  Writes.bind hleft fun _ => Writes.map hright _

/-- The target of a logical operator is declared first. -/
theorem writes_logical (operator : LogicalOp) (hleft : left.WritesLowered)
    (hright : right.WritesLowered) : (logical operator left right).WritesLowered := by
  have h := writes_temp.bind fun target => (writes_assign hleft target).bind fun _ =>
    (writes_assign hright target).apart.bind fun consequent =>
      (writes_write (.branch (Lowered.logicalTest operator (.temp target)) consequent.2 [])).bind
        fun _ => writes_pure (Operand.temp target)
  refine h.congr fun next => ?_
  simp only [Lowered.bind, Lowered.pure, List.nil_append, List.append_nil]
  rfl

/-- The target of a conditional is declared before the temporaries of its branches. -/
theorem writes_conditional (htest : test.WritesLowered) (hconsequent : consequent.WritesLowered)
    (halternate : alternate.WritesLowered) :
    (conditional test consequent alternate).WritesLowered := by
  have h := Writes.bind htest fun t => writes_temp.bind fun target =>
    (writes_assign hconsequent target).apart.bind fun c =>
      (writes_assign halternate target).apart.bind fun a =>
        (writes_write (.branch t c.2 a.2)).bind fun _ => writes_pure (Operand.temp target)
  refine h.congr fun next => ?_
  simp only [Lowered.bind, Lowered.pure, List.nil_append, List.append_nil]
  rfl

/-- A member is read after its base. -/
theorem writes_member (computed : Bool) (hbase : base.WritesLowered)
    (hproperty : property.WritesLowered) : (member base property computed).WritesLowered :=
  Writes.bind hbase fun b => writes_readMember b _ hproperty

/-- A method is read from a base that was made copyable. -/
theorem writes_method (computed : Bool) (hbase : base.WritesLowered)
    (hproperty : property.WritesLowered) : (member base property computed).WritesCallee := by
  have h := Writes.bind hbase fun b => (writes_materialize b).bind fun o =>
    (writes_readMember o (property.staticName? computed) hproperty).map
      fun m => (⟨m, o⟩ : Lowered.Target)
  refine h.congr fun next => ?_
  simp only [Lowered.bind, ← List.append_assoc]
  rfl

/-- A call is written after its arguments. -/
theorem writes_call {callee : Expression} {arguments : List Expression}
    (hcallee : callee.WritesCallee)
    (harguments : Writes (assembleArguments arguments) (lowerArguments arguments)) :
    (call callee arguments).WritesLowered := by
  rw [WritesLowered, assemble_call]
  have h := Writes.bind hcallee fun t => harguments.bind fun args =>
    writes_make fun target => .call target t.callee t.receiver args
  refine h.congr fun next => ?_
  rw [lower_call]
  simp only [Lowered.bind, Lowered.emit, List.nil_append, List.append_assoc]

end Forms

mutual
/-- **Expressions are written as they are lowered**, as values and as callees. -/
theorem writes_lower (e : Expression) : e.WritesLowered ∧ e.WritesCallee := by
  match e with
  | .literal value =>
    have h : (literal value).WritesLowered := writes_pure _
    exact ⟨h, h.callee nofun nofun⟩
  | .identifier name => exact writes_identifier name
  | .array elements =>
    have h : (array elements).WritesLowered := (writes_lowerElements elements).map _
    exact ⟨h, h.callee nofun nofun⟩
  | .object properties =>
    have h : (object properties).WritesLowered := (writes_lowerProperties properties).map _
    exact ⟨h, h.callee nofun nofun⟩
  | .unary operator argument =>
    have h : (unary operator argument).WritesLowered := Writes.map (writes_lower argument).1 _
    exact ⟨h, h.callee nofun nofun⟩
  | .binary operator left right =>
    have h := writes_binary operator (writes_lower left).1 (writes_lower right).1
    exact ⟨h, h.callee nofun nofun⟩
  | .logical operator left right =>
    have h := writes_logical operator (writes_lower left).1 (writes_lower right).1
    exact ⟨h, h.callee nofun nofun⟩
  | .conditional test consequent alternate =>
    have h := writes_conditional (writes_lower test).1 (writes_lower consequent).1
      (writes_lower alternate).1
    exact ⟨h, h.callee nofun nofun⟩
  | .member base property computed =>
    have hbase := (writes_lower base).1
    have hproperty := (writes_lower property).1
    exact ⟨writes_member computed hbase hproperty, writes_method computed hbase hproperty⟩
  | .call callee arguments =>
    have h := writes_call (writes_lower callee).2 (writes_lowerArguments arguments)
    exact ⟨h, h.callee nofun nofun⟩

/-- The elements of an array are written from left to right. -/
theorem writes_lowerElements (es : List (Option Expression)) :
    Writes (assembleElements es) (lowerElements es) := by
  match es with
  | [] => exact writes_pure _
  | none :: rest => exact (writes_lowerElements rest).map _
  | some e :: rest =>
    exact Writes.bind (writes_lower e).1 fun _ => (writes_lowerElements rest).map _

/-- The values of an object are written from left to right. -/
theorem writes_lowerProperties (ps : List (PropertyKey × Expression)) :
    Writes (assembleProperties ps) (lowerProperties ps) := by
  match ps with
  | [] => exact writes_pure _
  | (key, e) :: rest =>
    exact Writes.bind (writes_lower e).1 fun _ => (writes_lowerProperties rest).map _

/-- Arguments are written from left to right. -/
theorem writes_lowerArguments (args : List Expression) :
    Writes (assembleArguments args) (lowerArguments args) := by
  match args with
  | [] => exact writes_pure _
  | e :: rest =>
    exact Writes.bind (writes_lower e).1 fun _ => (writes_lowerArguments rest).map _
end

end Expression

/-! ## Programs -/

namespace Assembly

/-- Expressions in order are written as they are lowered. -/
theorem writes_lowerAll (p : Program) (result : Operand) :
    Assembler.Writes (assembleAll result p) fun next => Routine.lowerAll result next p := by
  induction p generalizing result with
  | nil => exact Assembler.writes_pure result
  | cons e rest ih => exact Assembler.Writes.bind (Expression.writes_lower e).1 fun v => ih v

/-- **A routine that is written is the one that is lowered**: its declared temporaries, its body
and its result. -/
theorem routine_eq_ofProgram (p : Program) : routine p = Routine.ofProgram p := by
  obtain ⟨-, h⟩ := writes_lowerAll p (.literal .undefined) ⟨0, [], []⟩
  rw [routine, h]
  simp only [extend, List.nil_append, Nat.sub_zero, ← List.range_eq_range']
  rfl

end Assembly

end ExprSandbox
