import Mathlib.Data.List.ReduceOption
import Mathlib.Logic.Relation
import ExprSandbox.Proofs.ObjectLiterals
import ExprSandbox.Proofs.Surroundings

/-!
# Places of expressions in programs

Lowering a program lowers each expression in it at a place: from some free temporary on, and into
other code, which stands before it, behind it and in the blocks around it (`Program.Visits`).  The
targets in the code of the expression are targets nowhere else in the program
(`Program.Visits.laid`), although the targets of `&&`, `||` and `?:` are taken before the code that
they are assigned in, and are assigned more than once.
-/

namespace ExprSandbox

open Statement

/-! ## Targets of lowered code -/

namespace Expression

open Lowered

variable {t : Nat}

/-- The code of an expression has the temporaries as targets that it takes. -/
theorem assigns_lower (e : Expression) (next : Nat) :
    Assigns (e.lower next).code t ↔ between next (e.lower next).next t :=
  ((lower_tidy e).1 (fun _ => True) next).assigns t

/-- An expression gives no temporary back. -/
theorem le_lower (e : Expression) (next : Nat) : next ≤ (e.lower next).next :=
  ((lower_tidy e).1 (fun _ => True) next).le

/-- The code of arguments has the temporaries as targets that it takes. -/
theorem assigns_lowerArguments (es : List Expression) (next : Nat) :
    Assigns (lowerArguments es next).code t ↔ between next (lowerArguments es next).next t :=
  (lowerArguments_tidy es (fun _ => True) next).assigns t

/-- Arguments give no temporary back. -/
theorem le_lowerArguments (es : List Expression) (next : Nat) :
    next ≤ (lowerArguments es next).next :=
  (lowerArguments_tidy es (fun _ => True) next).le

/-- The code of a callee has the temporaries as targets that it takes. -/
theorem assigns_lowerCallee (e : Expression) (next : Nat) :
    Assigns (e.lowerCallee next).code t ↔ between next (e.lowerCallee next).next t :=
  ((lower_tidy e).2 (fun _ => True) next).assigns t

/-- A callee gives no temporary back. -/
theorem le_lowerCallee (e : Expression) (next : Nat) : next ≤ (e.lowerCallee next).next :=
  ((lower_tidy e).2 (fun _ => True) next).le

/-- The block of an expression has one target more. -/
theorem assigns_block_lower (e : Expression) (next target : Nat) :
    Assigns (block target (e.lower next)) t ↔ between next (e.lower next).next t ∨ t = target :=
  assigns_block ((lower_tidy e).1 (fun _ => True) next)

/-- The copy of an operand takes temporaries from `next` on, and has no other targets. -/
theorem materialize_tidy (o : Operand) (next : Nat) :
    (materialize o next).Tidy Operand.temps (fun _ => True) next :=
  tidy_materialize (fun _ _ => trivial) next

/-- The read of a member has the temporaries as targets that it takes. -/
theorem assigns_readMember {o : Operand} {property : Expression} {computed : Bool} {next : Nat}
    {m : Lowered Operand}
    (hm : readMember o (property.staticName? computed) property.lower next = m) :
    Assigns m.code t ↔ between next m.next t := by
  have hread : m.Tidy Operand.temps (fun _ => True) next := by
    rw [← hm]
    exact tidy_readMember _ (fun _ _ => trivial) ((lower_tidy property).1 _ next)
  exact hread.assigns t

/-! ## Expressions in order -/

/-- What stands around an expression in the code of expressions in order. -/
def amid (before : List Expression) (e : Expression) (after : List Expression) (next : Nat) :
    Surroundings :=
  let first := lowerArguments before next
  .sequence first.code .here (lowerArguments after (e.lower first.next).next).code

/-- An expression among others in order. -/
theorem laid_amid (before : List Expression) (e : Expression) (after : List Expression)
    (next : Nat) :
    Laid (amid before e after next) (e.lower (lowerArguments before next).next).code
      (lowerArguments (before ++ e :: after) next).code := by
  rw [lowerArguments_append]
  refine Laid.sequence fun t ht => ?_
  rw [assigns_lower] at ht
  rw [assigns_lowerArguments, assigns_lowerArguments]
  unfold between at ht ⊢
  omega

/-- The elements of an array are lowered like arguments, but for the holes. -/
theorem lowerElements_reduceOption (es : List (Option Expression)) (next : Nat) :
    (lowerElements es next).code = (lowerArguments es.reduceOption next).code := by
  induction es generalizing next with
  | nil => rfl
  | cons e rest ih =>
    cases e with
    | none => exact ih next
    | some e =>
      rw [List.reduceOption_cons_of_some]
      exact congrArg ((e.lower next).code ++ ·) (ih _)

/-! ## Keys -/

/-- What stands around the code of a computed key. -/
def aroundKey (base : Operand) (key : Lowered Operand) : Surroundings :=
  if key.code.isEmpty then .sequence [] .here [.readMember key.next base (.computed key.value)]
  else
    let o := materialize base key.next
    .sequence o.code (.consequent (present o.value)
      (.sequence [] .here [.readMember o.next o.value (.computed key.value)]) []) []

/-- The code of a computed key stands before the read, or in the block with the read. -/
theorem laid_aroundKey {base : Operand} {key : Lowered Operand} {j : Nat}
    (hkey : key.Tidy Operand.temps (fun _ => True) j) :
    Laid (aroundKey base key) key.code (readComputed base key).code := by
  unfold aroundKey readComputed
  split
  · next hempty =>
    rw [List.isEmpty_iff.mp hempty]
    exact ⟨rfl, fun t ht => absurd ht not_assigns_nil⟩
  · have hbase := materialize_tidy base key.next
    generalize materialize base key.next = o at hbase
    have hle := hbase.le
    have hread : ∀ t, Assigns [.readMember o.next o.value (.computed key.value)] t ↔ t = o.next :=
      fun t => assigns_singleton rfl
    refine Laid.consequent fun t ht => ?_
    rw [hkey.assigns] at ht
    rw [hbase.assigns, hread]
    unfold between at ht ⊢
    rintro (h | h | h)
    · omega
    · omega
    · exact not_assigns_nil h

/-- A key that is lowered has its place in the read of the member. -/
theorem laid_readMember {property : Expression} {computed : Bool} {next : Nat}
    {k : Lowered Operand} (unnamed : property.staticName? computed = none)
    (hk : property.lower next = k) (o : Operand) :
    Laid (aroundKey o k) (property.lower next).code
      (readMember o (property.staticName? computed) property.lower next).code := by
  rw [unnamed, ← hk]
  exact laid_aroundKey ((lower_tidy property).1 _ next)

/-! ## Parts of expressions -/

/-- Lowering a callee from `next` on lowers a part of it from `start` on, with `K` around the code
of the part.  A member that is called is lowered in parts, any other callee as a whole. -/
inductive CalleePart : Expression → Nat → Expression → Nat → Surroundings → Prop
  /-- A callee that is no member. -/
  | whole {callee : Expression} {next : Nat}
      (no_member : ∀ base property computed, callee ≠ .member base property computed) :
      CalleePart callee next callee next .here
  /-- The base of a method, whose copy is the receiver. -/
  | base {base property : Expression} {computed : Bool} {next : Nat} {b o m : Lowered Operand}
      (hb : base.lower next = b) (ho : materialize b.value b.next = o)
      (hm : readMember o.value (property.staticName? computed) property.lower o.next = m) :
      CalleePart (.member base property computed) next base next
        (.sequence [] .here (o.code ++ m.code))
  /-- The computed key of a method. -/
  | key {base property : Expression} {computed : Bool} {next : Nat} {b o k : Lowered Operand}
      (unnamed : property.staticName? computed = none) (hb : base.lower next = b)
      (ho : materialize b.value b.next = o) (hk : property.lower o.next = k) :
      CalleePart (.member base property computed) next property o.next
        (.sequence (b.code ++ o.code) (aroundKey o.value k) [])

/-- Lowering an expression from `next` on lowers a part of it from `start` on, with `K` around the
code of the part. -/
inductive Part : Expression → Nat → Expression → Nat → Surroundings → Prop
  /-- An element of an array; holes need no code. -/
  | element {elements : List (Option Expression)} {before after : List Expression}
      {part : Expression} {next : Nat}
      (items : elements.reduceOption = before ++ part :: after) :
      Part (.array elements) next part (lowerArguments before next).next
        (amid before part after next)
  /-- A value of an object. -/
  | property {properties : List (PropertyKey × Expression)} {before after : List Expression}
      {part : Expression} {next : Nat}
      (items : properties.map Prod.snd = before ++ part :: after) :
      Part (.object properties) next part (lowerArguments before next).next
        (amid before part after next)
  /-- The operand of a unary operator. -/
  | operand {operator : UnaryOp} {argument : Expression} {next : Nat} :
      Part (.unary operator argument) next argument next .here
  /-- The left operand of a binary operator. -/
  | left {operator : BinaryOp} {left right : Expression} {next : Nat} {l r : Lowered Operand}
      (hl : left.lower next = l) (hr : right.lower l.next = r) :
      Part (.binary operator left right) next left next (.sequence [] .here r.code)
  /-- The right operand of a binary operator. -/
  | right {operator : BinaryOp} {left right : Expression} {next : Nat} {l : Lowered Operand}
      (hl : left.lower next = l) :
      Part (.binary operator left right) next right l.next (.sequence l.code .here [])
  /-- The left operand of a logical operator, which is put into the target of the whole. -/
  | decider {operator : LogicalOp} {left right : Expression} {next : Nat} {l r : Lowered Operand}
      (hl : left.lower (next + 1) = l) (hr : right.lower l.next = r) :
      Part (.logical operator left right) next left (next + 1)
        (.sequence [] .here [.assign next l.value,
          .branch (logicalTest operator (.temp next)) (block next r) []])
  /-- The right operand of a logical operator, in the block behind the test of the left one. -/
  | decided {operator : LogicalOp} {left right : Expression} {next : Nat} {l r : Lowered Operand}
      (hl : left.lower (next + 1) = l) (hr : right.lower l.next = r) :
      Part (.logical operator left right) next right l.next
        (.sequence (block next l) (.consequent (logicalTest operator (.temp next))
          (.sequence [] .here [.assign next r.value]) []) [])
  /-- The test of a conditional. -/
  | test {test consequent alternate : Expression} {next : Nat} {t c a : Lowered Operand}
      (ht : test.lower next = t) (hc : consequent.lower (t.next + 1) = c)
      (ha : alternate.lower c.next = a) :
      Part (.conditional test consequent alternate) next test next
        (.sequence [] .here [.branch t.value (block t.next c) (block t.next a)])
  /-- What a conditional evaluates if its test holds. -/
  | consequent {test consequent alternate : Expression} {next : Nat} {t c a : Lowered Operand}
      (ht : test.lower next = t) (hc : consequent.lower (t.next + 1) = c)
      (ha : alternate.lower c.next = a) :
      Part (.conditional test consequent alternate) next consequent (t.next + 1)
        (.sequence t.code (.consequent t.value (.sequence [] .here [.assign t.next c.value])
          (block t.next a)) [])
  /-- What a conditional evaluates if its test fails. -/
  | alternate {test consequent alternate : Expression} {next : Nat} {t c a : Lowered Operand}
      (ht : test.lower next = t) (hc : consequent.lower (t.next + 1) = c)
      (ha : alternate.lower c.next = a) :
      Part (.conditional test consequent alternate) next alternate c.next
        (.sequence t.code (.alternate t.value (block t.next c)
          (.sequence [] .here [.assign t.next a.value])) [])
  /-- The base of a member. -/
  | base {base property : Expression} {computed : Bool} {next : Nat} {b m : Lowered Operand}
      (hb : base.lower next = b)
      (hm : readMember b.value (property.staticName? computed) property.lower b.next = m) :
      Part (.member base property computed) next base next (.sequence [] .here m.code)
  /-- The computed key of a member. -/
  | key {base property : Expression} {computed : Bool} {next : Nat} {b k : Lowered Operand}
      (unnamed : property.staticName? computed = none) (hb : base.lower next = b)
      (hk : property.lower b.next = k) :
      Part (.member base property computed) next property b.next
        (.sequence b.code (aroundKey b.value k) [])
  /-- A part of the callee of a call. -/
  | callee {callee part : Expression} {arguments : List Expression} {next start : Nat}
      {K : Surroundings} {t : Lowered Target} {args : Lowered (List Operand)}
      (ht : callee.lowerCallee next = t) (hargs : lowerArguments arguments t.next = args)
      (inner : CalleePart callee next part start K) :
      Part (.call callee arguments) next part start
        ((Surroundings.sequence [] .here (args.code ++
          [.call args.next t.value.callee t.value.receiver args.value])).around K)
  /-- An argument of a call. -/
  | argument {callee part : Expression} {before after : List Expression} {next : Nat}
      {t : Lowered Target} {args : Lowered (List Operand)}
      (ht : callee.lowerCallee next = t)
      (hargs : lowerArguments (before ++ part :: after) t.next = args) :
      Part (.call callee (before ++ part :: after)) next part (lowerArguments before t.next).next
        (.sequence t.code (amid before part after t.next)
          [.call args.next t.value.callee t.value.receiver args.value])

/-! ## Parts in place -/

section Forms

variable {left right test consequent alternate base property callee : Expression}
variable {computed : Bool} {next : Nat} {l r t c a b m k o : Lowered Operand}

/-- The left operand stands before the right one. -/
theorem laid_left (operator : BinaryOp) (hl : left.lower next = l) (hr : right.lower l.next = r) :
    Laid (.sequence [] .here r.code) (left.lower next).code
      ((binary operator left right).lower next).code := by
  subst hr hl
  refine Laid.first fun u hu => ?_
  rw [assigns_lower] at hu ⊢
  unfold between at hu ⊢
  omega

/-- The right operand stands behind the left one. -/
theorem laid_right (operator : BinaryOp) (hl : left.lower next = l) :
    Laid (.sequence l.code .here []) (right.lower l.next).code
      ((binary operator left right).lower next).code := by
  subst hl
  refine Laid.last fun u hu => ?_
  rw [assigns_lower] at hu ⊢
  unfold between at hu ⊢
  omega

/-- The left operand of a logical operator stands before the block of the right one. -/
theorem laid_decider (operator : LogicalOp) (hl : left.lower (next + 1) = l)
    (hr : right.lower l.next = r) :
    Laid (.sequence [] .here
        [.assign next l.value, .branch (logicalTest operator (.temp next)) (block next r) []])
      (left.lower (next + 1)).code ((logical operator left right).lower next).code := by
  subst hr hl
  show Laid _ _ ((_ ++ [_]) ++ [_])
  rw [List.append_assoc]
  refine Laid.first fun u hu => ?_
  rw [assigns_lower] at hu
  rw [assigns_cons, assigns_singleton rfl, assigns_branch, assigns_block_lower]
  unfold between at hu ⊢
  rintro (h | (h | h) | h)
  · omega
  · omega
  · omega
  · exact not_assigns_nil h

/-- The right operand of a logical operator stands in its block, behind that of the left one. -/
theorem laid_decided (operator : LogicalOp) (hl : left.lower (next + 1) = l)
    (hr : right.lower l.next = r) :
    Laid (.sequence (block next l) (.consequent (logicalTest operator (.temp next))
        (.sequence [] .here [.assign next r.value]) []) [])
      (right.lower l.next).code ((logical operator left right).lower next).code := by
  subst hr hl
  have hle := left.le_lower (next + 1)
  refine Laid.consequent fun u hu => ?_
  rw [assigns_lower] at hu
  rw [assigns_block_lower, assigns_singleton rfl]
  unfold between at hu ⊢
  rintro (h | h | h)
  · omega
  · omega
  · exact not_assigns_nil h

/-- The test of a conditional stands before its blocks. -/
theorem laid_test (ht : test.lower next = t) (hc : consequent.lower (t.next + 1) = c)
    (ha : alternate.lower c.next = a) :
    Laid (.sequence [] .here [.branch t.value (block t.next c) (block t.next a)])
      (test.lower next).code ((conditional test consequent alternate).lower next).code := by
  subst ha hc ht
  have hle := consequent.le_lower ((test.lower next).next + 1)
  refine Laid.first fun u hu => ?_
  rw [assigns_lower] at hu
  rw [assigns_branch, assigns_block_lower, assigns_block_lower]
  unfold between at hu ⊢
  omega

/-- The first expression of a conditional stands in the one block. -/
theorem laid_consequent (ht : test.lower next = t) (hc : consequent.lower (t.next + 1) = c)
    (ha : alternate.lower c.next = a) :
    Laid (.sequence t.code (.consequent t.value (.sequence [] .here [.assign t.next c.value])
        (block t.next a)) [])
      (consequent.lower (t.next + 1)).code
      ((conditional test consequent alternate).lower next).code := by
  subst ha hc ht
  refine Laid.consequent fun u hu => ?_
  rw [assigns_lower] at hu ⊢
  rw [assigns_singleton rfl, assigns_block_lower]
  unfold between at hu ⊢
  omega

/-- The second expression of a conditional stands in the other block. -/
theorem laid_alternate (ht : test.lower next = t) (hc : consequent.lower (t.next + 1) = c)
    (ha : alternate.lower c.next = a) :
    Laid (.sequence t.code (.alternate t.value (block t.next c)
        (.sequence [] .here [.assign t.next a.value])) [])
      (alternate.lower c.next).code
      ((conditional test consequent alternate).lower next).code := by
  subst ha hc ht
  have hle := consequent.le_lower ((test.lower next).next + 1)
  refine Laid.alternate fun u hu => ?_
  rw [assigns_lower] at hu ⊢
  rw [assigns_singleton rfl, assigns_block_lower]
  unfold between at hu ⊢
  omega

/-- The base of a member stands before the read. -/
theorem laid_base (hb : base.lower next = b)
    (hm : readMember b.value (property.staticName? computed) property.lower b.next = m) :
    Laid (.sequence [] .here m.code) (base.lower next).code
      ((member base property computed).lower next).code := by
  have hread := fun u => assigns_readMember hm (t := u)
  subst hm hb
  refine Laid.first fun u hu => ?_
  rw [assigns_lower] at hu
  rw [hread]
  unfold between at hu ⊢
  omega

/-- A computed key stands behind its base. -/
theorem laid_key (unnamed : property.staticName? computed = none) (hb : base.lower next = b)
    (hk : property.lower b.next = k) :
    Laid (.sequence b.code (aroundKey b.value k) []) (property.lower b.next).code
      ((member base property computed).lower next).code := by
  have hkey := laid_readMember unnamed hk b.value
  subst hb
  refine Laid.trans (Laid.last fun u hu => ?_) hkey
  rw [assigns_readMember rfl] at hu
  rw [assigns_lower]
  unfold between at hu ⊢
  omega

/-- The base of a method stands before the copy of it that is the receiver, and before the read. -/
theorem laid_receiver (hb : base.lower next = b) (ho : materialize b.value b.next = o)
    (hm : readMember o.value (property.staticName? computed) property.lower o.next = m) :
    Laid (.sequence [] .here (o.code ++ m.code)) (base.lower next).code
      ((member base property computed).lowerCallee next).code := by
  have hcopy := materialize_tidy b.value b.next
  rw [ho] at hcopy
  have hle := hcopy.le
  have hread := fun u => assigns_readMember hm (t := u)
  subst hm ho hb
  show Laid _ _ ((_ ++ _) ++ _)
  rw [List.append_assoc]
  refine Laid.first fun u hu => ?_
  rw [assigns_lower] at hu
  rw [assigns_append, hcopy.assigns, hread]
  unfold between at hu ⊢
  omega

/-- The computed key of a method stands behind the receiver. -/
theorem laid_methodKey (unnamed : property.staticName? computed = none)
    (hb : base.lower next = b) (ho : materialize b.value b.next = o)
    (hk : property.lower o.next = k) :
    Laid (.sequence (b.code ++ o.code) (aroundKey o.value k) []) (property.lower o.next).code
      ((member base property computed).lowerCallee next).code := by
  have hkey := laid_readMember unnamed hk o.value
  have hcopy := materialize_tidy b.value b.next
  rw [ho] at hcopy
  have hle := hcopy.le
  subst ho hb
  refine Laid.trans (Laid.last fun u hu => ?_) hkey
  rw [assigns_readMember rfl] at hu
  rw [assigns_append, assigns_lower, hcopy.assigns]
  unfold between at hu ⊢
  omega

/-- A callee stands before the arguments and the call. -/
theorem laid_callee {arguments : List Expression} {target : Lowered Target}
    {args : Lowered (List Operand)} (ht : callee.lowerCallee next = target)
    (hargs : lowerArguments arguments target.next = args) :
    Laid (.sequence [] .here (args.code ++
        [.call args.next target.value.callee target.value.receiver args.value]))
      (callee.lowerCallee next).code ((call callee arguments).lower next).code := by
  have hle := le_lowerArguments arguments target.next
  subst hargs ht
  rw [lower_call]
  show Laid _ _ ((_ ++ _) ++ [_])
  rw [List.append_assoc]
  refine Laid.first fun u hu => ?_
  rw [assigns_lowerCallee] at hu
  rw [assigns_append, assigns_lowerArguments, assigns_singleton rfl]
  unfold between at hu ⊢
  omega

/-- An argument stands behind the callee, amid the other arguments, and before the call. -/
theorem laid_argument {before after : List Expression} {part : Expression}
    {target : Lowered Target} {args : Lowered (List Operand)}
    (ht : callee.lowerCallee next = target)
    (hargs : lowerArguments (before ++ part :: after) target.next = args) :
    Laid (.sequence target.code (amid before part after target.next)
        [.call args.next target.value.callee target.value.receiver args.value])
      (part.lower (lowerArguments before target.next).next).code
      ((call callee (before ++ part :: after)).lower next).code := by
  have hpart := laid_amid before part after target.next
  have hle := callee.le_lowerCallee next
  subst hargs ht
  rw [lower_call]
  show Laid _ _ ((_ ++ _) ++ [_])
  rw [List.append_assoc]
  refine Laid.trans (Laid.sequence fun u hu => ?_) hpart
  rw [assigns_lowerArguments] at hu
  rw [assigns_lowerCallee, assigns_singleton rfl]
  unfold between at hu ⊢
  omega

end Forms

/-- **A part of a callee is in its place** in the code of the callee. -/
theorem CalleePart.laid {callee part : Expression} {next start : Nat} {K : Surroundings}
    (h : CalleePart callee next part start K) :
    Laid K (part.lower start).code (callee.lowerCallee next).code := by
  cases h with
  | whole no_member =>
    cases callee with
    | member base property computed => exact absurd rfl (no_member base property computed)
    | _ => exact Laid.refl _
  | base hb ho hm => exact laid_receiver hb ho hm
  | key unnamed hb ho hk => exact laid_methodKey unnamed hb ho hk

/-- **A part of an expression is in its place** in the code of the expression. -/
theorem Part.laid {e part : Expression} {next start : Nat} {K : Surroundings}
    (h : Part e next part start K) : Laid K (part.lower start).code (e.lower next).code := by
  cases h with
  | @element elements before after part next items =>
    show Laid _ _ (lowerElements elements next).code
    rw [lowerElements_reduceOption, items]
    exact laid_amid before part after next
  | @property properties before after part next items =>
    show Laid _ _ (lowerProperties properties next).code
    rw [lowerProperties_eq, items]
    exact laid_amid before part after next
  | operand => exact Laid.refl _
  | left hl hr => exact laid_left _ hl hr
  | right hl => exact laid_right _ hl
  | decider hl hr => exact laid_decider _ hl hr
  | decided hl hr => exact laid_decided _ hl hr
  | test ht hc ha => exact laid_test ht hc ha
  | consequent ht hc ha => exact laid_consequent ht hc ha
  | alternate ht hc ha => exact laid_alternate ht hc ha
  | base hb hm => exact laid_base hb hm
  | key unnamed hb hk => exact laid_key unnamed hb hk
  | callee ht hargs inner => exact (laid_callee ht hargs).trans inner.laid
  | argument ht hargs => exact laid_argument ht hargs

/-! ## Every part has a place -/

/-- The key of a member is lowered unless its name is known. -/
def keyParts (property : Expression) (computed : Bool) : List Expression :=
  (property.staticName? computed).elim [property] fun _ => []

/-- The expressions that a callee is lowered in. -/
def calleeParts : Expression → List Expression
  | .member base property computed => base :: keyParts property computed
  | callee => [callee]

/-- The expressions that an expression is lowered in, from left to right. -/
def parts : Expression → List Expression
  | .literal _ => []
  | .identifier _ => []
  | .array elements => elements.reduceOption
  | .object properties => properties.map Prod.snd
  | .unary _ argument => [argument]
  | .binary _ left right => [left, right]
  | .logical _ left right => [left, right]
  | .conditional test consequent alternate => [test, consequent, alternate]
  | .member base property computed => base :: keyParts property computed
  | .call callee arguments => callee.calleeParts ++ arguments

/-- A key is lowered only if its name is not known. -/
theorem mem_keyParts {property part : Expression} {computed : Bool}
    (h : part ∈ keyParts property computed) :
    part = property ∧ property.staticName? computed = none := by
  unfold keyParts at h
  cases hname : property.staticName? computed with
  | none =>
    rw [hname] at h
    exact ⟨List.mem_singleton.mp h, rfl⟩
  | some name =>
    rw [hname] at h
    cases h

/-- **Every part of a callee has a place** in its code. -/
theorem exists_calleePart {callee part : Expression} (h : part ∈ callee.calleeParts) (next : Nat) :
    ∃ start K, CalleePart callee next part start K := by
  cases callee with
  | member base property computed =>
    rcases List.mem_cons.mp h with rfl | h
    · exact ⟨_, _, .base rfl rfl rfl⟩
    · obtain ⟨rfl, unnamed⟩ := mem_keyParts h
      exact ⟨_, _, .key unnamed rfl rfl rfl⟩
  | _ =>
    obtain rfl := List.mem_singleton.mp h
    exact ⟨_, _, .whole fun _ _ _ heq => by cases heq⟩

/-- **Every part of an expression has a place** in its code. -/
theorem exists_part {e part : Expression} (h : part ∈ e.parts) (next : Nat) :
    ∃ start K, Part e next part start K := by
  cases e with
  | literal value => cases h
  | identifier name => cases h
  | array elements =>
    obtain ⟨before, after, items⟩ := List.append_of_mem h
    exact ⟨_, _, .element items⟩
  | object properties =>
    obtain ⟨before, after, items⟩ := List.append_of_mem h
    exact ⟨_, _, .property items⟩
  | unary operator argument =>
    obtain rfl := List.mem_singleton.mp h
    exact ⟨_, _, .operand⟩
  | binary operator left right =>
    simp only [parts, List.mem_cons, List.not_mem_nil, or_false] at h
    rcases h with rfl | rfl
    · exact ⟨_, _, .left rfl rfl⟩
    · exact ⟨_, _, .right rfl⟩
  | logical operator left right =>
    simp only [parts, List.mem_cons, List.not_mem_nil, or_false] at h
    rcases h with rfl | rfl
    · exact ⟨_, _, .decider rfl rfl⟩
    · exact ⟨_, _, .decided rfl rfl⟩
  | conditional test consequent alternate =>
    simp only [parts, List.mem_cons, List.not_mem_nil, or_false] at h
    rcases h with rfl | rfl | rfl
    · exact ⟨_, _, .test rfl rfl rfl⟩
    · exact ⟨_, _, .consequent rfl rfl rfl⟩
    · exact ⟨_, _, .alternate rfl rfl rfl⟩
  | member base property computed =>
    rcases List.mem_cons.mp h with rfl | h
    · exact ⟨_, _, .base rfl rfl⟩
    · obtain ⟨rfl, unnamed⟩ := mem_keyParts h
      exact ⟨_, _, .key unnamed rfl rfl⟩
  | call callee arguments =>
    rcases List.mem_append.mp h with h | h
    · obtain ⟨start, K, inner⟩ := exists_calleePart h next
      exact ⟨_, _, .callee rfl rfl inner⟩
    · obtain ⟨before, after, rfl⟩ := List.append_of_mem h
      exact ⟨_, _, .argument rfl rfl⟩

/-! ## Expressions in expressions -/

/-- Lowering an expression from `next` on lowers `e'` from `n` on, with `K` around its code: `e'` is
the expression itself, a part of it, a part of a part, and so on. -/
inductive Visits : Expression → Nat → Expression → Nat → Surroundings → Prop
  | self (e : Expression) (next : Nat) : Visits e next e next .here
  | part {e part e' : Expression} {next start n : Nat} {K K' : Surroundings}
      (first : Part e next part start K) (rest : Visits part start e' n K') :
      Visits e next e' n (K.around K')

/-- An expression inside of an expression is in its place in the code. -/
theorem Visits.laid {e e' : Expression} {next n : Nat} {K : Surroundings}
    (h : Visits e next e' n K) : Laid K (e'.lower n).code (e.lower next).code := by
  induction h with
  | self e next => exact Laid.refl _
  | part first _ ih => exact first.laid.trans ih

/-- Every expression inside of an expression has a place in its code. -/
theorem exists_visits {e e' : Expression}
    (h : Relation.ReflTransGen (fun whole part => part ∈ whole.parts) e e') (next : Nat) :
    ∃ n K, Visits e next e' n K := by
  induction h using Relation.ReflTransGen.head_induction_on generalizing next with
  | refl => exact ⟨next, .here, .self e' next⟩
  | head hpart _ ih =>
    obtain ⟨start, K, first⟩ := exists_part hpart next
    obtain ⟨n, K', rest⟩ := ih start
    exact ⟨n, K.around K', .part first rest⟩

end Expression

/-! ## Expressions in programs -/

/-- Lowering a program from `next` on lowers `e` from `n` on, with `K` around its code. -/
inductive Program.Visits : Program → Nat → Expression → Nat → Surroundings → Prop
  | mk {before after : List Expression} {whole e : Expression} {next n : Nat} {K : Surroundings}
      (inner : whole.Visits (Expression.lowerArguments before next).next e n K) :
      Program.Visits (before ++ whole :: after) next e n
        ((Expression.amid before whole after next).around K)

/-- Every expression inside of one of the program's has a place in the code of the program. -/
theorem Program.exists_visits {p : Program} {whole e : Expression} (hwhole : whole ∈ p)
    (h : Relation.ReflTransGen (fun whole part => part ∈ whole.parts) whole e) (next : Nat) :
    ∃ n K, p.Visits next e n K := by
  obtain ⟨before, after, rfl⟩ := List.append_of_mem hwhole
  obtain ⟨n, K, inner⟩ := Expression.exists_visits h (Expression.lowerArguments before next).next
  exact ⟨n, _, .mk inner⟩

/-- **An expression in a program is in its place**: no temporary is a target both in its code and
in the rest of the program. -/
theorem Program.Visits.laid {p : Program} {next n : Nat} {e : Expression} {K : Surroundings}
    (h : p.Visits next e n K) (result : Operand) :
    Laid K (e.lower n).code (Routine.lowerAll result next p).code := by
  cases h with
  | @mk before after whole e next n K inner =>
    rw [Routine.lowerAll_eq]
    exact (Expression.laid_amid before whole after next).trans inner.laid

end ExprSandbox
