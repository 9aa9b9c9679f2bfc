import ExprSandbox.Evaluator
import ExprSandbox.Proofs.Compilation
import ExprSandbox.Proofs.Lockstep
import ExprSandbox.Proofs.WellFormed

/-!
# Names that a program mentions

A program learns from its context what the names that it mentions stand for, and whether the
context is truthy.  The context itself is handed on only as the receiver of a call whose callee is
a bare name.  So two truthy contexts that give the mentioned names the same values cannot be told
apart by a program without such calls, and two falsy contexts cannot be told apart at all: there
the callee of such a call is `undefined`, and it is never made
(`Evaluator.evaluate_indistinct`).

The theorem follows the forms of expressions.  Lowered code is impartial between the two contexts
(`lower_impartial`): its operands do not hold the context, its temporaries are fresh before it, and
it touches no others.
-/

namespace ExprSandbox

/-! ## Mentioned names -/

/-- How an expression mentions a name: for what it stands for, or as the callee of a call, which
gets the context as its receiver. -/
inductive Mention where
  | value (name : String)
  | callee (name : String)
  deriving DecidableEq

namespace Expression

mutual
/-- The names that an expression mentions, from left to right.  A name after a dot is the name of
a member and is not mentioned. -/
def mentions : Expression → List Mention
  | .literal _ => []
  | .identifier name => [.value name]
  | .array elements => elementsMentions elements
  | .object properties => propertiesMentions properties
  | .unary _ argument => argument.mentions
  | .binary _ left right => left.mentions ++ right.mentions
  | .logical _ left right => left.mentions ++ right.mentions
  | .conditional test consequent alternate =>
    test.mentions ++ (consequent.mentions ++ alternate.mentions)
  | .member base property computed =>
    base.mentions ++
      match property.staticName? computed with
      | some _ => []
      | none => property.mentions
  | .call callee arguments =>
    (match callee with
      | .identifier name => [.callee name]
      | callee => callee.mentions) ++ argumentsMentions arguments

/-- The names that the elements of an array mention. -/
def elementsMentions : List (Option Expression) → List Mention
  | [] => []
  | none :: rest => elementsMentions rest
  | some e :: rest => e.mentions ++ elementsMentions rest

/-- The names that the values of an object mention. -/
def propertiesMentions : List (PropertyKey × Expression) → List Mention
  | [] => []
  | (_, e) :: rest => e.mentions ++ propertiesMentions rest

/-- The names that arguments mention. -/
def argumentsMentions : List Expression → List Mention
  | [] => []
  | e :: rest => e.mentions ++ argumentsMentions rest
end

/-- A callee that is no name mentions what it mentions as a value. -/
theorem mentions_call {callee : Expression} (h : ∀ name, callee ≠ .identifier name)
    (arguments : List Expression) :
    (call callee arguments).mentions = callee.mentions ++ argumentsMentions arguments := by
  cases callee with
  | identifier name => exact absurd rfl (h name)
  | _ => rfl

end Expression

/-- The names that the expressions of a program mention. -/
def Program.mentions (p : Program) : List Mention :=
  Expression.argumentsMentions p

/-- The contexts agree on the mentions if they are falsy, or if there are names only that are
mentioned for their values, and these are the same in both. -/
def AgreeOn (c c' : Value) (ms : List Mention) : Prop :=
  c.isTruthy = true → ∀ m ∈ ms, ∃ name, m = .value name ∧ c'.get name = c.get name

namespace AgreeOn

variable {c c' : Value} {ms ms' : List Mention}

/-- Agreement on the first of the mentions. -/
theorem left (h : AgreeOn c c' (ms ++ ms')) : AgreeOn c c' ms :=
  fun hc m hm => h hc m (List.mem_append_left ms' hm)

/-- Agreement on the others. -/
theorem right (h : AgreeOn c c' (ms ++ ms')) : AgreeOn c c' ms' :=
  fun hc m hm => h hc m (List.mem_append_right ms hm)

/-- A name that is mentioned for its value stands for the same. -/
theorem get_eq {name : String} (h : AgreeOn c c' [.value name]) (hc : c.isTruthy = true) :
    c'.get name = c.get name := by
  obtain ⟨n, hn, hget⟩ := h hc (.value name) List.mem_cons_self
  cases hn
  exact hget

/-- A name is mentioned as a callee in falsy contexts only. -/
theorem falsy {name : String} (h : AgreeOn c c' (.callee name :: ms)) : c.isTruthy = false := by
  by_contra hc
  obtain ⟨n, hn, -⟩ := h (by simpa using hc) (.callee name) List.mem_cons_self
  cases hn

end AgreeOn

/-! ## Lowered parts -/

namespace Lowered

open Statement

/-- A callee and a receiver that are not the context. -/
def Target.ContextFree (t : Target) : Prop :=
  t.callee.ContextFree ∧ t.receiver.ContextFree

/-- The code is impartial.  It takes the temporaries from `j` on, needs them to be fresh and touches
no others; what it leaves holds no context. -/
structure Impartial {α : Type} (u : α → Prop) (c c' : Value) (j : Nat) (l : Lowered α) : Prop where
  le : j ≤ l.next
  code : Statement.Impartial c c' (between j l.next) (between j l.next) l.code
  value : u l.value

section Impartial

variable {α β γ : Type} {u : α → Prop} {v : β → Prop} {w : γ → Prop} {c c' : Value} {j next : Nat}
variable {l : Lowered α} {l' : Lowered β}

/-- What needs no code. -/
theorem impartial_pure {a : α} (ha : u a) (next : Nat) : (pure a next).Impartial u c c' next :=
  ⟨le_refl next, .nil, ha⟩

/-- Something else may be made of the value. -/
theorem Impartial.map (h : l.Impartial u c c' j) {b : β} (hb : u l.value → v b) :
    (⟨l.code, b, l.next⟩ : Lowered β).Impartial v c c' j :=
  ⟨h.le, h.code, hb h.value⟩

/-- **Code in sequence.** -/
theorem Impartial.seq (h : l.Impartial u c c' j) (h' : l'.Impartial v c c' l.next) {b : γ}
    (hb : u l.value → v l'.value → w b) :
    (⟨l.code ++ l'.code, b, l'.next⟩ : Lowered γ).Impartial w c c' j := by
  have hle := h.le
  have hle' := h'.le
  have hunion : ∀ x, between j l.next x ∨ between l.next l'.next x → between j l'.next x := by
    intro x hx
    unfold between at hx ⊢
    omega
  refine ⟨le_trans hle hle', ?_, hb h.value h'.value⟩
  exact (h.code.append h'.code fun x hx hx' => absurd hx'.2 (Nat.not_lt_of_le hx.1)).mono
    hunion hunion

/-- **A temporary is taken** for what a statement gives. -/
theorem Impartial.emit (h : l.Impartial u c c' j) {s : Statement}
    (hs : ∀ (T : Nat → Prop) (f : Frame), T l.next → f.context = c →
      Steps c' T f (s.run f) (s.run (f.inContext c'))) :
    (emit l.code l.next s).Impartial Operand.ContextFree c c' j := by
  have hs' : (⟨[s], l.value, l.next + 1⟩ : Lowered α).Impartial u c c' l.next :=
    ⟨Nat.le_succ _, .singleton fun f => hs _ f ⟨le_refl _, Nat.lt_succ_self _⟩, h.value⟩
  exact h.seq hs' fun _ _ => trivial

/-- A temporary is taken for what a single statement gives. -/
theorem impartial_emit {s : Statement} (next : Nat)
    (hs : ∀ (T : Nat → Prop) (f : Frame), T next → f.context = c →
      Steps c' T f (s.run f) (s.run (f.inContext c'))) :
    (Lowered.emit [] next s).Impartial Operand.ContextFree c c' next :=
  Impartial.emit (l := pure () next) (impartial_pure (u := fun _ => True) trivial next) hs

/-! ## Members -/

variable {base : Operand}

/-- A copyable operand takes a temporary if it has to. -/
theorem impartial_materialize (hbase : base.ContextFree) (next : Nat) :
    (materialize base next).Impartial Operand.ContextFree c c' next := by
  have hpure : (pure base next).Impartial Operand.ContextFree c c' next :=
    impartial_pure hbase next
  have hassign : (Lowered.emit [] next (.assign next base)).Impartial Operand.ContextFree c c'
      next :=
    impartial_emit next fun T f ht _ => step_assign hbase ht
  cases base with
  | literal value => exact hpure
  | temp index => exact hpure
  | context => exact hpure
  | _ => exact hassign

/-- A read under a computed key.  The code for the base runs before that of the key, whose
temporaries are taken first. -/
theorem impartial_readComputed {key : Lowered Operand} (hbase : base.ContextFree)
    (hkey : key.Impartial Operand.ContextFree c c' j) :
    (readComputed base key).Impartial Operand.ContextFree c c' j := by
  unfold readComputed
  split
  · next hempty =>
    rw [← List.isEmpty_iff.mp hempty]
    exact hkey.emit fun T f ht _ => step_readMember hbase hkey.value ht
  · have hb : (materialize base key.next).Impartial Operand.ContextFree c c' key.next :=
      impartial_materialize hbase key.next
    generalize materialize base key.next = b at hb
    have hkle := hkey.le
    have hble := hb.le
    have hread : Statement.Impartial c c' (fun _ => False) (fun x => x = b.next)
        [.readMember b.next b.value (.computed key.value)] :=
      .singleton fun f _ => step_readMember hb.value hkey.value rfl
    have hpresent : (present b.value).ContextFree := ⟨hb.value, trivial⟩
    have hblocks := Statement.Impartial.branch hpresent
      (hkey.code.append hread fun _ h => h.elim) .nil
    refine ⟨Nat.le_succ_of_le (le_trans hkle hble), ?_, trivial⟩
    -- the code of the base runs first, and leaves the temporaries of the key alone
    refine (hb.code.append hblocks fun x hx hx' => ?_).mono (fun x hx => ?_) fun x hx => ?_
    · rcases hx with hx | hx
      · exact absurd hx.2 (Nat.not_lt_of_le hx'.1)
      · exact hx
    all_goals
      simp only [between, emit, or_false] at hx ⊢
      omega

/-- A read of a member. -/
theorem impartial_readMember (name? : Option String) {key : Nat → Lowered Operand}
    (hbase : base.ContextFree)
    (hkey : name? = none → ∀ next, (key next).Impartial Operand.ContextFree c c' next)
    (next : Nat) :
    (readMember base name? key next).Impartial Operand.ContextFree c c' next := by
  cases name? with
  | some name => exact impartial_emit next fun T f ht _ => step_readMember hbase trivial ht
  | none => exact impartial_readComputed hbase (hkey rfl next)

/-! ## Blocks -/

variable {first second test e : Lowered Operand} {target : Nat}

/-- A block puts the value of an expression into a temporary that was taken before. -/
theorem impartial_block (he : e.Impartial Operand.ContextFree c c' j) (target : Nat) :
    Statement.Impartial c c' (between j e.next) (fun x => between j e.next x ∨ x = target)
      (block target e) := by
  have hassign : Statement.Impartial c c' (fun _ => False) (fun x => x = target)
      [.assign target e.value] :=
    .singleton fun f _ => step_assign he.value rfl
  refine (he.code.append hassign fun _ h => h.elim).mono ?_ fun _ h => h
  rintro x (hx | hx)
  · exact hx
  · exact hx.elim

/-- **A block after a block**, which is run for its test only. -/
theorem impartial_guarded {o : Operand}
    (hfirst : first.Impartial Operand.ContextFree c c' (target + 1))
    (hsecond : second.Impartial Operand.ContextFree c c' first.next) (ho : o.ContextFree) :
    (⟨block target first ++ [.branch o (block target second) []], .temp target,
      second.next⟩ : Lowered Operand).Impartial Operand.ContextFree c c' target := by
  have hle := hfirst.le
  have hle' := hsecond.le
  have hbranch := Statement.Impartial.branch ho (impartial_block hsecond target) .nil
  refine ⟨?_, ?_, trivial⟩
  · show target ≤ second.next
    omega
  · refine ((impartial_block hfirst target).append hbranch fun x hx hx' => ?_).mono
      (fun x hx => ?_) fun x hx => ?_
    all_goals
      simp only [between] at *
      omega

/-- **Two blocks of which one is run.** -/
theorem impartial_choice (htest : test.Impartial Operand.ContextFree c c' j)
    (hfirst : first.Impartial Operand.ContextFree c c' (test.next + 1))
    (hsecond : second.Impartial Operand.ContextFree c c' first.next) :
    (⟨test.code ++ [.branch test.value (block test.next first) (block test.next second)],
      .temp test.next, second.next⟩ : Lowered Operand).Impartial Operand.ContextFree c c' j := by
  have hle := htest.le
  have hle' := hfirst.le
  have hle'' := hsecond.le
  have hblock : ∀ {k : Nat} {e : Lowered Operand}, e.Impartial Operand.ContextFree c c' k →
      test.next + 1 ≤ k → e.next ≤ second.next →
      Statement.Impartial c c' (between test.next second.next) (between test.next second.next)
        (block test.next e) := by
    intro k e he hk hk'
    have hek := he.le
    refine (impartial_block he test.next).mono (fun x hx => ?_) fun x hx => ?_
    all_goals
      simp only [between] at hx ⊢
      omega
  have hbranch := Statement.Impartial.branch htest.value (hblock hfirst (le_refl _) hle'')
    (hblock hsecond hle' (le_refl _))
  refine ⟨?_, ?_, trivial⟩
  · show j ≤ second.next
    omega
  · refine (htest.code.append hbranch fun x hx hx' => ?_).mono (fun x hx => ?_) fun x hx => ?_
    all_goals
      simp only [between] at *
      omega

/-! ## Calls of names -/

/-- **A call of a bare name** in a falsy context: nothing is put into the temporary of the name, and
so the call is not made. -/
theorem impartial_callName {args : Lowered (List Operand)} (hc : c.isTruthy = false)
    (hc' : c'.isTruthy = false) (name : String)
    (hargs : args.Impartial Operand.AllContextFree c c' (next + 1)) :
    (Lowered.emit ([.readContext next name] ++ args.code) args.next
      (.call args.next (.temp next) .context args.value)).Impartial Operand.ContextFree c c'
      next := by
  have hle := hargs.le
  refine ⟨?_, fun f hf hfresh => ?_, trivial⟩
  · show next ≤ args.next + 1
    omega
  have hskip : ∀ g : Frame, g.context.isTruthy = false →
      runAll [.readContext next name] g = .done g :=
    fun g hg => (runAll_singleton _ g).trans (run_readContext_of_falsy hg)
  show Steps c' _ f (runAll (_ ++ _) f) (runAll (_ ++ _) (f.inContext c'))
  rw [runAll_append, runAll_append, runAll_append, runAll_append, hskip f (hf ▸ hc),
    hskip (f.inContext c') hc', Process.done_bind, Process.done_bind]
  have hwithin : ∀ x, between (next + 1) args.next x → between next (args.next + 1) x := by
    intro x hx
    simp only [between] at hx ⊢
    omega
  refine (hargs.code f hf fun x hx => hfresh x (hwithin x hx)).bind ?_
  rintro g g' ⟨rfl, hkeeps⟩
  -- the arguments leave the temporary of the name as fresh as they find it
  have hnext : g.temps.getD next .undefined = .undefined :=
    (hkeeps.temps next fun h => absurd h.1 (Nat.not_succ_le_self next)).trans
      (hfresh next ⟨le_refl next, Nat.lt_succ_of_le (Nat.le_of_succ_le hle)⟩)
  rw [runAll_singleton, runAll_singleton]
  refine (step_call_of_undefined (T := fun _ => False) hnext).imp fun a b hab => ⟨hab.same, ?_⟩
  exact (hkeeps.mono fun x hx hx' => hx (hwithin x hx')).trans (hab.keeps.mono fun _ _ h => h)

end Impartial

end Lowered

/-! ## Expressions -/

namespace Expression

open Lowered Statement

/-- The expression is lowered to impartial code, wherever its temporaries start. -/
def LowersImpartial (c c' : Value) (e : Expression) : Prop :=
  ∀ next, (e.lower next).Impartial Operand.ContextFree c c' next

/-- The callee is lowered to impartial code, and its receiver is not the context. -/
def LowersCalleeImpartial (c c' : Value) (e : Expression) : Prop :=
  ∀ next, (e.lowerCallee next).Impartial Target.ContextFree c c' next

section Forms

variable {c c' : Value} {e left right test consequent alternate base property : Expression}

/-- An expression that is called without a receiver. -/
theorem LowersImpartial.callee (h : e.LowersImpartial c c')
    (he : ∀ next, e.lowerCallee next = (e.lower next).withoutReceiver) :
    e.LowersCalleeImpartial c c' := by
  intro next
  rw [he]
  exact (h next).map fun ho => ⟨ho, trivial⟩

/-- A name that stands for the same in both contexts. -/
theorem identifier_impartial {name : String} (htruthy : c'.isTruthy = c.isTruthy)
    (h : AgreeOn c c' [.value name]) : (identifier name).LowersImpartial c c' := by
  intro next
  refine impartial_emit next fun T f ht hf => ?_
  subst hf
  exact step_readContext htruthy h.get_eq ht

/-- Two operands and the operator between them. -/
theorem binary_impartial (operator : BinaryOp) (hleft : left.LowersImpartial c c')
    (hright : right.LowersImpartial c c') :
    (binary operator left right).LowersImpartial c c' := by
  intro next
  exact (hleft next).seq (hright _) And.intro

/-- A logical operator has its right operand in a block. -/
theorem logical_impartial (operator : LogicalOp) (hleft : left.LowersImpartial c c')
    (hright : right.LowersImpartial c c') :
    (logical operator left right).LowersImpartial c c' := by
  intro next
  refine impartial_guarded (hleft (next + 1)) (hright _) ?_
  cases operator <;> trivial

/-- A conditional has both of its branches in blocks. -/
theorem conditional_impartial (htest : test.LowersImpartial c c')
    (hconsequent : consequent.LowersImpartial c c')
    (halternate : alternate.LowersImpartial c c') :
    (conditional test consequent alternate).LowersImpartial c c' :=
  fun next => impartial_choice (htest next) (hconsequent _) (halternate _)

/-- A member, as a value and as a method.  A property that is no key is not evaluated. -/
theorem member_impartial (computed : Bool) (hbase : base.LowersImpartial c c')
    (hproperty : property.staticName? computed = none → property.LowersImpartial c c') :
    (member base property computed).LowersImpartial c c' ∧
      (member base property computed).LowersCalleeImpartial c c' := by
  constructor
  · intro next
    have hb := hbase next
    exact hb.seq (impartial_readMember _ hb.value hproperty _) fun _ hm => hm
  · intro next
    have hb := hbase next
    have ho := hb.seq (impartial_materialize hb.value _) fun _ ho => ho
    exact ho.seq (impartial_readMember _ ho.value hproperty _) fun ho hm => ⟨hm, ho⟩

/-- A call whose callee is no bare name. -/
theorem call_impartial {callee : Expression} {arguments : List Expression}
    (hcallee : callee.LowersCalleeImpartial c c')
    (harguments : ∀ next,
      (lowerArguments arguments next).Impartial Operand.AllContextFree c c' next) :
    (call callee arguments).LowersImpartial c c' := by
  intro next
  rw [lower_call]
  have h := (hcallee next).seq (harguments _) (b := (_, _))
    (w := fun p : Target × List Operand => p.1.ContextFree ∧ Operand.AllContextFree p.2) And.intro
  exact h.emit fun T f ht _ => step_call h.value.1.1 h.value.1.2 h.value.2 ht

end Forms

variable {c c' : Value}

mutual
/-- **Lowered code is impartial** between contexts that agree on what is mentioned, as a value, and
as a callee unless that is a bare name. -/
theorem lower_impartial (htruthy : c'.isTruthy = c.isTruthy) (e : Expression)
    (h : AgreeOn c c' e.mentions) :
    e.LowersImpartial c c' ∧ ((∀ name, e ≠ .identifier name) → e.LowersCalleeImpartial c c') := by
  match e with
  | .literal value =>
    have hvalue : (literal value).LowersImpartial c c' := fun next => impartial_pure trivial next
    exact ⟨hvalue, fun _ => hvalue.callee fun _ => rfl⟩
  | .identifier name =>
    exact ⟨identifier_impartial htruthy h, fun hname => absurd rfl (hname name)⟩
  | .array elements =>
    have hvalue : (array elements).LowersImpartial c c' := fun next =>
      (lowerElements_impartial htruthy elements h next).map id
    exact ⟨hvalue, fun _ => hvalue.callee fun _ => rfl⟩
  | .object properties =>
    have hvalue : (object properties).LowersImpartial c c' := fun next =>
      (lowerProperties_impartial htruthy properties h next).map id
    exact ⟨hvalue, fun _ => hvalue.callee fun _ => rfl⟩
  | .unary operator argument =>
    have hvalue : (unary operator argument).LowersImpartial c c' := fun next =>
      ((lower_impartial htruthy argument h).1 next).map id
    exact ⟨hvalue, fun _ => hvalue.callee fun _ => rfl⟩
  | .binary operator left right =>
    have hvalue := binary_impartial operator (lower_impartial htruthy left h.left).1
      (lower_impartial htruthy right h.right).1
    exact ⟨hvalue, fun _ => hvalue.callee fun _ => rfl⟩
  | .logical operator left right =>
    have hvalue := logical_impartial operator (lower_impartial htruthy left h.left).1
      (lower_impartial htruthy right h.right).1
    exact ⟨hvalue, fun _ => hvalue.callee fun _ => rfl⟩
  | .conditional test consequent alternate =>
    have hvalue := conditional_impartial (lower_impartial htruthy test h.left).1
      (lower_impartial htruthy consequent h.right.left).1
      (lower_impartial htruthy alternate h.right.right).1
    exact ⟨hvalue, fun _ => hvalue.callee fun _ => rfl⟩
  | .member base property computed =>
    have hmember := member_impartial computed (lower_impartial htruthy base h.left).1
      fun hname => (lower_impartial htruthy property (by
        have hright := h.right
        rwa [hname] at hright)).1
    exact ⟨hmember.1, fun _ => hmember.2⟩
  | .call callee arguments =>
    have hvalue : (call callee arguments).LowersImpartial c c' := by
      by_cases hname : ∃ name, callee = .identifier name
      · obtain ⟨name, rfl⟩ := hname
        have hfalsy : c.isTruthy = false := h.falsy
        exact fun next => impartial_callName hfalsy (htruthy.trans hfalsy) name
          (lowerArguments_impartial htruthy arguments h.right _)
      · have hnone : ∀ name, callee ≠ .identifier name := fun name hn => hname ⟨name, hn⟩
        rw [mentions_call hnone] at h
        exact call_impartial ((lower_impartial htruthy callee h.left).2 hnone)
          (lowerArguments_impartial htruthy arguments h.right)
    exact ⟨hvalue, fun _ => hvalue.callee fun _ => rfl⟩

/-- The code of the elements of an array is impartial. -/
theorem lowerElements_impartial (htruthy : c'.isTruthy = c.isTruthy)
    (es : List (Option Expression)) (h : AgreeOn c c' (elementsMentions es)) (next : Nat) :
    (lowerElements es next).Impartial Operand.SlotsContextFree c c' next := by
  match es with
  | [] => exact impartial_pure trivial next
  | none :: rest => exact (lowerElements_impartial htruthy rest h next).map id
  | some e :: rest =>
    exact ((lower_impartial htruthy e h.left).1 next).seq
      (lowerElements_impartial htruthy rest h.right _) And.intro

/-- The code of the values of an object is impartial. -/
theorem lowerProperties_impartial (htruthy : c'.isTruthy = c.isTruthy)
    (ps : List (PropertyKey × Expression)) (h : AgreeOn c c' (propertiesMentions ps))
    (next : Nat) :
    (lowerProperties ps next).Impartial Operand.EntriesContextFree c c' next := by
  match ps with
  | [] => exact impartial_pure trivial next
  | (key, e) :: rest =>
    exact ((lower_impartial htruthy e h.left).1 next).seq
      (lowerProperties_impartial htruthy rest h.right _) And.intro

/-- The code of arguments is impartial. -/
theorem lowerArguments_impartial (htruthy : c'.isTruthy = c.isTruthy) (args : List Expression)
    (h : AgreeOn c c' (argumentsMentions args)) (next : Nat) :
    (lowerArguments args next).Impartial Operand.AllContextFree c c' next := by
  match args with
  | [] => exact impartial_pure trivial next
  | e :: rest =>
    exact ((lower_impartial htruthy e h.left).1 next).seq
      (lowerArguments_impartial htruthy rest h.right _) And.intro
end

end Expression

/-! ## Programs -/

/-- The code of expressions in order is impartial. -/
theorem Routine.lowerAll_impartial {c c' : Value} (htruthy : c'.isTruthy = c.isTruthy) (p : Program)
    (h : AgreeOn c c' p.mentions) {result : Operand} (hresult : result.ContextFree) (next : Nat) :
    (lowerAll result next p).Impartial Operand.ContextFree c c' next := by
  induction p generalizing result next with
  | nil => exact Lowered.impartial_pure hresult next
  | cons e rest ih =>
    have hfirst := (Expression.lower_impartial htruthy e h.left).1 next
    exact hfirst.seq (ih h.right hfirst.value _) fun _ ho => ho

/-- A compiled program runs in lockstep in contexts that agree on what it mentions. -/
theorem Routine.run_impartial {c c' : Value} (htruthy : c'.isTruthy = c.isTruthy) (p : Program)
    (h : AgreeOn c c' p.mentions) (run : Nat) :
    Process.Lockstep Eq ((ofProgram p).run c run) ((ofProgram p).run c' run) := by
  have hundefined : (Operand.literal .undefined).ContextFree := trivial
  have hall := lowerAll_impartial htruthy p h hundefined 0
  have hfresh : ∀ x, (Frame.start c run (ofProgram p).declared.length).temps.getD x .undefined =
      .undefined := by
    intro x
    simp [Frame.start, Array.getD_eq_getD_getElem?, Array.getElem?_replicate]
    split <;> rfl
  refine (hall.code (.start c run (ofProgram p).declared.length) rfl fun x _ => hfresh x).bind ?_
  rintro g g' ⟨rfl, -⟩
  have heval := (ofProgram p).result.eval_inContext g.toScope c' hall.value g.made
  exact .done (congrArg Prod.fst heval.symm)

namespace Evaluator

/-- **A program depends only on the names that it mentions.**  If it calls no bare name, two truthy
contexts that give the names it mentions the same values cannot be told apart by the outcome, nor
by the calls that are made, nor by the state they leave.  No program tells two falsy contexts
apart. -/
theorem evaluate_indistinct {σ : Type} (denied : DenyList) (p : Program) (host : Host σ)
    (context context' : Option Value) (run : Nat) (s : σ) :
    let c := context.getD .undefined
    let c' := context'.getD .undefined
    let x := (ofProgram denied p).evaluate host context run s
    let x' := (ofProgram denied p).evaluate host context' run s
    (c.isTruthy = true → c'.isTruthy = true → (∀ name, .callee name ∉ p.mentions) →
      (∀ name, .value name ∈ p.mentions → c'.get name = c.get name) → x.Indistinct x') ∧
    (c.isTruthy = false → c'.isTruthy = false → x.Indistinct x') := by
  intro c c' x x'
  have hrun : c'.isTruthy = c.isTruthy → AgreeOn c c' p.mentions → x.Indistinct x' :=
    fun htruthy h => (Routine.run_impartial htruthy p h run).execute denied host s
  constructor
  · intro hc hc' hcallee hvalue
    refine hrun (hc'.trans hc.symm) fun _ m hm => ?_
    cases m with
    | value name => exact ⟨name, rfl, hvalue name hm⟩
    | callee name => exact absurd hm (hcallee name)
  · intro hc hc'
    refine hrun (hc'.trans hc.symm) fun htrue => ?_
    rw [hc] at htrue
    cases htrue

/-- `o.f(x)` mentions `o` and `x`.  It makes its call, and cannot tell contexts apart that hold
other things besides these; `f(x)` cannot tell falsy contexts apart. -/
theorem evaluate_indistinct_method :
    let x : Expression := .identifier "x"
    let p : Program := [.call (.member (.identifier "o") (.identifier "f") false) [x]]
    let q : Program := [.call (.identifier "f") [x]]
    let o : Value := .object ⟨1, 1⟩ [("f", .function ⟨0, "f", false⟩)]
    let c : Value := .object ⟨1, 0⟩ [("o", o), ("x", .bool true)]
    let c' : Value := .object ⟨1, 2⟩ [("f", .null), ("x", .bool true), ("o", o)]
    let run (p : Program) (context : Option Value) :=
      (ofProgram .standard p).evaluate Host.recording context 0 []
    p.mentions = [.value "o", .value "x"] ∧ (run p (some c)).calls.length = 1 ∧
      (run p (some c)).Indistinct (run p (some c')) ∧
      q.mentions = [.callee "f", .value "x"] ∧
      (run q none).Indistinct (run q (some (.string ""))) := by
  intro x p q o c c' run
  have hcallee : ∀ name, .callee name ∉ p.mentions := by
    intro name hname
    have hmem : Mention.callee name ∈ [Mention.value "o", Mention.value "x"] := hname
    simp at hmem
  have hvalue : ∀ name, .value name ∈ p.mentions → c'.get name = c.get name := by
    intro name hname
    have hmem : Mention.value name ∈ [Mention.value "o", Mention.value "x"] := hname
    simp only [List.mem_cons, Mention.value.injEq, List.not_mem_nil, or_false] at hmem
    rcases hmem with rfl | rfl <;> rfl
  refine ⟨rfl, ?_, ?_, rfl, ?_⟩
  · simp only [run, p, x, c, o]
    decide +kernel
  · exact (evaluate_indistinct .standard p Host.recording (some c) (some c') 0 []).1 rfl rfl hcallee
      hvalue
  · exact (evaluate_indistinct .standard q Host.recording none (some (.string "")) 0 []).2 rfl rfl

end Evaluator

end ExprSandbox
