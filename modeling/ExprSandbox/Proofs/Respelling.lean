import ExprSandbox.Evaluator
import ExprSandbox.Proofs.Compilation

/-!
# Dotted and computed members

A member after a dot and the same member under a computed key that is a literal are lowered by
different rules, and the key of the second one is evaluated when the routine runs.  All the same
the two are interchangeable, wherever they stand: respelled expressions take the same temporaries,
leave the same operands, and their code runs the same (`Respelled.sameRun`).  So whole programs
evaluate the same (`Evaluator.evaluate_respelled`).

What makes this a congruence is that a literal key needs no statements, as a name after a dot needs
none: whether a key needs statements decides the shape of the code around it.
-/

namespace ExprSandbox

/-! ## Respelled expressions -/

namespace Expression

mutual
/-- The second expression is the first one with any number of its dotted members, at any depth,
written as computed members.  A name after the dot becomes a string as the key, and a literal after
the dot becomes the key itself. -/
inductive Respelled : Expression → Expression → Prop
  | literal (value : Constant) : Respelled (.literal value) (.literal value)
  | identifier (name : String) : Respelled (.identifier name) (.identifier name)
  | array {es es' : List (Option Expression)} (elements : RespelledElements es es') :
      Respelled (.array es) (.array es')
  | object {ps ps' : List (PropertyKey × Expression)} (properties : RespelledProperties ps ps') :
      Respelled (.object ps) (.object ps')
  | unary (operator : UnaryOp) {a a' : Expression} (argument : Respelled a a') :
      Respelled (.unary operator a) (.unary operator a')
  | binary (operator : BinaryOp) {l l' r r' : Expression} (left : Respelled l l')
      (right : Respelled r r') : Respelled (.binary operator l r) (.binary operator l' r')
  | logical (operator : LogicalOp) {l l' r r' : Expression} (left : Respelled l l')
      (right : Respelled r r') : Respelled (.logical operator l r) (.logical operator l' r')
  | conditional {t t' c c' a a' : Expression} (test : Respelled t t')
      (consequent : Respelled c c') (alternate : Respelled a a') :
      Respelled (.conditional t c a) (.conditional t' c' a')
  | member (computed : Bool) {b b' p p' : Expression} (base : Respelled b b')
      (property : Respelled p p') : Respelled (.member b p computed) (.member b' p' computed)
  | call {c c' : Expression} {as as' : List Expression} (callee : Respelled c c')
      (arguments : RespelledAll as as') : Respelled (.call c as) (.call c' as')
  | named (name : String) {b b' : Expression} (base : Respelled b b') :
      Respelled (.member b (.identifier name) false) (.member b' (.literal (.string name)) true)
  | constant (value : Constant) {b b' : Expression} (base : Respelled b b') :
      Respelled (.member b (.literal value) false) (.member b' (.literal value) true)

/-- The elements are respelled one by one, and holes stay where they are. -/
inductive RespelledElements : List (Option Expression) → List (Option Expression) → Prop
  | nil : RespelledElements [] []
  | hole {es es' : List (Option Expression)} (rest : RespelledElements es es') :
      RespelledElements (none :: es) (none :: es')
  | some {e e' : Expression} {es es' : List (Option Expression)} (first : Respelled e e')
      (rest : RespelledElements es es') : RespelledElements (some e :: es) (some e' :: es')

/-- The values of the properties are respelled one by one, and the keys stay. -/
inductive RespelledProperties :
    List (PropertyKey × Expression) → List (PropertyKey × Expression) → Prop
  | nil : RespelledProperties [] []
  | cons (key : PropertyKey) {e e' : Expression} {ps ps' : List (PropertyKey × Expression)}
      (first : Respelled e e') (rest : RespelledProperties ps ps') :
      RespelledProperties ((key, e) :: ps) ((key, e') :: ps')

/-- The expressions of a list are respelled one by one. -/
inductive RespelledAll : List Expression → List Expression → Prop
  | nil : RespelledAll [] []
  | cons {e e' : Expression} {es es' : List Expression} (first : Respelled e e')
      (rest : RespelledAll es es') : RespelledAll (e :: es) (e' :: es')
end

/-- A property that is respelled is known without evaluation if it was before, and under the same
name. -/
theorem Respelled.staticName?_eq {p p' : Expression} (h : Respelled p p') (computed : Bool) :
    p'.staticName? computed = p.staticName? computed := by
  cases h <;> cases computed <;> rfl

end Expression

/-! ## Code that runs the same -/

namespace Statement

/-- Code that runs the same in every frame.  Code is empty on both sides or on none. -/
structure SameRun (code code' : List Statement) : Prop where
  isEmpty : code'.isEmpty = code.isEmpty
  run : runAll code' = runAll code

namespace SameRun

variable {code code' rest rest' : List Statement}

/-- Code runs as itself. -/
theorem refl (code : List Statement) : SameRun code code := ⟨rfl, rfl⟩

/-- Code in sequence. -/
theorem append (h : SameRun code code') (hrest : SameRun rest rest') :
    SameRun (code ++ rest) (code' ++ rest') where
  isEmpty := by
    rw [Bool.eq_iff_iff]
    have hcode := Bool.eq_iff_iff.mp h.isEmpty
    have hrest := Bool.eq_iff_iff.mp hrest.isEmpty
    simp only [List.isEmpty_iff, List.append_eq_nil_iff] at hcode hrest ⊢
    rw [hcode, hrest]
  run := by
    funext f
    rw [runAll_append, runAll_append, h.run, hrest.run]

/-- Single statements that run the same. -/
theorem singleton {s s' : Statement} (h : ∀ f, s'.run f = s.run f) : SameRun [s] [s'] where
  isEmpty := rfl
  run := by
    funext f
    rw [runAll_singleton, runAll_singleton, h]

/-- A conditional whose blocks run the same. -/
theorem branch (test : Operand) {a a' b b' : List Statement} (ha : SameRun a a')
    (hb : SameRun b b') : SameRun [.branch test a b] [.branch test a' b'] := by
  apply singleton
  intro f
  rw [run_branch, run_branch, ha.run, hb.run]

end SameRun

/-- A literal key addresses the member that has the literal's name. -/
theorem run_readMember_literal (t : Nat) (base : Operand) (c : Constant) (f : Frame) :
    (readMember t base (.computed (.literal c))).run f =
      (readMember t base (.named c.key)).run f := by
  have hkey : ∀ n, Key.eval f.toScope (.computed (.literal c)) n = (c.key, n) := by
    intro n
    cases c <;> rfl
  cases hbase : (base.eval f.toScope f.made).1.isNullish with
  | true => rw [run_readMember_of_nullish hbase, run_readMember_of_nullish hbase]
  | false =>
    rw [run_readMember_of_present hbase, run_readMember_of_present hbase, hkey]
    rfl

end Statement

/-! ## Lowered parts that run the same -/

namespace Lowered

open Statement

/-- The same value and the same free temporaries, after code that runs the same. -/
structure SameRun {α : Type} (l l' : Lowered α) : Prop where
  value : l'.value = l.value
  next : l'.next = l.next
  code : Statement.SameRun l.code l'.code

section SameRun

variable {α β γ : Type} {l l' : Lowered α} {key key' : Nat → Lowered Operand}

/-- What is lowered runs as itself. -/
theorem SameRun.refl (l : Lowered α) : l.SameRun l := ⟨rfl, rfl, .refl _⟩

/-- The same is made of the values. -/
theorem SameRun.map (h : l.SameRun l') (g : α → β) :
    SameRun ⟨l.code, g l.value, l.next⟩ ⟨l'.code, g l'.value, l'.next⟩ :=
  ⟨by rw [h.value], h.next, h.code⟩

/-- **Parts in sequence**, where the second one may use the value of the first and starts after its
temporaries. -/
theorem SameRun.seq {k k' : α → Nat → Lowered β} (h : l.SameRun l')
    (hk : ∀ a next, (k a next).SameRun (k' a next)) (g : α → β → γ) :
    let m := k l.value l.next
    let m' := k' l'.value l'.next
    SameRun ⟨l.code ++ m.code, g l.value m.value, m.next⟩
      ⟨l'.code ++ m'.code, g l'.value m'.value, m'.next⟩ := by
  have hm := hk l.value l.next
  rw [h.next, h.value]
  exact ⟨by rw [hm.value], hm.next, h.code.append hm.code⟩

/-- The same statement is made of the values, for the next temporary. -/
theorem SameRun.emit (h : l.SameRun l') (s : Nat → α → Statement) :
    (emit l.code l.next (s l.next l.value)).SameRun
      (emit l'.code l'.next (s l'.next l'.value)) := by
  rw [h.next, h.value]
  exact ⟨rfl, rfl, h.code.append (.refl _)⟩

/-- Blocks run the same that put the values of such expressions into one temporary. -/
theorem SameRun.block {e e' : Lowered Operand} (h : e.SameRun e') (target : Nat) :
    Statement.SameRun (block target e) (block target e') := by
  rw [Lowered.block, Lowered.block, h.value]
  exact h.code.append (.refl _)

/-- **A block after a block**, which is run for its test only. -/
theorem sameRun_guarded {e e' r r' : Lowered Operand} (he : e.SameRun e') (hr : r.SameRun r')
    (test : Operand) (target : Nat) :
    SameRun ⟨block target e ++ [.branch test (block target r) []], Operand.temp target, r.next⟩
      ⟨block target e' ++ [.branch test (block target r') []], .temp target, r'.next⟩ :=
  ⟨rfl, hr.next, (he.block target).append (.branch test (hr.block target) (.refl []))⟩

/-- **Two blocks of which one is run.** -/
theorem sameRun_choice {t t' c c' a a' : Lowered Operand} (ht : t.SameRun t') (hc : c.SameRun c')
    (ha : a.SameRun a') :
    SameRun
      ⟨t.code ++ [.branch t.value (block t.next c) (block t.next a)], Operand.temp t.next, a.next⟩
      ⟨t'.code ++ [.branch t'.value (block t'.next c') (block t'.next a')], .temp t'.next,
        a'.next⟩ := by
  rw [ht.value, ht.next]
  exact ⟨rfl, ha.next, ht.code.append (.branch _ (hc.block t.next) (ha.block t.next))⟩

/-! ## Members -/

/-- A read under a key that needs statements on both sides, or on none. -/
theorem sameRun_readComputed (base : Operand) {e e' : Lowered Operand} (h : e.SameRun e') :
    (readComputed base e).SameRun (readComputed base e') := by
  unfold readComputed
  rw [h.code.isEmpty, h.next, h.value]
  by_cases hempty : e.code.isEmpty
  · rw [if_pos hempty, if_pos hempty]
    exact .refl _
  · rw [if_neg hempty, if_neg hempty]
    refine ⟨rfl, rfl, ?_⟩
    exact .append (.refl _) (.branch _ (h.code.append (.refl _)) (.refl _))

/-- A read of a member whose key is evaluated the same, or not at all. -/
theorem sameRun_readMember (base : Operand) (name? : Option String)
    (h : ∀ next, (key next).SameRun (key' next)) (next : Nat) :
    (readMember base name? key next).SameRun (readMember base name? key' next) := by
  cases name? with
  | some name => exact .refl _
  | none => exact sameRun_readComputed base (h next)

/-- **A name after a dot is a literal key**: neither needs statements, and both address the same
member. -/
theorem sameRun_readMember_literal (base : Operand) (c : Constant) (key : Nat → Lowered Operand)
    (next : Nat) :
    (readMember base (some c.key) key next).SameRun
      (readMember base none (Expression.literal c).lower next) := by
  refine ⟨rfl, rfl, ?_⟩
  show Statement.SameRun [.readMember next base (.named c.key)]
    [.readMember next base (.computed (.literal c))]
  exact .singleton fun f => run_readMember_literal next base c f

end SameRun

end Lowered

/-! ## Respelled expressions run the same -/

namespace Expression

open Lowered

/-- The two are lowered to parts that run the same, as values and as callees. -/
structure LowersSame (e e' : Expression) : Prop where
  value : ∀ next, (e.lower next).SameRun (e'.lower next)
  callee : ∀ next, (e.lowerCallee next).SameRun (e'.lowerCallee next)

/-- Expressions that are called without a receiver are callees as they are values. -/
theorem LowersSame.of_value {e e' : Expression} (h : ∀ next, (e.lower next).SameRun (e'.lower next))
    (he : ∀ next, e.lowerCallee next = (e.lower next).withoutReceiver)
    (he' : ∀ next, e'.lowerCallee next = (e'.lower next).withoutReceiver) : LowersSame e e' := by
  refine ⟨h, fun next => ?_⟩
  rw [he, he']
  exact (h next).map fun o => Target.mk o (.literal .undefined)

section Forms

variable {l l' r r' t t' c c' a a' b b' p p' : Expression}

/-- Two operands and the operator between them. -/
theorem lowersSame_binary (operator : BinaryOp) (hleft : LowersSame l l')
    (hright : LowersSame r r') : LowersSame (.binary operator l r) (.binary operator l' r') := by
  refine .of_value (fun next => ?_) (fun _ => rfl) fun _ => rfl
  exact (hleft.value next).seq (fun _ => hright.value) (Operand.binary operator)

/-- A logical operator has its right operand in a block. -/
theorem lowersSame_logical (operator : LogicalOp) (hleft : LowersSame l l')
    (hright : LowersSame r r') : LowersSame (.logical operator l r) (.logical operator l' r') := by
  refine .of_value (fun next => ?_) (fun _ => rfl) fun _ => rfl
  have hl := hleft.value (next + 1)
  have hr : (r.lower (l.lower (next + 1)).next).SameRun (r'.lower (l'.lower (next + 1)).next) := by
    rw [hl.next]
    exact hright.value _
  exact sameRun_guarded hl hr _ next

/-- A conditional has both of its branches in blocks. -/
theorem lowersSame_conditional (htest : LowersSame t t') (hconsequent : LowersSame c c')
    (halternate : LowersSame a a') :
    LowersSame (.conditional t c a) (.conditional t' c' a') := by
  refine .of_value (fun next => ?_) (fun _ => rfl) fun _ => rfl
  have ht := htest.value next
  have hc : (c.lower ((t.lower next).next + 1)).SameRun (c'.lower ((t'.lower next).next + 1)) := by
    rw [ht.next]
    exact hconsequent.value _
  have ha : (a.lower (c.lower ((t.lower next).next + 1)).next).SameRun
      (a'.lower (c'.lower ((t'.lower next).next + 1)).next) := by
    rw [hc.next]
    exact halternate.value _
  exact sameRun_choice ht hc ha

/-- A member, as a value and as a method, when its read runs the same on every base. -/
theorem lowersSame_member {computed computed' : Bool} (hbase : LowersSame b b')
    (hread : ∀ o next,
      (readMember o (p.staticName? computed) p.lower next).SameRun
        (readMember o (p'.staticName? computed') p'.lower next)) :
    LowersSame (.member b p computed) (.member b' p' computed') where
  value next := (hbase.value next).seq hread fun _ m => m
  callee next := by
    have ho := (hbase.value next).seq (k := materialize) (fun _ _ => .refl _) fun _ o => o
    exact ho.seq hread fun o m => Target.mk m o

/-- A call evaluates its callee, then its arguments, and then it is made. -/
theorem lowersSame_call {args args' : List Expression} (hcallee : LowersSame c c')
    (harguments : ∀ next, (lowerArguments args next).SameRun (lowerArguments args' next)) :
    LowersSame (.call c args) (.call c' args') := by
  refine .of_value (fun next => ?_) (fun _ => rfl) fun _ => rfl
  rw [lower_call, lower_call]
  have h := (hcallee.callee next).seq (fun _ => harguments) Prod.mk
  exact h.emit fun target p => .call target p.1.callee p.1.receiver p.2

end Forms

mutual
/-- **Respelled expressions run the same**, as values and as callees. -/
theorem Respelled.sameRun {e e' : Expression} (h : Respelled e e') : LowersSame e e' := by
  match h with
  | .literal value => exact ⟨fun _ => .refl _, fun _ => .refl _⟩
  | .identifier name => exact ⟨fun _ => .refl _, fun _ => .refl _⟩
  | .array elements =>
    exact .of_value (fun next => (elements.sameRun next).map Operand.array) (fun _ => rfl)
      fun _ => rfl
  | .object properties =>
    exact .of_value (fun next => (properties.sameRun next).map Operand.object) (fun _ => rfl)
      fun _ => rfl
  | .unary operator argument =>
    exact .of_value (fun next => (argument.sameRun.value next).map (Operand.unary operator))
      (fun _ => rfl) fun _ => rfl
  | .binary operator left right => exact lowersSame_binary operator left.sameRun right.sameRun
  | .logical operator left right => exact lowersSame_logical operator left.sameRun right.sameRun
  | .conditional test consequent alternate =>
    exact lowersSame_conditional test.sameRun consequent.sameRun alternate.sameRun
  | .member computed base property =>
    refine lowersSame_member base.sameRun fun o next => ?_
    rw [property.staticName?_eq]
    exact sameRun_readMember o _ property.sameRun.value next
  | .call callee arguments => exact lowersSame_call callee.sameRun arguments.sameRun
  | .named name base =>
    exact lowersSame_member base.sameRun fun o next =>
      sameRun_readMember_literal o (.string name) _ next
  | .constant value base =>
    exact lowersSame_member base.sameRun fun o next => sameRun_readMember_literal o value _ next

/-- Respelled elements of an array run the same. -/
theorem RespelledElements.sameRun {es es' : List (Option Expression)}
    (h : RespelledElements es es') (next : Nat) :
    (lowerElements es next).SameRun (lowerElements es' next) := by
  match h with
  | .nil => exact .refl _
  | .hole rest => exact (rest.sameRun next).map (none :: ·)
  | .some first rest =>
    exact (first.sameRun.value next).seq (fun _ => rest.sameRun) fun v vs => some v :: vs

/-- Respelled values of an object run the same. -/
theorem RespelledProperties.sameRun {ps ps' : List (PropertyKey × Expression)}
    (h : RespelledProperties ps ps') (next : Nat) :
    (lowerProperties ps next).SameRun (lowerProperties ps' next) := by
  match h with
  | .nil => exact .refl _
  | .cons key first rest =>
    exact (first.sameRun.value next).seq (fun _ => rest.sameRun) fun v vs => (key.name, v) :: vs

/-- Respelled arguments run the same. -/
theorem RespelledAll.sameRun {es es' : List Expression} (h : RespelledAll es es') (next : Nat) :
    (lowerArguments es next).SameRun (lowerArguments es' next) := by
  match h with
  | .nil => exact .refl _
  | .cons first rest =>
    exact (first.sameRun.value next).seq (fun _ => rest.sameRun) List.cons
end

end Expression

/-! ## Programs -/

open Lowered Expression

/-- Respelled expressions in order run the same. -/
theorem Routine.lowerAll_sameRun {p p' : Program} (h : RespelledAll p p') (result : Operand)
    (next : Nat) : (lowerAll result next p).SameRun (lowerAll result next p') := by
  induction p generalizing p' result next with
  | nil =>
    cases h
    exact .refl _
  | cons e rest ih =>
    cases h with
    | cons first hrest =>
      exact (first.sameRun.value next).seq (fun o n => ih hrest o n) fun _ o => o

namespace Evaluator

/-- **Dotted and computed members are interchangeable.**  A program some of whose dotted members
are written as computed ones evaluates as before, in every context and with every host: it has the
same outcome and asks for the same members and calls.  It has as many temporaries. -/
theorem evaluate_respelled {p p' : Program} (h : RespelledAll p p') (denied : DenyList) :
    (∀ {σ : Type} (host : Host σ) (context : Option Value) (run : Nat) (s : σ),
      (ofProgram denied p').evaluate host context run s =
        (ofProgram denied p).evaluate host context run s) ∧
    (ofProgram denied p').tempCount = (ofProgram denied p).tempCount := by
  have hsame := Routine.lowerAll_sameRun h (.literal .undefined) 0
  have hdeclared : (Routine.ofProgram p').declared = (Routine.ofProgram p).declared :=
    congrArg List.range hsame.next
  have hresult : (Routine.ofProgram p').result = (Routine.ofProgram p).result := hsame.value
  have hbody : Statement.runAll (Routine.ofProgram p').body =
      Statement.runAll (Routine.ofProgram p).body := hsame.code.run
  constructor
  · intro σ host context run s
    show ((Routine.ofProgram p').run _ run).execute denied host s =
      ((Routine.ofProgram p).run _ run).execute denied host s
    rw [Routine.run, Routine.run, hdeclared, hresult, hbody]
  · exact congrArg List.length hdeclared

/-- `o.f(o[o.k])` and `o["f"](o[o["k"]])`: a method, and a member inside the key of another. -/
theorem evaluate_respelled_method :
    let o : Expression := .identifier "o"
    let call (f k : Expression) : Program := [.call f [.member o k true]]
    let p := call (.member o (.identifier "f") false) (.member o (.identifier "k") false)
    let p' := call (.member o (.literal (.string "f")) true)
      (.member o (.literal (.string "k")) true)
    let methods : Value := .object ⟨1, 1⟩ [("f", .function ⟨0, "f", false⟩), ("k", .string "k")]
    let context : Value := .object ⟨1, 0⟩ [("o", methods)]
    let x := (ofProgram .standard p).evaluate Host.recording (some context) 0 []
    let x' := (ofProgram .standard p').evaluate Host.recording (some context) 0 []
    RespelledAll p p' ∧ x' = x ∧ x.calls.length = 1 ∧
      (ofProgram .standard p').tempCount = (ofProgram .standard p).tempCount := by
  intro o call p p' methods context x x'
  have ho : Respelled o o := .identifier "o"
  have h : RespelledAll p p' :=
    .cons (.call (.named "f" ho) (.cons (.member true ho (.named "k" ho)) .nil)) .nil
  obtain ⟨hevaluate, hcount⟩ := evaluate_respelled h .standard
  refine ⟨h, hevaluate Host.recording (some context) 0 [], ?_, hcount⟩
  simp only [x, p, call, o, context, methods]
  decide +kernel

end Evaluator

end ExprSandbox
