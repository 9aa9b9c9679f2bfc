import ExprSandbox.Proofs.Calls

/-!
# Lowered expressions simulate their evaluation

The lowered code of an expression simulates its direct evaluation, as a value and as the callee
of a call (`lower_simulates`).  There is one theorem for each kind of expression, which takes what
its parts are lowered to as given, and one induction over the tree that puts them together.
-/

namespace ExprSandbox

/-- A callee that is called without a receiver. -/
def Lowered.withoutReceiver (l : Lowered Operand) : Lowered Lowered.Target :=
  ⟨l.code, ⟨l.value, .literal .undefined⟩, l.next⟩

namespace Expression

/-! ## Parts of members and calls -/

/-- A member is the base, then the key behind the test of the base. -/
theorem evaluate_member (s : Setting) (base property : Expression) (computed : Bool) (made : Nat) :
    (member base property computed).evaluate s made =
      (base.evaluate s made).bind fun b =>
        readKey b.1 b.2 (evaluateKey (property.staticName? computed) (property.evaluate s)) :=
  rfl

/-- Evaluates a callee with its receiver. -/
def evaluateCallee (s : Setting) (callee : Expression) (made : Nat) : Process (Callee × Nat) :=
  match callee with
  | .member base property computed =>
    (base.evaluate s made).bind fun b =>
      (readKey b.1 b.2
        (evaluateKey (property.staticName? computed) (property.evaluate s))).map
          fun m => (⟨m.1, b.1⟩, m.2)
  | .identifier name => (readName s name).map fun v => (⟨v, s.context⟩, made)
  | callee => (callee.evaluate s made).map fun c => (⟨c.1, .undefined⟩, c.2)

/-- Lowers a callee with its receiver. -/
def lowerCallee (callee : Expression) (next : Nat) : Lowered Lowered.Target :=
  match callee with
  | .member base property computed =>
    let b := base.lower next
    let o := Lowered.materialize b.value b.next
    let m := Lowered.readMember o.value (property.staticName? computed) property.lower o.next
    ⟨b.code ++ o.code ++ m.code, ⟨m.value, o.value⟩, m.next⟩
  | .identifier name =>
    let c := Lowered.emit [] next (.readContext next name)
    ⟨c.code, ⟨c.value, .context⟩, c.next⟩
  | callee =>
    let c := callee.lower next
    ⟨c.code, ⟨c.value, .literal .undefined⟩, c.next⟩

/-- A call evaluates its callee, then its arguments, and then it is made. -/
theorem evaluate_call (s : Setting) (callee : Expression) (arguments : List Expression)
    (made : Nat) :
    (call callee arguments).evaluate s made =
      (evaluateCallee s callee made).bind fun t =>
        (evaluateArguments s arguments t.2).bind fun args =>
          (callValue t.1 args.1).map (·, args.2) := by
  cases callee <;> rfl

/-- A call is lowered in the same order. -/
theorem lower_call (callee : Expression) (arguments : List Expression) (next : Nat) :
    (call callee arguments).lower next =
      let t := lowerCallee callee next
      let args := lowerArguments arguments t.next
      Lowered.emit (t.code ++ args.code) args.next
        (.call args.next t.value.callee t.value.receiver args.value) := by
  cases callee <;> rfl

end Expression

/-! ## Expressions -/

section Expressions

variable {s : Setting}

/-- The lowered code of the expression simulates its evaluation, wherever its temporaries
start. -/
def Expression.Lowers (s : Setting) (e : Expression) : Prop :=
  ∀ next, Simulates s next next (e.lower next).next (e.evaluate s) (e.lower next).code
    (e.lower next).value.later

/-- The lowered code of the callee simulates its evaluation. -/
def Expression.LowersCallee (s : Setting) (e : Expression) : Prop :=
  ∀ next, Simulates s next next (e.lowerCallee next).next (e.evaluateCallee s)
    (e.lowerCallee next).code (e.lowerCallee next).value.later

/-- Lowered elements of an array; a hole needs no code. -/
def LowersElements (s : Setting) (es : List (Option Expression)) : Prop :=
  ∀ next, Simulates s next next (Expression.lowerElements es next).next
    (Expression.evaluateElements s es) (Expression.lowerElements es next).code
    fun sc n => Operand.evalSlots sc (Expression.lowerElements es next).value n

/-- Lowered values of an object. -/
def LowersProperties (s : Setting) (ps : List (PropertyKey × Expression)) : Prop :=
  ∀ next, Simulates s next next (Expression.lowerProperties ps next).next
    (Expression.evaluateProperties s ps) (Expression.lowerProperties ps next).code
    fun sc n => Operand.evalEntries sc (Expression.lowerProperties ps next).value n

/-- Lowered arguments. -/
def LowersArguments (s : Setting) (args : List Expression) : Prop :=
  ∀ next, Simulates s next next (Expression.lowerArguments args next).next
    (Expression.evaluateArguments s args) (Expression.lowerArguments args next).code
    fun sc n => Operand.evalAll sc (Expression.lowerArguments args next).value n

/-- Both sides read a name from the same context, or leave it alone. -/
theorem related_readContext (hcontext : Fresh s.run s.context) {ρ : Matching} {m k : Nat}
    {f : Frame} (name : String) (hf : Ready s k (k + 1) ρ m f) :
    Process.Related (Corresponds s.run)
      (fun ρ' v f' => Reached s.run k (k + 1) m ρ f (Operand.temp k).later ρ' (v, m) f' ∧ ρ ≤ ρ') ρ
      (Expression.readName s name) ((Statement.readContext k name).run f) := by
  have hlt : k < k + 1 := Nat.lt_succ_self k
  rw [Expression.readName]
  cases htruth : s.context.isTruthy with
  | false =>
    have htruth' : f.context.isTruthy = false := by rw [hf.context, htruth]
    rw [Statement.run_readContext_of_falsy htruth', if_neg Bool.false_ne_true]
    refine .done (le_refl ρ) ⟨.undefined ?_ hlt (hf.clean k (le_refl k) hlt), le_refl ρ⟩
    exact ⟨le_refl m, .refl ρ, hf.left, hf.right, .refl _ _⟩
  | true =>
    have htruth' : f.context.isTruthy = true := by rw [hf.context, htruth]
    rw [Statement.run_readContext_of_truthy htruth', if_pos rfl, hf.context]
    refine .read (le_refl ρ) hcontext.corresponds fun v v' hv =>
      .done (le_refl ρ) ⟨.temp ?_ hlt ?_, le_refl ρ⟩
    · exact ⟨le_refl m, .refl ρ, hf.left, hf.right,
        Frame.agrees_set f (le_refl k) hlt v'⟩
    · rw [f.getD_set (lt_of_lt_of_le hlt hf.room)]
      exact hv

/-- A lowered name. -/
theorem lowers_identifier (hcontext : Fresh s.run s.context) (name : String) :
    (Expression.identifier name).Lowers s := by
  intro next
  refine ⟨le_refl _, Nat.le_succ _, fun ρ m f hf => ?_⟩
  show Process.Related _ _ ρ ((Expression.readName s name).map (·, m))
    (Statement.runAll [.readContext next name] f)
  rw [Statement.runAll_singleton]
  exact (related_readContext hcontext name hf).mapLeft fun ρ' v f' _ hv => hv.1

/-- A lowered name as a callee has the context as its receiver. -/
theorem lowersCallee_identifier (hcontext : Fresh s.run s.context) (name : String) :
    (Expression.identifier name).LowersCallee s := by
  intro next
  refine ⟨le_refl _, Nat.le_succ _, fun ρ m f hf => ?_⟩
  show Process.Related _ _ ρ
    ((Expression.readName s name).map fun v => ((⟨v, s.context⟩ : Expression.Callee), m))
    (Statement.runAll [.readContext next name] f)
  rw [Statement.runAll_singleton]
  refine (related_readContext hcontext name hf).mapLeft fun ρ' v f' _ hv => ?_
  refine hv.1.callee ⟨s.context, hcontext.corresponds, fun sc hsc n => ?_⟩
  show (sc.context, n) = _
  rw [hsc.context, hv.1.keeps.context, hf.context]

/-- A lowered member, of a base and a key that are lowered. -/
theorem lowers_member {base property : Expression} (computed : Bool) (hbase : base.Lowers s)
    (hproperty : property.Lowers s) : (Expression.member base property computed).Lowers s := by
  intro next
  have h := (hbase next).readMember (property.staticName? computed) property.lower (hproperty _)
  exact h.congr (Expression.evaluate_member s base property computed) fun _ _ => rfl

/-- A lowered member as a callee has the base as its receiver. -/
theorem lowersCallee_member {base property : Expression} (computed : Bool)
    (hbase : base.Lowers s) (hproperty : property.Lowers s) :
    (Expression.member base property computed).LowersCallee s := by
  intro next
  exact (hbase next).readMethod (property.staticName? computed) property.lower hproperty

/-- Any other callee has no receiver. -/
theorem Expression.Lowers.callee {e : Expression} (h : e.Lowers s)
    (hname : ∀ name, e ≠ .identifier name)
    (hmember : ∀ base property computed, e ≠ .member base property computed) :
    e.LowersCallee s := by
  intro next
  cases e with
  | identifier name => exact absurd rfl (hname name)
  | member base property computed => exact absurd rfl (hmember base property computed)
  | _ => exact (h next).function

/-- A lowered constant. -/
theorem lowers_literal (c : Constant) : (Expression.literal c).Lowers s := by
  intro next
  have hpure : Simulates s next next next (fun m => .done (Value.ofConstant c, m)) []
      (Operand.literal c).later := by
    refine .pure next (fun ρ sc _ _ n => ?_) fun _ _ _ => rfl
    exact ⟨.ofConstant c, rfl, fun π _ => Value.rename_ofConstant π c⟩
  exact hpure.congr (fun _ => rfl) fun _ _ => rfl

/-- A lowered unary operator. -/
theorem lowers_unary (operator : UnaryOp) {argument : Expression} (h : argument.Lowers s) :
    (Expression.unary operator argument).Lowers s := by
  intro next
  have hmap := (h next).map fun π v => operator.rename_apply π v
  exact hmap.congr (fun _ => rfl) fun _ _ => rfl

/-- A lowered binary operator. -/
theorem lowers_binary (operator : BinaryOp) {left right : Expression} (hleft : left.Lowers s)
    (hright : right.Lowers s) : (Expression.binary operator left right).Lowers s := by
  intro next
  have hboth := (hleft next).combine (fun π v u => operator.rename_apply π v u)
    (hright (left.lower next).next)
  exact hboth.congr (fun _ => rfl) fun _ _ => rfl

/-- A lowered logical operator: both blocks put their value into the same temporary. -/
theorem lowers_logical (operator : LogicalOp) {left right : Expression} (hleft : left.Lowers s)
    (hright : right.Lowers s) : (Expression.logical operator left right).Lowers s := by
  intro next
  -- the target is taken before the code of the operands, and the right one may still overwrite it
  have hl := hleft (next + 1)
  have hr := hright (left.lower (next + 1)).next
  have hlt : next < (left.lower (next + 1)).next := hl.le'
  have hl' := (hl.assign (Nat.le_succ next) (le_refl next) (le_refl _) hlt).start (le_refl next)
    (Nat.le_succ next)
  have hr' := hr.assign hlt.le (le_refl next) (le_refl _) (lt_of_lt_of_le hlt hr.le')
  exact (hl'.logical operator hr').congr (fun _ => rfl) fun _ _ => rfl

/-- A lowered conditional. -/
theorem lowers_conditional {test consequent alternate : Expression} (htest : test.Lowers s)
    (hconsequent : consequent.Lowers s) (halternate : alternate.Lowers s) :
    (Expression.conditional test consequent alternate).Lowers s := by
  intro next
  have ht := htest next
  have hc := hconsequent ((test.lower next).next + 1)
  have ha := halternate (consequent.lower ((test.lower next).next + 1)).next
  have hlt := lt_of_lt_of_le (Nat.lt_succ_self _) hc.le'
  have hc' := (hc.assign (le_trans ht.le' (Nat.le_succ _)) ht.le' ha.le'
    (lt_of_lt_of_le hlt ha.le')).start ht.le' (Nat.le_succ _)
  have ha' := (ha.assign (le_trans ht.le' hlt.le) ht.le' (le_refl _)
    (lt_of_lt_of_le hlt ha.le')).start ht.le' hlt.le
  exact (ht.branch hc' ha').congr (fun _ => rfl) fun _ _ => rfl

/-- A lowered call. -/
theorem lowers_call {callee : Expression} {arguments : List Expression}
    (hcallee : callee.LowersCallee s)
    (harguments : LowersArguments s arguments) : (Expression.call callee arguments).Lowers s := by
  intro next
  rw [Expression.lower_call]
  have h := ((hcallee next).seq (harguments (callee.lowerCallee next).next)).call
  refine h.congr (fun m => ?_) fun _ _ => rfl
  rw [Expression.evaluate_call, Process.bind_assoc]
  congr 1
  funext t
  rw [Process.map_bind]

/-! ## Lists of expressions -/

/-- No elements. -/
theorem lowersElements_nil : LowersElements s [] := by
  intro next
  exact (Simulates.nil next).congr (fun _ => rfl) fun _ _ => rfl

/-- A hole takes no code. -/
theorem lowersElements_hole {rest : List (Option Expression)} (hrest : LowersElements s rest) :
    LowersElements s (none :: rest) := by
  intro next
  have hmap := (hrest next).map (g := (none :: ·)) fun π vs => rfl
  exact hmap.congr (fun _ => rfl) fun _ _ => rfl

/-- The code of an element, and that of the elements behind it. -/
theorem lowersElements_cons {e : Expression} {rest : List (Option Expression)} (he : e.Lowers s)
    (hrest : LowersElements s rest) : LowersElements s (some e :: rest) := by
  intro next
  have hboth := (he next).combine (g := fun v vs => some v :: vs) (fun π v vs => rfl)
    (hrest (e.lower next).next)
  exact hboth.congr (fun _ => rfl) fun _ _ => rfl

/-- No properties. -/
theorem lowersProperties_nil : LowersProperties s [] := by
  intro next
  exact (Simulates.nil next).congr (fun _ => rfl) fun _ _ => rfl

/-- The code of a property, and that of the properties behind it. -/
theorem lowersProperties_cons (key : PropertyKey) {e : Expression}
    {rest : List (PropertyKey × Expression)} (he : e.Lowers s)
    (hrest : LowersProperties s rest) : LowersProperties s ((key, e) :: rest) := by
  intro next
  have hboth := (he next).combine (g := fun v es => (key.name, v) :: es) (fun π v es => rfl)
    (hrest (e.lower next).next)
  exact hboth.congr (fun _ => rfl) fun _ _ => rfl

/-- No arguments. -/
theorem lowersArguments_nil : LowersArguments s [] := by
  intro next
  exact (Simulates.nil next).congr (fun _ => rfl) fun _ _ => rfl

/-- The code of an argument, and that of the arguments behind it. -/
theorem lowersArguments_cons {e : Expression} {rest : List Expression} (he : e.Lowers s)
    (hrest : LowersArguments s rest) : LowersArguments s (e :: rest) := by
  intro next
  have hboth := (he next).combine (g := fun v vs => v :: vs) (fun π v vs => rfl)
    (hrest (e.lower next).next)
  exact hboth.congr (fun _ => rfl) fun _ _ => rfl

/-- A lowered array. -/
theorem lowers_array {elements : List (Option Expression)} (h : LowersElements s elements) :
    (Expression.array elements).Lowers s := by
  intro next
  have hbuild := (h next).build fun π i vs => Value.rename_array π i vs
  exact hbuild.congr (fun _ => rfl) fun _ _ => rfl

/-- A lowered object. -/
theorem lowers_object {properties : List (PropertyKey × Expression)}
    (h : LowersProperties s properties) : (Expression.object properties).Lowers s := by
  intro next
  have hbuild := (h next).build fun π i es => Value.ofEntries_rename π i es
  exact hbuild.congr (fun _ => rfl) fun _ _ => rfl

/-! ## All expressions -/

mutual
/-- **The lowered code of an expression simulates its evaluation**, as a value and as a callee. -/
theorem lower_simulates (hcontext : Fresh s.run s.context) (e : Expression) :
    e.Lowers s ∧ e.LowersCallee s := by
  match e with
  | .literal c =>
    have h := lowers_literal (s := s) c
    exact ⟨h, h.callee nofun nofun⟩
  | .identifier name =>
    exact ⟨lowers_identifier hcontext name, lowersCallee_identifier hcontext name⟩
  | .array elements =>
    have h := lowers_array (lowerElements_simulates hcontext elements)
    exact ⟨h, h.callee nofun nofun⟩
  | .object properties =>
    have h := lowers_object (lowerProperties_simulates hcontext properties)
    exact ⟨h, h.callee nofun nofun⟩
  | .unary operator argument =>
    have h := lowers_unary operator (lower_simulates hcontext argument).1
    exact ⟨h, h.callee nofun nofun⟩
  | .binary operator left right =>
    have hleft := (lower_simulates hcontext left).1
    have hright := (lower_simulates hcontext right).1
    have h := lowers_binary operator hleft hright
    exact ⟨h, h.callee nofun nofun⟩
  | .logical operator left right =>
    have hleft := (lower_simulates hcontext left).1
    have hright := (lower_simulates hcontext right).1
    have h := lowers_logical operator hleft hright
    exact ⟨h, h.callee nofun nofun⟩
  | .conditional test consequent alternate =>
    have htest := (lower_simulates hcontext test).1
    have hconsequent := (lower_simulates hcontext consequent).1
    have halternate := (lower_simulates hcontext alternate).1
    have h := lowers_conditional htest hconsequent halternate
    exact ⟨h, h.callee nofun nofun⟩
  | .member base property computed =>
    have hbase := (lower_simulates hcontext base).1
    have hproperty := (lower_simulates hcontext property).1
    exact ⟨lowers_member computed hbase hproperty,
      lowersCallee_member computed hbase hproperty⟩
  | .call callee arguments =>
    have hcallee := (lower_simulates hcontext callee).2
    have h := lowers_call hcallee (lowerArguments_simulates hcontext arguments)
    exact ⟨h, h.callee nofun nofun⟩

/-- The elements of an array are simulated from left to right. -/
theorem lowerElements_simulates (hcontext : Fresh s.run s.context)
    (es : List (Option Expression)) : LowersElements s es := by
  match es with
  | [] => exact lowersElements_nil
  | none :: rest => exact lowersElements_hole (lowerElements_simulates hcontext rest)
  | some e :: rest =>
    exact lowersElements_cons (lower_simulates hcontext e).1 (lowerElements_simulates hcontext rest)

/-- The values of an object are simulated from left to right. -/
theorem lowerProperties_simulates (hcontext : Fresh s.run s.context)
    (ps : List (PropertyKey × Expression)) : LowersProperties s ps := by
  match ps with
  | [] => exact lowersProperties_nil
  | (key, e) :: rest =>
    exact lowersProperties_cons key (lower_simulates hcontext e).1
      (lowerProperties_simulates hcontext rest)

/-- Arguments are simulated from left to right. -/
theorem lowerArguments_simulates (hcontext : Fresh s.run s.context) (args : List Expression) :
    LowersArguments s args := by
  match args with
  | [] => exact lowersArguments_nil
  | e :: rest =>
    exact lowersArguments_cons (lower_simulates hcontext e).1
      (lowerArguments_simulates hcontext rest)
end

end Expressions

end ExprSandbox
