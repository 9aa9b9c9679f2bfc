import ExprSandbox.Proofs.WellFormed

/-!
# Temporaries that code does not touch

A frame may be given more temporaries than its code needs.  They are `undefined` like every
temporary that a frame does not have, so operands have the values that they have without them
(`Operand.eval_widen`), and code that does not put anything into them runs the same and leaves them
alone (`Statement.runAll_widen`).  So the code of an expression may be looked at apart from the
routine that it stands in.
-/

namespace ExprSandbox

/-- The scope with more temporaries behind its own. -/
def Scope.widen (s : Scope) (k : Nat) : Scope :=
  { s with temps := s.temps ++ Array.replicate k .undefined }

/-- The frame with more temporaries behind its own. -/
def Frame.widen (f : Frame) (k : Nat) : Frame :=
  { f with toScope := f.toScope.widen k }

/-! ## Temporaries -/

section Temporaries

variable (k : Nat)

/-- Temporaries are read as before: a new one is `undefined`, as it was when it was missing. -/
theorem Scope.getD_widen (s : Scope) (i : Nat) :
    (s.widen k).temps.getD i .undefined = s.temps.getD i .undefined := by
  rw [widen, Array.getD_eq_getD_getElem?, Array.getD_eq_getD_getElem?, Array.getElem?_append]
  by_cases hi : i < s.temps.size
  · rw [if_pos hi]
  · rw [if_neg hi, Array.getElem?_eq_none (Nat.not_lt.mp hi), Array.getElem?_replicate]
    split <;> rfl

/-- What is put into a temporary of the frame is put there in the widened frame. -/
theorem Frame.set_widen (f : Frame) {t : Nat} (ht : t < f.temps.size) (v : Value) :
    (f.widen k).set t v = (f.set t v).widen k := by
  have htemps : (f.temps ++ Array.replicate k Value.undefined).setIfInBounds t v =
      f.temps.setIfInBounds t v ++ Array.replicate k .undefined :=
    Array.setIfInBounds_append_left ht
  rw [widen, Scope.widen, set, htemps]
  rfl

/-- A start with more temporaries. -/
theorem Frame.start_widen (context : Value) (run n : Nat) :
    (start context run n).widen k = start context run (n + k) := by
  rw [widen, Scope.widen, start, start, Array.replicate_append_replicate]

end Temporaries

/-! ## Operands -/

namespace Operand

variable (s : Scope) (k : Nat)

mutual
/-- **An operand has the same value among more temporaries.** -/
theorem eval_widen (o : Operand) (made : Nat) : o.eval (s.widen k) made = o.eval s made := by
  match o with
  | .literal _ => rfl
  | .temp index => rw [eval, eval, s.getD_widen]
  | .context => rfl
  | .array slots =>
    rw [eval, eval, evalSlots_widen slots made]
    rfl
  | .object entries =>
    rw [eval, eval, evalEntries_widen entries made]
    rfl
  | .unary operator argument => rw [eval, eval, eval_widen argument made]
  | .binary operator left right => rw [eval, eval, eval_widen left made, eval_widen right _]

/-- The slots of an array have the same values. -/
theorem evalSlots_widen (slots : List (Option Operand)) (made : Nat) :
    evalSlots (s.widen k) slots made = evalSlots s slots made := by
  match slots with
  | [] => rfl
  | none :: rest => rw [evalSlots, evalSlots, evalSlots_widen rest made]
  | some o :: rest => rw [evalSlots, evalSlots, eval_widen o made, evalSlots_widen rest _]

/-- The entries of an object have the same values. -/
theorem evalEntries_widen (entries : List (String × Operand)) (made : Nat) :
    evalEntries (s.widen k) entries made = evalEntries s entries made := by
  match entries with
  | [] => rfl
  | (key, o) :: rest => rw [evalEntries, evalEntries, eval_widen o made, evalEntries_widen rest _]
end

/-- Operands have the same values from left to right. -/
theorem evalAll_widen (os : List Operand) (made : Nat) :
    evalAll (s.widen k) os made = evalAll s os made := by
  induction os generalizing made with
  | nil => rfl
  | cons o rest ih => rw [evalAll, evalAll, eval_widen s k o made, ih]

end Operand

/-- A key addresses the same member. -/
theorem Key.eval_widen (s : Scope) (k : Nat) (key : Key) (made : Nat) :
    key.eval (s.widen k) made = key.eval s made := by
  cases key with
  | named name => rfl
  | computed o => rw [eval, eval, Operand.eval_widen s k o made]

/-! ## Statements -/

namespace Statement

variable {β : Type} {n k : Nat} {f : Frame} {next next' : Frame → Process β}

/-- The code puts values into the first `n` temporaries only. -/
def Targets (n : Nat) (code : List Statement) : Prop :=
  ∀ t, Assigns code t → t < n

/-- What is done after a run is the same in a frame of `n` temporaries and in that frame widened. -/
def Widens (n k : Nat) (next next' : Frame → Process β) : Prop :=
  ∀ f, f.temps.size = n → next (f.widen k) = next' f

/-- What is done after a statement that puts no value. -/
theorem Widens.pass (h : Widens n k next next') (hf : f.temps.size = n) (made : Nat) :
    next ((f.widen k).withMade made) = next' (f.withMade made) :=
  h (f.withMade made) hf

/-- What is done after a value is put into a temporary. -/
theorem Widens.put (h : Widens n k next next') (hf : f.temps.size = n) {t : Nat} (ht : t < n)
    (made : Nat) (v : Value) :
    next (((f.widen k).withMade made).set t v) = next' ((f.withMade made).set t v) := by
  have hset := (f.withMade made).set_widen k (hf ▸ ht) v
  rw [← h _ (((f.withMade made).size_temps_set t v).trans hf), ← hset]
  rfl

section Forms

variable {t : Nat} {o callee receiver : Operand}

/-- A value is put into a temporary. -/
theorem assign_widen (h : Widens n k next next') (hf : f.temps.size = n) (ht : t < n) :
    ((assign t o).run (f.widen k)).bind next = ((assign t o).run f).bind next' := by
  have hvalue : o.eval (f.widen k).toScope (f.widen k).made = o.eval f.toScope f.made :=
    o.eval_widen f.toScope k f.made
  rw [run_assign, run_assign, Process.done_bind, Process.done_bind, hvalue]
  exact h.put hf ht _ _

/-- A name is read from the same context, or the context is left alone. -/
theorem readContext_widen (h : Widens n k next next') (hf : f.temps.size = n) (ht : t < n)
    (name : String) : ((readContext t name).run (f.widen k)).bind next =
      ((readContext t name).run f).bind next' := by
  cases htruth : f.context.isTruthy with
  | true =>
    rw [run_readContext_of_truthy htruth, run_readContext_of_truthy (f := f.widen k) htruth]
    exact congrArg (Process.read f.context name) (funext fun v => h.put hf ht f.made v)
  | false =>
    rw [run_readContext_of_falsy htruth, run_readContext_of_falsy (f := f.widen k) htruth]
    exact h f hf

/-- The same member is read of the same value, or none. -/
theorem readMember_widen (h : Widens n k next next') (hf : f.temps.size = n) (ht : t < n)
    (key : Key) : ((readMember t o key).run (f.widen k)).bind next =
      ((readMember t o key).run f).bind next' := by
  have hbase : o.eval (f.widen k).toScope (f.widen k).made = o.eval f.toScope f.made :=
    o.eval_widen f.toScope k f.made
  have hkey (m : Nat) : key.eval (f.widen k).toScope m = key.eval f.toScope m :=
    key.eval_widen f.toScope k m
  cases hnullish : (o.eval f.toScope f.made).1.isNullish with
  | true =>
    rw [run_readMember_of_nullish hnullish, run_readMember_of_nullish (by rw [hbase, hnullish]),
      hbase]
    exact h.pass hf _
  | false =>
    rw [run_readMember_of_present hnullish, run_readMember_of_present (by rw [hbase, hnullish]),
      hbase, hkey]
    exact congrArg (Process.read _ _) (funext fun v => h.put hf ht _ v)

/-- The same function is called, or none. -/
theorem call_widen (h : Widens n k next next') (hf : f.temps.size = n) (ht : t < n)
    (arguments : List Operand) :
    ((call t callee receiver arguments).run (f.widen k)).bind next =
      ((call t callee receiver arguments).run f).bind next' := by
  have hcallee : callee.eval (f.widen k).toScope (f.widen k).made = callee.eval f.toScope f.made :=
    callee.eval_widen f.toScope k f.made
  -- the receiver and the arguments are evaluated for a function only
  by_cases hfunction : ∃ g, (callee.eval f.toScope f.made).1 = .function g
  · obtain ⟨g, hg⟩ := hfunction
    have hreceiver (m : Nat) : receiver.eval (f.widen k).toScope m = receiver.eval f.toScope m :=
      receiver.eval_widen f.toScope k m
    have harguments (m : Nat) : Operand.evalAll (f.widen k).toScope arguments m =
        Operand.evalAll f.toScope arguments m := Operand.evalAll_widen f.toScope k arguments m
    rw [run_call_of_function hg, run_call_of_function (by rw [hcallee, hg]), hcallee]
    simp only [hreceiver, harguments]
    exact congrArg (Process.call g _ _) (funext fun v => h.put hf ht _ v)
  · have hnone : ∀ g, (callee.eval f.toScope f.made).1 ≠ .function g := not_exists.mp hfunction
    rw [run_call_of_not_function hnone, run_call_of_not_function (by rwa [hcallee]), hcallee]
    exact h.pass hf _

end Forms

/-- The target of a statement without blocks. -/
theorem Targets.lt {s : Statement} (h : Targets n [s]) {t : Nat} (ht : s.target? = some t) :
    t < n :=
  h t ((assigns_singleton ht).mpr rfl)

mutual
/-- A statement asks for the same in a widened frame, and so does what is done after it. -/
theorem run_widen (s : Statement) (hs : Targets n [s]) {next next' : Frame → Process β}
    (h : Widens n k next next') {f : Frame} (hf : f.temps.size = n) :
    (s.run (f.widen k)).bind next = (s.run f).bind next' := by
  match s with
  | .assign t o => exact assign_widen h hf (hs.lt rfl)
  | .readContext t name => exact readContext_widen h hf (hs.lt rfl) name
  | .readMember t o key => exact readMember_widen h hf (hs.lt rfl) key
  | .call t callee receiver arguments => exact call_widen h hf (hs.lt rfl) arguments
  | .branch test a b =>
    have htest : test.eval (f.widen k).toScope (f.widen k).made = test.eval f.toScope f.made :=
      test.eval_widen f.toScope k f.made
    -- the test may make objects, so the block starts in a frame that has made more
    have hblocks (m : Nat) : (f.widen k).withMade m = (f.withMade m).widen k := rfl
    rw [run_branch, run_branch, htest, hblocks]
    split
    · exact runAll_widen a (fun t ht => hs t (assigns_branch.mpr (.inl ht))) h hf
    · exact runAll_widen b (fun t ht => hs t (assigns_branch.mpr (.inr ht))) h hf

/-- **Code runs the same in a frame with more temporaries.**  It asks for the same, and so does
what is done after it, as long as that goes by the temporaries of the frame itself. -/
theorem runAll_widen (code : List Statement) (hcode : Targets n code)
    {next next' : Frame → Process β} (h : Widens n k next next') {f : Frame}
    (hf : f.temps.size = n) :
    (runAll code (f.widen k)).bind next = (runAll code f).bind next' := by
  match code with
  | [] => exact h f hf
  | s :: rest =>
    have hfirst : Targets n [s] := fun t ht => hcode t (assigns_append.mpr (.inl ht))
    have hrest : Targets n rest := fun t ht => by
      have hmem : Assigns ([s] ++ rest) t := assigns_append.mpr (.inr ht)
      exact hcode t hmem
    rw [runAll_cons, runAll_cons, Process.bind_assoc, Process.bind_assoc]
    exact run_widen s hfirst (fun f' hf' => runAll_widen rest hrest h hf') hf
end

end Statement

end ExprSandbox
