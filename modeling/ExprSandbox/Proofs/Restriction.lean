import ExprSandbox.Proofs.Sandbox

/-!
# Stricter lists of denied names

An evaluation that denies more names does what one that denies fewer names does, until it stops
before a name that only it denies (`evaluate_restriction`).  The list is never asked for anything
but this: a step that is taken under the longer list is taken under the shorter one, with the same
events and the same next state, and a state that meets a fault under the longer list meets the
same one under the shorter list, or would have read a name that the shorter list leaves free.
-/

namespace ExprSandbox

/-! ## Lists of names -/

namespace DenyList

variable {d d' : DenyList} {name : String}

/-- Every name that one list denies is denied by the other. -/
instance : HasSubset DenyList where
  Subset d d' := ∀ name, d.denies name = true → d'.denies name = true

/-- A name that is not denied is not denied by a shorter list. -/
theorem denies_eq_false_of_subset (h : d ⊆ d') (hname : d'.denies name = false) :
    d.denies name = false := by
  cases hd : d.denies name with
  | false => rfl
  | true =>
    rw [h name hd] at hname
    cases hname

/-- One name more makes a list longer. -/
theorem subset_insert (d : DenyList) (name : String) : d ⊆ d.insert name := by
  intro n hn
  rw [denies_insert, hn, Bool.or_true]

end DenyList

variable {σ α β : Type}

/-- What has happened at first has called at first. -/
theorem Execution.calls_prefix {x : Execution σ α} {y : Execution σ β}
    (h : x.events <+: y.events) : x.calls <+: y.calls :=
  h.filterMap _

/-! ## Two machines -/

section Machine

variable {denied denied' : DenyList} {host : Host σ} {st st' : State σ} {es : List Event}
variable {fault : Fault} {s' : σ}

/-- **A step under a list is a step under a shorter one.** -/
theorem Step.restrict (h : Step denied' host st es st') (hsub : denied ⊆ denied') :
    Step denied host st es st' := by
  cases h with
  | assign value => exact .assign value
  | readContext truthy allowed =>
    exact .readContext truthy (DenyList.denies_eq_false_of_subset hsub allowed)
  | skipContext falsy => exact .skipContext falsy
  | readMember base present key_eval allowed =>
    exact .readMember base present key_eval (DenyList.denies_eq_false_of_subset hsub allowed)
  | skipMember base missing => exact .skipMember base missing
  | call callee receiver_eval arguments_eval allowed answer =>
    exact .call callee receiver_eval arguments_eval allowed answer
  | skipCall callee uncallable => exact .skipCall callee uncallable
  | branch test => exact .branch test

/-- **A run under a list is a run under a shorter one.** -/
theorem Runs.restrict (h : Runs denied' host st es st') (hsub : denied ⊆ denied') :
    Runs denied host st es st' := by
  induction h with
  | refl st => exact .refl st
  | step first _ ih => exact .step (first.restrict hsub) ih

/-- The fault is that a name would be read which only the second list denies. -/
def Fault.OnlyUnder (denied denied' : DenyList) (fault : Fault) : Prop :=
  ∃ name, fault = .deniedRead name ∧ denied'.denies name = true ∧ denied.denies name = false

/-- **A fault under a list is a fault under a shorter one**, unless it is the longer list alone
that denies the name. -/
theorem Meets.restrict (h : Meets denied' host st fault s') (denied : DenyList) :
    Meets denied host st fault s' ∨ fault.OnlyUnder denied denied' := by
  cases h with
  | @readContext t name rest f s truthy refused =>
    cases hname : denied.denies name with
    | false => exact .inr ⟨name, rfl, refused, hname⟩
    | true => exact .inl (.readContext truthy hname)
  | @readMember t n n' o key rest f s v name base present key_eval refused =>
    cases hname : denied.denies name with
    | false => exact .inr ⟨name, rfl, refused, hname⟩
    | true => exact .inl (.readMember base present key_eval hname)
  | flagged callee refused => exact .inl (.flagged callee refused)
  | failed callee receiver_eval arguments_eval allowed answer =>
    exact .inl (.failed callee receiver_eval arguments_eval allowed answer)

/-- **What is executed under a longer list**: the same, or a beginning of it that ends before a
name which only that list denies. -/
theorem State.execution_restrict (hsub : denied ⊆ denied') (host : Host σ) (start : State σ) :
    start.execution denied host = start.execution denied' host ∨
      ∃ name, denied'.denies name = true ∧ denied.denies name = false ∧
        (start.execution denied' host).outcome = .error (.forbidden name) ∧
        (start.execution denied' host).events <+: (start.execution denied host).events := by
  obtain ⟨es, st, hruns, hend⟩ := start.exists_runs denied' host
  have hruns' := hruns.restrict hsub
  rcases hend with hend | ⟨fault, s', hmeets⟩
  · left
    rw [hruns.execution_of_end hend, hruns'.execution_of_end hend]
  · rw [hruns.execution_of_meets hmeets]
    rcases hmeets.restrict denied with hmeets' | ⟨name, rfl, hdenied', hdenied⟩
    · left
      rw [hruns'.execution_of_meets hmeets']
    · -- the machine of the shorter list has come to the same state and goes on from there
      right
      refine ⟨name, hdenied', hdenied, rfl, (st.execution denied host).events, ?_⟩
      show es ++ [] ++ _ = _
      rw [List.append_nil, hruns'.execution_eq]
      rfl

end Machine

/-! ## Two evaluations -/

/-- **Denying more names only stops an evaluation earlier.**  A result under the longer list is the
result under the shorter one, after the same events and with the same effect on the host.  An
error under the longer list comes after a beginning of the calls that are made under the shorter
one; either everything is the same there, or the error forbids a name that only the longer list
denies. -/
theorem evaluate_restriction (r : Routine) {denied denied' : DenyList} (hsub : denied ⊆ denied')
    (host : Host σ) (context : Option Value) (run : Nat) (s : σ) :
    let x := Evaluator.evaluate ⟨r, denied⟩ host context run s
    let x' := Evaluator.evaluate ⟨r, denied'⟩ host context run s
    (∀ v, x'.outcome = .ok v → x.outcome = .ok v ∧ x.calls = x'.calls) ∧
      ∀ e, x'.outcome = .error e → x'.calls <+: x.calls ∧
        (x = x' ∨ ∃ name, e = .forbidden name ∧ denied'.denies name = true ∧
          denied.denies name = false) := by
  intro x x'
  let start : State σ := Evaluator.start ⟨r, denied⟩ context run s
  let result (f : Frame) : Value := (r.result.eval f.toScope f.made).1
  have hx : x = (start.execution denied host).map result := Evaluator.evaluate_eq ..
  have hx' : x' = (start.execution denied' host).map result := Evaluator.evaluate_eq ..
  rcases State.execution_restrict hsub host start with hsame | ⟨name, hd', hd, herror, hevents⟩
  · have heq : x = x' := by rw [hx, hx', hsame]
    rw [heq]
    exact ⟨fun v hv => ⟨hv, rfl⟩, fun e he => ⟨List.prefix_rfl, .inl rfl⟩⟩
  · have hforbidden : x'.outcome = .error (.forbidden name) := by
      rw [hx', Execution.map, herror]
      rfl
    refine ⟨fun v hv => ?_, fun e he => ⟨?_, .inr ⟨name, ?_, hd', hd⟩⟩⟩
    · rw [hforbidden] at hv
      cases hv
    · refine Execution.calls_prefix ?_
      rw [hx, hx']
      exact hevents
    · rw [hforbidden] at he
      exact (Except.error.inj he).symm

/-- `f(true); f.x` makes its call and reads the member, or stops before the member when `x` is
denied. -/
theorem evaluate_restriction_member :
    let r := Routine.ofProgram [.call (.identifier "f") [.literal (.bool true)],
      .member (.identifier "f") (.identifier "x") false]
    let f : Function := ⟨0, "f", false⟩
    let context : Value := .object ⟨1, 0⟩ [("f", .function f)]
    let x := Evaluator.evaluate ⟨r, .standard⟩ Host.recording (some context) 0 []
    let x' := Evaluator.evaluate ⟨r, .insert .standard "x"⟩ Host.recording (some context) 0 []
    x.outcome = .ok .undefined ∧ x'.outcome = .error (.forbidden "x") ∧
      x'.calls = [⟨f, context, [.bool true]⟩] ∧ x'.calls <+: x.calls := by
  intro r f context x x'
  have hx' : x'.outcome = .error (.forbidden "x") := by rfl
  obtain ⟨-, herror⟩ := evaluate_restriction r (DenyList.subset_insert .standard "x")
    Host.recording (some context) 0 []
  exact ⟨by rfl, hx', by rfl, (herror _ hx').1⟩

end ExprSandbox
