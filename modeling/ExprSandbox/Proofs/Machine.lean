import ExprSandbox.Proofs.Running

/-!
# Routines as a machine

The statements of a routine, one step at a time.  A state holds the code that is still to be run,
the frame and the state of the host.  A step runs the first statement and comes with the event
that it causes, if it causes one; a conditional puts the block that it chooses before the rest of
the code.

Where a step is refused the state *meets a fault*: a denied name would be read, a function that
builds code would be called, or the host fails.  Every state that has code steps or meets a fault,
never both, and since steps use up code every run ends (`State.exists_runs`).
-/

namespace ExprSandbox

variable {σ : Type}

/-! ## States and steps -/

/-- The state of a machine: the code to be run, the frame and the state of the host. -/
structure State (σ : Type) where
  code : List Statement
  frame : Frame
  host : σ

/-- One statement is run, and nothing about it is refused. -/
inductive Step (denied : DenyList) (host : Host σ) : State σ → List Event → State σ → Prop
  /-- A value is put into a temporary. -/
  | assign {t n : Nat} {o : Operand} {rest : List Statement} {f : Frame} {s : σ} {v : Value}
      (value : o.eval f.toScope f.made = (v, n)) :
      Step denied host ⟨.assign t o :: rest, f, s⟩ [] ⟨rest, (f.withMade n).set t v, s⟩
  /-- A member of a truthy context is read. -/
  | readContext {t : Nat} {name : String} {rest : List Statement} {f : Frame} {s : σ}
      (truthy : f.context.isTruthy = true) (allowed : denied.denies name = false) :
      Step denied host ⟨.readContext t name :: rest, f, s⟩ [.read f.context name]
        ⟨rest, f.set t (f.context.get name), s⟩
  /-- A falsy context is left alone. -/
  | skipContext {t : Nat} {name : String} {rest : List Statement} {f : Frame} {s : σ}
      (falsy : f.context.isTruthy = false) :
      Step denied host ⟨.readContext t name :: rest, f, s⟩ [] ⟨rest, f, s⟩
  /-- A member of a value that is there is read. -/
  | readMember {t n n' : Nat} {o : Operand} {key : Key} {rest : List Statement} {f : Frame} {s : σ}
      {v : Value} {name : String} (base : o.eval f.toScope f.made = (v, n))
      (present : v.isNullish = false) (key_eval : key.eval f.toScope n = (name, n'))
      (allowed : denied.denies name = false) :
      Step denied host ⟨.readMember t o key :: rest, f, s⟩ [.read v name]
        ⟨rest, (f.withMade n').set t (v.get name), s⟩
  /-- A value that is missing is left alone. -/
  | skipMember {t n : Nat} {o : Operand} {key : Key} {rest : List Statement} {f : Frame} {s : σ}
      {v : Value} (base : o.eval f.toScope f.made = (v, n)) (missing : v.isNullish = true) :
      Step denied host ⟨.readMember t o key :: rest, f, s⟩ [] ⟨rest, f.withMade n, s⟩
  /-- A function is called, and the host answers. -/
  | call {t n n' n'' : Nat} {o r : Operand} {os : List Operand} {rest : List Statement} {f : Frame}
      {s s' : σ} {g : Function} {receiver v : Value} {arguments : List Value}
      (callee : o.eval f.toScope f.made = (.function g, n))
      (receiver_eval : r.eval f.toScope n = (receiver, n'))
      (arguments_eval : Operand.evalAll f.toScope os n' = (arguments, n''))
      (allowed : g.constructsCode = false)
      (answer : host.call ⟨g, receiver, arguments⟩ s = (.ok v, s')) :
      Step denied host ⟨.call t o r os :: rest, f, s⟩ [.call ⟨g, receiver, arguments⟩]
        ⟨rest, (f.withMade n'').set t v, s'⟩
  /-- What is no function is not called. -/
  | skipCall {t n : Nat} {o r : Operand} {os : List Operand} {rest : List Statement} {f : Frame}
      {s : σ} {v : Value} (callee : o.eval f.toScope f.made = (v, n))
      (uncallable : ∀ g, v ≠ .function g) :
      Step denied host ⟨.call t o r os :: rest, f, s⟩ [] ⟨rest, f.withMade n, s⟩
  /-- One of two blocks is chosen. -/
  | branch {n : Nat} {o : Operand} {a b rest : List Statement} {f : Frame} {s : σ} {v : Value}
      (test : o.eval f.toScope f.made = (v, n)) :
      Step denied host ⟨.branch o a b :: rest, f, s⟩ []
        ⟨(if v.isTruthy then a else b) ++ rest, f.withMade n, s⟩

/-- What ends a run before its code is used up. -/
inductive Fault where
  /-- A denied name would be read. -/
  | deniedRead (name : String)
  /-- A function that builds code would be called. -/
  | flaggedCall (f : Function)
  /-- The host was called and failed. -/
  | failedCall (c : Call) (e : EvalError)

/-- The error that a fault is reported as; the one of a host is passed on. -/
def Fault.error : Fault → EvalError
  | .deniedRead name => .forbidden name
  | .flaggedCall f => .forbidden f.name
  | .failedCall _ e => e

/-- What is done when a fault is met: only a call that fails is made at all. -/
def Fault.events : Fault → List Event
  | .deniedRead _ => []
  | .flaggedCall _ => []
  | .failedCall c _ => [.call c]

/-- The first statement is refused; the last argument is the state in which the host is left. -/
inductive Meets (denied : DenyList) (host : Host σ) : State σ → Fault → σ → Prop
  /-- A denied name of a truthy context. -/
  | readContext {t : Nat} {name : String} {rest : List Statement} {f : Frame} {s : σ}
      (truthy : f.context.isTruthy = true) (refused : denied.denies name = true) :
      Meets denied host ⟨.readContext t name :: rest, f, s⟩ (.deniedRead name) s
  /-- A denied name of a value that is there. -/
  | readMember {t n n' : Nat} {o : Operand} {key : Key} {rest : List Statement} {f : Frame} {s : σ}
      {v : Value} {name : String} (base : o.eval f.toScope f.made = (v, n))
      (present : v.isNullish = false) (key_eval : key.eval f.toScope n = (name, n'))
      (refused : denied.denies name = true) :
      Meets denied host ⟨.readMember t o key :: rest, f, s⟩ (.deniedRead name) s
  /-- A function that builds code. -/
  | flagged {t n : Nat} {o r : Operand} {os : List Operand} {rest : List Statement} {f : Frame}
      {s : σ} {g : Function} (callee : o.eval f.toScope f.made = (.function g, n))
      (refused : g.constructsCode = true) :
      Meets denied host ⟨.call t o r os :: rest, f, s⟩ (.flaggedCall g) s
  /-- A call that fails. -/
  | failed {t n n' n'' : Nat} {o r : Operand} {os : List Operand} {rest : List Statement}
      {f : Frame} {s s' : σ} {g : Function} {receiver : Value} {arguments : List Value}
      {e : EvalError}
      (callee : o.eval f.toScope f.made = (.function g, n))
      (receiver_eval : r.eval f.toScope n = (receiver, n'))
      (arguments_eval : Operand.evalAll f.toScope os n' = (arguments, n''))
      (allowed : g.constructsCode = false)
      (answer : host.call ⟨g, receiver, arguments⟩ s = (.error e, s')) :
      Meets denied host ⟨.call t o r os :: rest, f, s⟩ (.failedCall ⟨g, receiver, arguments⟩ e) s'

/-- Steps one after the other, with their events in order. -/
inductive Runs (denied : DenyList) (host : Host σ) : State σ → List Event → State σ → Prop
  | refl (st : State σ) : Runs denied host st [] st
  | step {st st₁ st₂ : State σ} {es es' : List Event} (first : Step denied host st es st₁)
      (rest : Runs denied host st₁ es' st₂) : Runs denied host st (es ++ es') st₂

section Machine

variable {denied : DenyList} {host : Host σ} {st st' : State σ} {es : List Event} {fault : Fault}
variable {s' : σ}

/-! ## Progress -/

/-- **Progress**: a state has no code left, steps, or meets a fault. -/
theorem State.progress (denied : DenyList) (host : Host σ) (st : State σ) :
    st.code = [] ∨ (∃ es st', Step denied host st es st') ∨
      ∃ fault s', Meets denied host st fault s' := by
  obtain ⟨code, f, s⟩ := st
  cases code with
  | nil => exact .inl rfl
  | cons first rest =>
    right
    cases first with
    | assign t o => exact .inl ⟨_, _, .assign rfl⟩
    | readContext t name =>
      cases htruth : f.context.isTruthy with
      | false => exact .inl ⟨_, _, .skipContext htruth⟩
      | true =>
        cases hname : denied.denies name with
        | false => exact .inl ⟨_, _, .readContext htruth hname⟩
        | true => exact .inr ⟨_, _, .readContext htruth hname⟩
    | readMember t o key =>
      cases hnull : (o.eval f.toScope f.made).1.isNullish with
      | true => exact .inl ⟨_, _, .skipMember rfl hnull⟩
      | false =>
        cases hname : denied.denies (key.eval f.toScope (o.eval f.toScope f.made).2).1 with
        | false => exact .inl ⟨_, _, .readMember rfl hnull rfl hname⟩
        | true => exact .inr ⟨_, _, .readMember rfl hnull rfl hname⟩
    | call t o r os =>
      by_cases hg : ∃ g, (o.eval f.toScope f.made).1 = .function g
      · obtain ⟨g, hg⟩ := hg
        have hcallee : o.eval f.toScope f.made = (.function g, (o.eval f.toScope f.made).2) :=
          Prod.ext hg rfl
        cases hflag : g.constructsCode with
        | true => exact .inr ⟨_, _, .flagged hcallee hflag⟩
        | false =>
          rcases hanswer : host.call ⟨g, (r.eval f.toScope (o.eval f.toScope f.made).2).1,
            (Operand.evalAll f.toScope os
              (r.eval f.toScope (o.eval f.toScope f.made).2).2).1⟩ s with ⟨e | v, s'⟩
          · exact .inr ⟨_, _, .failed hcallee rfl rfl hflag hanswer⟩
          · exact .inl ⟨_, _, .call hcallee rfl rfl hflag hanswer⟩
      · exact .inl ⟨_, _, .skipCall rfl fun g h => hg ⟨g, h⟩⟩
    | branch o a b => exact .inl ⟨_, _, .branch rfl⟩

/-- A state that meets a fault does not step. -/
theorem Meets.not_step (h : Meets denied host st fault s') : ¬ Step denied host st es st' := by
  intro hstep
  cases h with
  | readContext truthy refused => cases hstep <;> simp_all
  | readMember base present key_eval refused => cases hstep <;> simp_all
  | flagged callee refused => cases hstep <;> simp_all
  | failed callee receiver_eval arguments_eval allowed answer => cases hstep <;> simp_all

/-! ## Ends of runs -/

mutual
/-- The number of statements in a statement: itself, and those of its blocks. -/
def Statement.weight : Statement → Nat
  | .branch _ a b => Statement.weightAll a + Statement.weightAll b + 1
  | _ => 1

/-- The number of statements in code. -/
def Statement.weightAll : List Statement → Nat
  | [] => 0
  | first :: rest => first.weight + Statement.weightAll rest
end

/-- The weight of code adds up. -/
theorem Statement.weightAll_append (c c' : List Statement) :
    Statement.weightAll (c ++ c') = Statement.weightAll c + Statement.weightAll c' := by
  induction c with
  | nil => rw [List.nil_append, Statement.weightAll, Nat.zero_add]
  | cons first rest ih =>
    rw [List.cons_append, Statement.weightAll, Statement.weightAll, ih, Nat.add_assoc]

/-- **A step uses up code.**  A block that is put before the rest is smaller than its conditional,
and no statement brings back one that was run. -/
theorem Step.weight_lt (h : Step denied host st es st') :
    Statement.weightAll st'.code < Statement.weightAll st.code := by
  cases h with
  | @branch n o a b rest f s v test =>
    show Statement.weightAll ((if v.isTruthy then a else b) ++ rest) <
      Statement.weightAll (.branch o a b :: rest)
    rw [Statement.weightAll_append, Statement.weightAll, Statement.weight]
    split <;> omega
  | _ =>
    show Statement.weightAll _ < Statement.weightAll (_ :: _)
    rw [Statement.weightAll, Statement.weight]
    · exact Nat.lt_add_of_pos_left Nat.one_pos
    · exact nofun

/-- **Every run ends**: it uses up its code, or it meets a fault. -/
theorem State.exists_runs (denied : DenyList) (host : Host σ) (st : State σ) :
    ∃ es st', Runs denied host st es st' ∧
      (st'.code = [] ∨ ∃ fault s', Meets denied host st' fault s') := by
  induction hw : Statement.weightAll st.code using Nat.strongRecOn generalizing st with
  | _ w ih =>
    rcases st.progress denied host with hend | ⟨es, st₁, hstep⟩ | hfault
    · exact ⟨[], st, .refl st, .inl hend⟩
    · obtain ⟨es', st₂, hruns, hend⟩ := ih _ (hw ▸ hstep.weight_lt) st₁ rfl
      exact ⟨es ++ es', st₂, .step hstep hruns, hend⟩
    · exact ⟨[], st, .refl st, .inr hfault⟩

/-! ## What is allowed -/

/-- The event is a read under a name that is not denied, or a call of a function that builds no
code. -/
def Event.Allowed (denied : DenyList) : Event → Prop
  | .read _ name => denied.denies name = false
  | .call c => c.function.constructsCode = false

/-- A step does only what is allowed. -/
theorem Step.allowed (h : Step denied host st es st') : ∀ event ∈ es, event.Allowed denied := by
  intro event hevent
  cases h with
  | readContext truthy allowed =>
    obtain rfl := List.mem_singleton.mp hevent
    exact allowed
  | readMember base present key_eval allowed =>
    obtain rfl := List.mem_singleton.mp hevent
    exact allowed
  | call callee receiver_eval arguments_eval allowed answer =>
    obtain rfl := List.mem_singleton.mp hevent
    exact allowed
  | _ => cases hevent

/-- What is done when a fault is met is allowed: the call that failed was not refused. -/
theorem Meets.allowed (h : Meets denied host st fault s') :
    ∀ event ∈ fault.events, event.Allowed denied := by
  intro event hevent
  cases h with
  | failed callee receiver_eval arguments_eval allowed answer =>
    obtain rfl := List.mem_singleton.mp hevent
    exact allowed
  | _ => cases hevent

/-- A run does only what is allowed. -/
theorem Runs.allowed (h : Runs denied host st es st') : ∀ event ∈ es, event.Allowed denied := by
  induction h with
  | refl st => exact fun event hevent => nomatch hevent
  | step first _ ih =>
    intro event hevent
    rcases List.mem_append.mp hevent with hevent | hevent
    · exact first.allowed event hevent
    · exact ih event hevent

end Machine

end ExprSandbox
