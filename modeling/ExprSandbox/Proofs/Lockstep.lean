import ExprSandbox.Proofs.Lowering

/-!
# One routine in two contexts

Run the same code in two frames that differ in their contexts only, of which both are truthy or
both are falsy.  The runs go in lockstep if the code does not look at the context itself: they read
the same names, from values that have the same member under them, make the same calls, and leave
frames that again differ in their contexts only.

Each kind of statement takes one step in lockstep (`step_assign`, …, `step_branch`), and code that
takes such steps is `Impartial`.  A call with the context as its receiver takes no step in lockstep
but where its callee is not there: the temporary that holds the callee is still `undefined`
(`step_call_of_undefined`).  For that, impartial code says which temporaries it finds fresh and
which ones it touches.
-/

namespace ExprSandbox

variable {α β γ δ σ : Type}

/-! ## Processes in lockstep -/

/-- Two processes that read the same names, from values that have the same member under them, make
the same calls, and end in related results. -/
inductive Process.Lockstep (R : α → β → Prop) : Process α → Process β → Prop
  | done {a : α} {b : β} (result : R a b) : Lockstep R (.done a) (.done b)
  | read {base base' : Value} {name : String} {next : Value → Process α}
      {next' : Value → Process β} (answer : base'.get name = base.get name)
      (rest : Lockstep R (next (base.get name)) (next' (base'.get name))) :
      Lockstep R (.read base name next) (.read base' name next')
  | call {f : Function} {receiver : Value} {arguments : List Value} {next : Value → Process α}
      {next' : Value → Process β} (rest : ∀ v, Lockstep R (next v) (next' v)) :
      Lockstep R (.call f receiver arguments next) (.call f receiver arguments next')

/-- Two executions that have the same outcome, make the same calls and leave the same state.  They
may have read from different values. -/
structure Execution.Indistinct (x y : Execution σ α) : Prop where
  outcome : x.outcome = y.outcome
  calls : x.calls = y.calls
  host : x.host = y.host

namespace Process.Lockstep

variable {R : α → β → Prop} {S : γ → δ → Prop} {p : Process α} {q : Process β}

/-- Processes in lockstep go on in lockstep. -/
theorem bind {k : α → Process γ} {l : β → Process δ} (h : Lockstep R p q)
    (rest : ∀ a b, R a b → Lockstep S (k a) (l b)) : Lockstep S (p.bind k) (q.bind l) := by
  induction h with
  | done result => exact rest _ _ result
  | read answer _ ih => exact .read answer ih
  | call _ ih => exact .call ih

/-- Processes in lockstep whose results are related in another way as well. -/
theorem imp {S : α → β → Prop} (h : Lockstep R p q) (results : ∀ a b, R a b → S a b) :
    Lockstep S p q := by
  rw [← Process.bind_done p, ← Process.bind_done q]
  exact h.bind fun a b hab => .done (results a b hab)

/-- **Processes in lockstep cannot be told apart** by their outcomes and calls. -/
theorem execute {p q : Process α} (h : Lockstep Eq p q) (denied : DenyList) (host : Host σ)
    (s : σ) : (p.execute denied host s).Indistinct (q.execute denied host s) := by
  induction h generalizing s with
  | done result =>
    rw [result]
    exact ⟨rfl, rfl, rfl⟩
  | @read base base' name next next' answer rest ih =>
    rw [Process.execute, Process.execute]
    by_cases hname : denied.denies name
    · rw [if_pos hname, if_pos hname]
      exact ⟨rfl, rfl, rfl⟩
    · rw [if_neg hname, if_neg hname]
      obtain ⟨houtcome, hcalls, hhost⟩ := ih s
      exact ⟨houtcome, hcalls, hhost⟩
  | @call f receiver arguments next next' rest ih =>
    rw [Process.execute, Process.execute]
    by_cases hcode : f.constructsCode
    · rw [if_pos hcode, if_pos hcode]
      exact ⟨rfl, rfl, rfl⟩
    · rw [if_neg hcode, if_neg hcode]
      cases host.call ⟨f, receiver, arguments⟩ s with
      | mk answer s =>
        cases answer with
        | error e => exact ⟨rfl, rfl, rfl⟩
        | ok v =>
          obtain ⟨houtcome, hcalls, hhost⟩ := ih v s
          exact ⟨houtcome, congrArg (List.cons _) hcalls, hhost⟩

end Process.Lockstep

/-! ## Operands without the context -/

/-- The same scope in another context. -/
def Scope.inContext (s : Scope) (c : Value) : Scope :=
  { s with context := c }

namespace Operand

mutual
/-- The context does not occur in the operand. -/
def ContextFree : Operand → Prop
  | .literal _ => True
  | .temp _ => True
  | .context => False
  | .array slots => SlotsContextFree slots
  | .object entries => EntriesContextFree entries
  | .unary _ argument => argument.ContextFree
  | .binary _ left right => left.ContextFree ∧ right.ContextFree

/-- The context does not occur in the slots. -/
def SlotsContextFree : List (Option Operand) → Prop
  | [] => True
  | none :: rest => SlotsContextFree rest
  | some o :: rest => o.ContextFree ∧ SlotsContextFree rest

/-- The context does not occur in the entries. -/
def EntriesContextFree : List (String × Operand) → Prop
  | [] => True
  | (_, o) :: rest => o.ContextFree ∧ EntriesContextFree rest
end

/-- The context does not occur in the operands. -/
def AllContextFree : List Operand → Prop
  | [] => True
  | o :: rest => o.ContextFree ∧ AllContextFree rest

variable (s : Scope) (c : Value)

mutual
/-- **An operand without the context** evaluates to the same in every context. -/
theorem eval_inContext (o : Operand) (h : o.ContextFree) (n : Nat) :
    o.eval (s.inContext c) n = o.eval s n := by
  match o with
  | .literal _ => rfl
  | .temp _ => rfl
  | .array slots =>
    rw [eval, eval, evalSlots_inContext slots h n]
    rfl
  | .object entries =>
    rw [eval, eval, evalEntries_inContext entries h n]
    rfl
  | .unary operator argument => rw [eval, eval, eval_inContext argument h n]
  | .binary operator left right =>
    rw [eval, eval, eval_inContext left h.1 n, eval_inContext right h.2 _]

/-- Slots without the context evaluate to the same. -/
theorem evalSlots_inContext (slots : List (Option Operand)) (h : SlotsContextFree slots)
    (n : Nat) : evalSlots (s.inContext c) slots n = evalSlots s slots n := by
  match slots with
  | [] => rfl
  | none :: rest => rw [evalSlots, evalSlots, evalSlots_inContext rest h n]
  | some o :: rest =>
    rw [evalSlots, evalSlots, eval_inContext o h.1 n, evalSlots_inContext rest h.2 _]

/-- Entries without the context evaluate to the same. -/
theorem evalEntries_inContext (entries : List (String × Operand)) (h : EntriesContextFree entries)
    (n : Nat) : evalEntries (s.inContext c) entries n = evalEntries s entries n := by
  match entries with
  | [] => rfl
  | (key, o) :: rest =>
    rw [evalEntries, evalEntries, eval_inContext o h.1 n, evalEntries_inContext rest h.2 _]
end

/-- Operands without the context evaluate to the same from left to right. -/
theorem evalAll_inContext {os : List Operand} (h : AllContextFree os) (n : Nat) :
    evalAll (s.inContext c) os n = evalAll s os n := by
  induction os generalizing n with
  | nil => rfl
  | cons o rest ih => rw [evalAll, evalAll, eval_inContext s c o h.1 n, ih h.2]

end Operand

/-- The context does not occur in the key. -/
def Key.ContextFree : Key → Prop
  | .named _ => True
  | .computed o => o.ContextFree

/-- A key without the context addresses the same member in every context. -/
theorem Key.eval_inContext {key : Key} (h : key.ContextFree) (s : Scope) (c : Value) (n : Nat) :
    key.eval (s.inContext c) n = key.eval s n := by
  cases key with
  | named name => rfl
  | computed o => rw [Key.eval, Key.eval, Operand.eval_inContext s c o h n]

/-! ## Statements -/

/-- The same frame in another context. -/
def Frame.inContext (f : Frame) (c : Value) : Frame :=
  { f with toScope := f.toScope.inContext c }

/-- Both runs have come from the frame `f` on, or from `f` in the context `c`, to frames that differ
in the context only, and they have touched no temporaries but those of `T`. -/
structure Frame.StepsTo (c : Value) (T : Nat → Prop) (f g g' : Frame) : Prop where
  same : g' = g.inContext c
  keeps : f.toScope.Agrees (fun x => ¬ T x) g.toScope

namespace Statement

/-- From the frame `f`, and from `f` in the context `c`, both processes go in lockstep and touch
the temporaries of `T` only. -/
abbrev Steps (c : Value) (T : Nat → Prop) (f : Frame) (p q : Process Frame) : Prop :=
  Process.Lockstep (Frame.StepsTo c T f) p q

section Steps

variable {c : Value} {T : Nat → Prop} {t : Nat} {f : Frame} {o callee receiver : Operand}
variable {key : Key} {arguments : List Operand}

/-- Nothing but arrays and objects has been made. -/
theorem steps_withMade (n : Nat) :
    Steps c T f (.done (f.withMade n)) (.done ((f.inContext c).withMade n)) :=
  .done ⟨rfl, .refl _ _⟩

/-- A value is put into a temporary. -/
theorem steps_set (ht : T t) (n : Nat) (v : Value) :
    Steps c T f (.done ((f.withMade n).set t v))
      (.done (((f.inContext c).withMade n).set t v)) := by
  refine .done ⟨rfl, rfl, rfl, f.size_temps_set t v, fun x hx => ?_⟩
  have hne : x ≠ t := fun h => hx (h ▸ ht)
  exact f.getD_set_of_ne hne v

/-- An assignment. -/
theorem step_assign (ho : o.ContextFree) (ht : T t) :
    Steps c T f ((assign t o).run f) ((assign t o).run (f.inContext c)) := by
  have heval : o.eval (f.inContext c).toScope (f.inContext c).made = o.eval f.toScope f.made :=
    o.eval_inContext f.toScope c ho f.made
  rw [run_assign, run_assign, heval]
  exact steps_set ht _ _

/-- A read of the context, under a name that stands for the same in both. -/
theorem step_readContext {name : String} (htruthy : c.isTruthy = f.context.isTruthy)
    (hname : f.context.isTruthy = true → c.get name = f.context.get name) (ht : T t) :
    Steps c T f ((readContext t name).run f) ((readContext t name).run (f.inContext c)) := by
  cases h : f.context.isTruthy with
  | false =>
    rw [run_readContext_of_falsy h, run_readContext_of_falsy (htruthy.trans h)]
    exact steps_withMade f.made
  | true =>
    rw [run_readContext_of_truthy h, run_readContext_of_truthy (htruthy.trans h)]
    refine .read (hname h) ?_
    show Steps c T f (.done (f.set t _)) (.done ((f.inContext c).set t (c.get name)))
    rw [hname h]
    exact steps_set ht f.made _

/-- A read of a member. -/
theorem step_readMember (ho : o.ContextFree) (hkey : key.ContextFree) (ht : T t) :
    Steps c T f ((readMember t o key).run f) ((readMember t o key).run (f.inContext c)) := by
  have heval : o.eval (f.inContext c).toScope (f.inContext c).made = o.eval f.toScope f.made :=
    o.eval_inContext f.toScope c ho f.made
  have hname : ∀ n, key.eval (f.inContext c).toScope n = key.eval f.toScope n :=
    key.eval_inContext hkey f.toScope c
  cases h : (o.eval f.toScope f.made).1.isNullish with
  | true =>
    rw [run_readMember_of_nullish h, run_readMember_of_nullish (by rw [heval, h]), heval]
    exact steps_withMade _
  | false =>
    rw [run_readMember_of_present h, run_readMember_of_present (by rw [heval, h]), heval]
    simp only [hname]
    exact .read rfl (steps_set ht _ _)

/-- A call without the context. -/
theorem step_call (hcallee : callee.ContextFree) (hreceiver : receiver.ContextFree)
    (harguments : Operand.AllContextFree arguments) (ht : T t) :
    Steps c T f ((call t callee receiver arguments).run f)
      ((call t callee receiver arguments).run (f.inContext c)) := by
  have heval : callee.eval (f.inContext c).toScope (f.inContext c).made =
      callee.eval f.toScope f.made :=
    callee.eval_inContext f.toScope c hcallee f.made
  by_cases hg : ∃ g, (callee.eval f.toScope f.made).1 = .function g
  · obtain ⟨g, hg⟩ := hg
    have hr : ∀ n, receiver.eval (f.inContext c).toScope n = receiver.eval f.toScope n :=
      receiver.eval_inContext f.toScope c hreceiver
    have ha : ∀ n, Operand.evalAll (f.inContext c).toScope arguments n =
        Operand.evalAll f.toScope arguments n :=
      Operand.evalAll_inContext f.toScope c harguments
    rw [run_call_of_function hg, run_call_of_function (by rw [heval, hg]), heval]
    simp only [hr, ha]
    exact .call fun v => steps_set ht _ v
  · have hnone : ∀ g, (callee.eval f.toScope f.made).1 ≠ .function g := fun g hg' => hg ⟨g, hg'⟩
    rw [run_call_of_not_function hnone, run_call_of_not_function (by rwa [heval]), heval]
    exact steps_withMade _

/-- A call whose callee is missing, whatever its receiver. -/
theorem step_call_of_undefined {u : Nat} (hu : f.temps.getD u .undefined = .undefined) :
    Steps c T f ((call t (.temp u) receiver arguments).run f)
      ((call t (.temp u) receiver arguments).run (f.inContext c)) := by
  have hskip : ∀ g : Frame, g.temps.getD u .undefined = .undefined →
      (call t (.temp u) receiver arguments).run g = .done (g.withMade g.made) := by
    intro g hg
    refine run_call_of_not_function ?_
    rw [Operand.eval, hg]
    nofun
  rw [hskip f hu, hskip (f.inContext c) hu]
  exact steps_withMade f.made

end Steps

/-! ## Impartial code -/

/-- The runs of the code in the contexts `c` and `c'` go in lockstep.  It needs the temporaries of
`F` to be fresh and touches those of `T` only. -/
def Impartial (c c' : Value) (F T : Nat → Prop) (code : List Statement) : Prop :=
  ∀ f : Frame, f.context = c → (∀ x, F x → f.temps.getD x .undefined = .undefined) →
    Steps c' T f (runAll code f) (runAll code (f.inContext c'))

namespace Impartial

variable {c c' : Value} {F F' T T' : Nat → Prop} {code code' : List Statement}

/-- No code. -/
theorem nil : Impartial c c' F T [] :=
  fun f _ _ => steps_withMade f.made

/-- Code may be said to need more fresh temporaries, and to touch more. -/
theorem mono (h : Impartial c c' F T code) (hF : ∀ x, F x → F' x) (hT : ∀ x, T x → T' x) :
    Impartial c c' F' T' code := by
  intro f hf hfresh
  refine (h f hf fun x hx => hfresh x (hF x hx)).imp fun g g' hg => ?_
  exact ⟨hg.same, hg.keeps.mono fun x hx hT' => hx (hT x hT')⟩

/-- **Code in sequence**: the first part leaves the temporaries alone that the second one needs to
be fresh. -/
theorem append (h : Impartial c c' F T code) (h' : Impartial c c' F' T' code')
    (hfree : ∀ x, F' x → ¬ T x) :
    Impartial c c' (fun x => F x ∨ F' x) (fun x => T x ∨ T' x) (code ++ code') := by
  intro f hf hfresh
  rw [runAll_append, runAll_append]
  refine (h f hf fun x hx => hfresh x (.inl hx)).bind ?_
  rintro g g' ⟨rfl, hkeeps⟩
  have hfresh' : ∀ x, F' x → g.temps.getD x .undefined = .undefined := fun x hx =>
    (hkeeps.temps x (hfree x hx)).trans (hfresh x (.inr hx))
  refine (h' g (hkeeps.context.trans hf) hfresh').imp fun a b hab => ⟨hab.same, ?_⟩
  exact (hkeeps.mono fun x hx hT => hx (.inl hT)).trans
    (hab.keeps.mono fun x hx hT => hx (.inr hT))

/-- A statement whose steps are in lockstep. -/
theorem singleton {s : Statement}
    (h : ∀ f : Frame, f.context = c → Steps c' T f (s.run f) (s.run (f.inContext c'))) :
    Impartial c c' F T [s] := by
  intro f hf _
  rw [runAll_singleton, runAll_singleton]
  exact h f hf

/-- A conditional whose blocks are impartial. -/
theorem branch {test : Operand} {a b : List Statement} (htest : test.ContextFree)
    (ha : Impartial c c' F T a) (hb : Impartial c c' F T b) :
    Impartial c c' F T [.branch test a b] := by
  intro f hf hfresh
  have heval : test.eval (f.inContext c').toScope (f.inContext c').made =
      test.eval f.toScope f.made :=
    test.eval_inContext f.toScope c' htest f.made
  rw [runAll_singleton, runAll_singleton, run_branch, run_branch, heval]
  by_cases htruth : (test.eval f.toScope f.made).1.isTruthy
  · rw [if_pos htruth, if_pos htruth]
    exact (ha (f.withMade (test.eval f.toScope f.made).2) hf hfresh).imp fun _ _ hg =>
      ⟨hg.same, hg.keeps⟩
  · rw [if_neg htruth, if_neg htruth]
    exact (hb (f.withMade (test.eval f.toScope f.made).2) hf hfresh).imp fun _ _ hg =>
      ⟨hg.same, hg.keeps⟩

end Impartial

end Statement

end ExprSandbox
