import Mathlib.Data.List.Forall2
import Mathlib.Order.Basic
import ExprSandbox.Process

/-!
# Simulation between processes

Two processes simulate each other when they make the same requests in the same order, on related
values, for as long as they are given related answers.  What "related" means may grow while the
processes run, for instance because new identities are matched with each other; a *world* says
how far it has grown.  The main statement, `Related.execute`, carries such a relation over to
executions: related processes, executed on related states of a host that keeps the relation, end
in related outcomes after related events.
-/

namespace ExprSandbox

/-! ## Sequencing -/

namespace Process

variable {α β γ : Type}

/-- Sequencing is associative. -/
theorem bind_assoc (p : Process α) (k : α → Process β) (l : β → Process γ) :
    (p.bind k).bind l = p.bind fun a => (k a).bind l := by
  induction p with
  | done a => rfl
  | read base name next ih =>
    show Process.read base name _ = Process.read base name _
    congr 1
    funext v
    exact ih v
  | call f receiver arguments next ih =>
    show Process.call f receiver arguments _ = Process.call f receiver arguments _
    congr 1
    funext v
    exact ih v

/-- Going on from a process that is done. -/
@[simp] theorem done_bind (a : α) (k : α → Process β) : (Process.done a).bind k = k a := rfl

/-- A process that only hands its result on is itself. -/
@[simp] theorem bind_done (p : Process α) : p.bind .done = p := by
  induction p with
  | done a => rfl
  | read base name next ih =>
    show Process.read base name _ = _
    congr 1
    funext v
    exact ih v
  | call f receiver arguments next ih =>
    show Process.call f receiver arguments _ = _
    congr 1
    funext v
    exact ih v

/-- Going on from a changed result. -/
theorem map_bind (f : α → β) (p : Process α) (k : β → Process γ) :
    (p.map f).bind k = p.bind fun a => k (f a) := by
  rw [map, bind_assoc]
  rfl

/-- Changing the result of a sequence. -/
theorem bind_map (p : Process α) (k : α → Process β) (f : β → γ) :
    (p.bind k).map f = p.bind fun a => (k a).map f :=
  bind_assoc p k _

end Process

/-! ## Related processes -/

/-- The only world of a relation that does not grow. -/
inductive SingleWorld where
  | only

instance : Preorder SingleWorld where
  le _ _ := True
  le_refl _ := trivial
  le_trans _ _ _ _ _ := trivial

section Related

variable {W : Type} [Preorder W] (V : W → Value → Value → Prop)
variable {α β : Type} {γ δ : Type}

/-- Two processes that make the same requests on related values and end in related results.  The
world may grow before each request and before the end, and related answers lead to related
processes. -/
inductive Process.Related (R : W → α → β → Prop) : W → Process α → Process β → Prop
  | done {w w' : W} {a : α} {b : β} (le : w ≤ w') (result : R w' a b) :
      Related R w (.done a) (.done b)
  | read {w w' : W} {base base' : Value} {name : String} {next : Value → Process α}
      {next' : Value → Process β} (le : w ≤ w') (related : V w' base base')
      (rest : ∀ v v', V w' v v' → Related R w' (next v) (next' v')) :
      Related R w (.read base name next) (.read base' name next')
  | call {w w' : W} {f : Function} {receiver receiver' : Value} {arguments arguments' : List Value}
      {next : Value → Process α} {next' : Value → Process β} (le : w ≤ w')
      (related : V w' receiver receiver')
      (items : List.Forall₂ (V w') arguments arguments')
      (rest : ∀ v v', V w' v v' → Related R w' (next v) (next' v')) :
      Related R w (.call f receiver arguments next) (.call f receiver' arguments' next')

namespace Process.Related

variable {V} {R : W → α → β → Prop} {S : W → γ → δ → Prop}

/-- Processes related in a later world are related in an earlier one. -/
theorem weaken {w w' : W} {p : Process α} {q : Process β} (le : w ≤ w')
    (h : Related V R w' p q) : Related V R w p q := by
  cases h with
  | done le' result => exact .done (le_trans le le') result
  | read le' related rest => exact .read (le_trans le le') related rest
  | call le' related items rest => exact .call (le_trans le le') related items rest

/-- Related processes go on to related processes. -/
theorem bind {w : W} {p : Process α} {q : Process β} {k : α → Process γ} {l : β → Process δ}
    (h : Related V R w p q)
    (rest : ∀ w' a b, w ≤ w' → R w' a b → Related V S w' (k a) (l b)) :
    Related V S w (p.bind k) (q.bind l) := by
  induction h with
  | done le result => exact (rest _ _ _ le result).weaken le
  | read le related _ ih =>
    exact .read le related fun v v' hv =>
      ih v v' hv fun w' a b le' => rest w' a b (le_trans le le')
  | call le related items _ ih =>
    exact .call le related items fun v v' hv =>
      ih v v' hv fun w' a b le' => rest w' a b (le_trans le le')

/-- The second of two related processes goes on and keeps up with the result of the first. -/
theorem bindRight {S : W → α → δ → Prop} {w : W} {p : Process α} {q : Process β}
    {l : β → Process δ} (h : Related V R w p q)
    (rest : ∀ w' a b, w ≤ w' → R w' a b → Related V S w' (.done a) (l b)) :
    Related V S w p (q.bind l) := by
  rw [← Process.bind_done p]
  exact h.bind rest

/-- Related processes with changed results. -/
theorem map {w : W} {p : Process α} {q : Process β} {f : α → γ} {g : β → δ}
    (h : Related V R w p q) (results : ∀ w' a b, w ≤ w' → R w' a b → S w' (f a) (g b)) :
    Related V S w (p.map f) (q.map g) :=
  h.bind fun w' a b le hab => .done (le_refl w') (results w' a b le hab)

/-- Related processes with a changed result on one side. -/
theorem mapLeft {S : W → γ → β → Prop} {w : W} {p : Process α} {q : Process β} {f : α → γ}
    (h : Related V R w p q) (results : ∀ w' a b, w ≤ w' → R w' a b → S w' (f a) b) :
    Related V S w (p.map f) q := by
  rw [← Process.bind_done q]
  exact h.bind fun w' a b le hab => .done (le_refl w') (results w' a b le hab)

/-- Related processes whose results are related in another way as well. -/
theorem imp {S : W → α → β → Prop} {w : W} {p : Process α} {q : Process β}
    (h : Related V R w p q) (results : ∀ w' a b, w ≤ w' → R w' a b → S w' a b) :
    Related V S w p q := by
  rw [← Process.bind_done p]
  exact h.mapLeft results

end Process.Related

/-! ## Related executions -/

/-- Both outcomes are errors, and the same one, or both are results, and related ones. -/
inductive OutcomeRelated (R : α → β → Prop) : Except EvalError α → Except EvalError β → Prop
  | error (e : EvalError) : OutcomeRelated R (.error e) (.error e)
  | ok {a : α} {b : β} (result : R a b) : OutcomeRelated R (.ok a) (.ok b)

/-- Calls of the same function on related values. -/
structure CallRelated (R : Value → Value → Prop) (c c' : Call) : Prop where
  function : c.function = c'.function
  receiver : R c.receiver c'.receiver
  arguments : List.Forall₂ R c.arguments c'.arguments

/-- Reads of the same name from related values, or related calls. -/
inductive EventRelated (R : Value → Value → Prop) : Event → Event → Prop
  | read {base base' : Value} (name : String) (related : R base base') :
      EventRelated R (.read base name) (.read base' name)
  | call {c c' : Call} (related : CallRelated R c c') : EventRelated R (.call c) (.call c')

variable {σ τ : Type}

/-- Executions with related outcomes, that did related things and left related states. -/
structure ExecutionRelated (V : Value → Value → Prop) (R : α → β → Prop) (S : σ → τ → Prop)
    (x : Execution σ α) (y : Execution τ β) : Prop where
  outcome : OutcomeRelated R x.outcome y.outcome
  events : List.Forall₂ (EventRelated V) x.events y.events
  host : S x.host y.host

/-- A call stays related when the relation between values grows. -/
theorem CallRelated.mono {R R' : Value → Value → Prop} (h : ∀ v v', R v v' → R' v v')
    {c c' : Call} (hc : CallRelated R c c') : CallRelated R' c c' :=
  ⟨hc.function, h _ _ hc.receiver, hc.arguments.imp h⟩

/-- Related events before related executions. -/
theorem ExecutionRelated.after {U : Value → Value → Prop} {R : α → β → Prop} {S : σ → τ → Prop}
    {x : Execution σ α} {y : Execution τ β} {e e' : Event} (he : EventRelated U e e')
    (h : ExecutionRelated U R S x y) : ExecutionRelated U R S (x.after e) (y.after e') :=
  ⟨h.outcome, .cons he h.events, h.host⟩

variable {V}

/-- **Related processes have related executions.**  The host has to answer related calls on
related states alike, and a name that is not denied has to be read alike from related values. -/
theorem Process.Related.execute {R : W → α → β → Prop} {S : W → σ → τ → Prop} {denied : DenyList}
    {host : Host σ} {host' : Host τ}
    (mono : ∀ w w' v v', w ≤ w' → V w v v' → V w' v v')
    (states : ∀ w w' s t, w ≤ w' → S w s t → S w' s t)
    (reads : ∀ w v v' name, V w v v' → denied.denies name = false → V w (v.get name) (v'.get name))
    (calls : ∀ w c c' s t, CallRelated (V w) c c' → S w s t →
      OutcomeRelated (V w) (host.call c s).1 (host'.call c' t).1 ∧
        S w (host.call c s).2 (host'.call c' t).2)
    {w : W} {p : Process α} {q : Process β} (h : Related V R w p q) :
    ∀ s t, S w s t → ∃ w', w ≤ w' ∧ ExecutionRelated (V w') (R w') (S w')
      (p.execute denied host s) (q.execute denied host' t) := by
  induction h with
  | @done w w' a b le result =>
    intro s t hs
    exact ⟨w', le, .ok result, .nil, states _ _ _ _ le hs⟩
  | @read w w' base base' name next next' le related rest ih =>
    intro s t hs
    have hs' := states _ _ _ _ le hs
    cases hname : denied.denies name with
    | true =>
      simp only [Process.execute, hname, if_true]
      exact ⟨w', le, .error _, .nil, hs'⟩
    | false =>
      simp only [Process.execute, hname, Bool.false_eq_true, if_false]
      obtain ⟨w'', le', hx⟩ := ih _ _ (reads _ _ _ name related hname) s t hs'
      exact ⟨w'', le_trans le le', hx.after (.read name (mono _ _ _ _ le' related))⟩
  | @call w w' f receiver receiver' arguments arguments' next next' le related items rest ih =>
    intro s t hs
    have hs' := states _ _ _ _ le hs
    have hc : CallRelated (V w') ⟨f, receiver, arguments⟩ ⟨f, receiver', arguments'⟩ :=
      ⟨rfl, related, items⟩
    have hcall := calls _ _ _ s t hc hs'
    cases hf : f.constructsCode with
    | true =>
      simp only [Process.execute, hf, if_true]
      exact ⟨w', le, .error _, .nil, hs'⟩
    | false =>
      simp only [Process.execute, hf, Bool.false_eq_true, if_false]
      -- the two hosts answer alike: with the same error, or with related values
      generalize host.call ⟨f, receiver, arguments⟩ s = answer at hcall ⊢
      generalize host'.call ⟨f, receiver', arguments'⟩ t = answer' at hcall ⊢
      obtain ⟨outcome, s₁⟩ := answer
      obtain ⟨outcome', t₁⟩ := answer'
      obtain ⟨houtcome, hs₁⟩ := hcall
      cases houtcome with
      | error e => exact ⟨w', le, .error e, .cons (.call hc) .nil, hs₁⟩
      | ok hv =>
        obtain ⟨w'', le', hx⟩ := ih _ _ hv s₁ t₁ hs₁
        exact ⟨w'', le_trans le le', hx.after (.call (hc.mono fun v v' => mono _ _ v v' le'))⟩

end Related

/-! ## A host that records -/

/-- The host whose functions answer with their first argument and fail without one; it keeps the
calls that were made. -/
def Host.recording : Host (List Call) where
  call c calls := (c.arguments.head?.elim (.error (.host "no argument")) .ok, calls ++ [c])

/-- The host that records calls answers related calls alike, whatever the relation is. -/
theorem Host.recording_related (R : Value → Value → Prop) {c c' : Call} {calls calls' : List Call}
    (hc : CallRelated R c c') (hcalls : List.Forall₂ (CallRelated R) calls calls') :
    OutcomeRelated R (Host.recording.call c calls).1 (Host.recording.call c' calls').1 ∧
      List.Forall₂ (CallRelated R) (Host.recording.call c calls).2
        (Host.recording.call c' calls').2 := by
  refine ⟨?_, List.rel_append hcalls (.cons hc .nil)⟩
  obtain ⟨f, receiver, arguments⟩ := c
  obtain ⟨f', receiver', arguments'⟩ := c'
  obtain ⟨-, -, hitems⟩ := hc
  cases hitems with
  | nil => exact .error _
  | cons head _ => exact .ok head

end ExprSandbox
