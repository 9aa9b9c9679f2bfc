import ExprSandbox.Evaluator
import ExprSandbox.Proofs.Coercion
import ExprSandbox.Proofs.Contents
import ExprSandbox.Proofs.Running
import ExprSandbox.Value.Conversion

/-!
# The keys of all values are distinct

Objects are made by putting entries in order and in no other way, so every value has distinct
keys.  The values of documents have them (`keysDistinct_ofJson`), and an evaluation in a context
that has them hands over no others, whatever the routine is, as long as its host hands over no
others (`evaluate_keysDistinct`).
-/

namespace ExprSandbox

/-! ## Members -/

namespace Value

/-- A value without identity contains no objects. -/
theorem keysDistinct_of_not_isReference {v : Value} (hv : v.isReference = false) :
    v.KeysDistinct := by
  refine keysDistinct_leaf ?_
  cases v with
  | array => cases hv
  | object => cases hv
  | _ => rfl

/-- A member of a value has distinct keys where the value has them. -/
theorem KeysDistinct.get {v : Value} (h : v.KeysDistinct) (name : String) :
    (v.get name).KeysDistinct := by
  cases v with
  | object id entries =>
    rw [Value.get]
    cases hlookup : entries.lookup name with
    | none => exact keysDistinct_leaf rfl
    | some w => exact h.entry (Entries.mem_of_lookup hlookup)
  | array id slots =>
    rw [Value.get]
    split
    · exact keysDistinct_leaf rfl
    · cases hslot : (index? name).bind (slots[·]?) with
      | none => exact keysDistinct_leaf rfl
      | some slot =>
        cases slot with
        | none => exact keysDistinct_leaf rfl
        | some w =>
          obtain ⟨i, -, hi⟩ := Option.bind_eq_some_iff.mp hslot
          exact h.slot (List.mem_of_getElem? hi)
  | string s =>
    rw [Value.get]
    split
    · exact keysDistinct_leaf rfl
    · cases (index? name).bind ((Utf16.units s)[·]?) <;> exact keysDistinct_leaf rfl
  | _ => exact keysDistinct_leaf rfl

/-! ## Values of documents -/

mutual
/-- **The value of a document has distinct keys.** -/
theorem keysDistinct_ofJson (run : Nat) (j : Json) (made : Nat) :
    (ofJson run j made).1.KeysDistinct := by
  match j with
  | .array items =>
    refine keysDistinct_array fun v hv => ?_
    obtain ⟨w, hw, heq⟩ := List.mem_map.mp hv
    exact Option.some.inj heq ▸ keysDistinct_itemsOfJson run items made w hw
  | .object members =>
    exact keysDistinct_ofEntries _ fun key v hv => keysDistinct_membersOfJson run members made _ hv
  | .null => exact keysDistinct_leaf rfl
  | .bool b => exact keysDistinct_leaf rfl
  | .integer n => exact keysDistinct_leaf rfl
  | .float x => exact keysDistinct_leaf rfl
  | .string s => exact keysDistinct_leaf rfl

theorem keysDistinct_itemsOfJson (run : Nat) (items : List Json) (made : Nat) :
    ∀ v ∈ (itemsOfJson run items made).1, v.KeysDistinct := by
  match items with
  | [] => exact nofun
  | j :: rest =>
    exact List.forall_mem_cons.mpr ⟨keysDistinct_ofJson run j made,
      keysDistinct_itemsOfJson run rest _⟩

theorem keysDistinct_membersOfJson (run : Nat) (members : List (String × Json)) (made : Nat) :
    ∀ entry ∈ (membersOfJson run members made).1, entry.2.KeysDistinct := by
  match members with
  | [] => exact nofun
  | (key, j) :: rest =>
    exact List.forall_mem_cons.mpr ⟨keysDistinct_ofJson run j made,
      keysDistinct_membersOfJson run rest _⟩
end

end Value

open Value

/-! ## Operands -/

/-- The context and the temporaries have distinct keys. -/
structure Scope.KeysDistinct (s : Scope) : Prop where
  context : s.context.KeysDistinct
  temps : ∀ i, (s.temps.getD i .undefined).KeysDistinct

namespace Operand

variable {s : Scope}

mutual
/-- **The value of an operand has distinct keys.** -/
theorem keysDistinct_eval (h : s.KeysDistinct) (o : Operand) (made : Nat) :
    (o.eval s made).1.KeysDistinct := by
  match o with
  | .literal c =>
    exact keysDistinct_leaf (by cases c <;> rfl)
  | .temp i =>
    exact h.temps i
  | .context =>
    exact h.context
  | .array slots =>
    exact keysDistinct_array (keysDistinct_evalSlots h slots made)
  | .object entries =>
    exact keysDistinct_ofEntries _ (keysDistinct_evalEntries h entries made)
  | .unary operator argument =>
    exact keysDistinct_of_not_isReference (operator.isReference_apply _)
  | .binary operator left right =>
    exact keysDistinct_of_not_isReference (operator.isReference_apply _ _)

theorem keysDistinct_evalSlots (h : s.KeysDistinct) (slots : List (Option Operand)) (made : Nat) :
    ∀ v, some v ∈ (evalSlots s slots made).1 → v.KeysDistinct := by
  match slots with
  | [] =>
    exact nofun
  | none :: rest =>
    intro v hv
    rcases List.mem_cons.mp hv with heq | hrest
    · cases heq
    · exact keysDistinct_evalSlots h rest made v hrest
  | some o :: rest =>
    intro v hv
    rcases List.mem_cons.mp hv with heq | hrest
    · exact Option.some.inj heq ▸ keysDistinct_eval h o made
    · exact keysDistinct_evalSlots h rest _ v hrest

theorem keysDistinct_evalEntries (h : s.KeysDistinct) (entries : List (String × Operand))
    (made : Nat) : ∀ key v, (key, v) ∈ (evalEntries s entries made).1 → v.KeysDistinct := by
  match entries with
  | [] =>
    exact nofun
  | (key, o) :: rest =>
    intro k v hv
    rcases List.mem_cons.mp hv with heq | hrest
    · exact (Prod.mk.inj heq).2 ▸ keysDistinct_eval h o made
    · exact keysDistinct_evalEntries h rest _ k v hrest
end

theorem keysDistinct_evalAll (h : s.KeysDistinct) (os : List Operand) (made : Nat) :
    ∀ v ∈ (evalAll s os made).1, v.KeysDistinct := by
  induction os generalizing made with
  | nil => exact nofun
  | cons o rest ih => exact List.forall_mem_cons.mpr ⟨keysDistinct_eval h o made, ih _⟩

end Operand

/-! ## Processes that hand over such values only -/

/-- All values that the process asks with have distinct keys, and its result has the property `R`,
where all answers have distinct keys. -/
inductive Process.KeysDistinct {α : Type} (R : α → Prop) : Process α → Prop
  | done {a : α} (h : R a) : KeysDistinct R (.done a)
  | read {base : Value} {name : String} {next : Value → Process α} (hbase : base.KeysDistinct)
      (rest : ∀ v, v.KeysDistinct → KeysDistinct R (next v)) :
      KeysDistinct R (.read base name next)
  | call {f : Function} {receiver : Value} {arguments : List Value} {next : Value → Process α}
      (hreceiver : receiver.KeysDistinct) (harguments : ∀ v ∈ arguments, v.KeysDistinct)
      (rest : ∀ v, v.KeysDistinct → KeysDistinct R (next v)) :
      KeysDistinct R (.call f receiver arguments next)

theorem Process.KeysDistinct.bind {α β : Type} {R : α → Prop} {S : β → Prop} {p : Process α}
    {k : α → Process β} (h : KeysDistinct R p) (rest : ∀ a, R a → KeysDistinct S (k a)) :
    KeysDistinct S (p.bind k) := by
  induction h with
  | done ha => exact rest _ ha
  | read hbase _ ih => exact .read hbase ih
  | call hreceiver harguments _ ih => exact .call hreceiver harguments ih

/-- The values of a call have distinct keys. -/
structure Call.KeysDistinct (c : Call) : Prop where
  receiver : c.receiver.KeysDistinct
  arguments : ∀ v ∈ c.arguments, v.KeysDistinct

/-- From states with the property `S` the host answers calls with values whose keys are distinct,
where those of the call are, and is left in such a state. -/
def Host.KeepsKeysDistinct {σ : Type} (S : σ → Prop) (host : Host σ) : Prop :=
  ∀ c s, c.KeysDistinct → S s →
    (∀ v, (host.call c s).1 = .ok v → v.KeysDistinct) ∧ S (host.call c s).2

/-- An execution that has a result with the property `R`, unless it failed, has made calls with
distinct keys, and has left the host in a state with the property `S`. -/
structure Execution.KeysDistinct {σ α : Type} (R : α → Prop) (S : σ → Prop) (x : Execution σ α) :
    Prop where
  outcome : ∀ a, x.outcome = .ok a → R a
  calls : ∀ c ∈ x.calls, c.KeysDistinct
  host : S x.host

/-- A failed execution has no result, and only its calls count. -/
theorem Execution.keysDistinct_error {σ α : Type} {R : α → Prop} {S : σ → Prop} {e : EvalError}
    {events : List Event} {s : σ} (hcalls : ∀ c ∈ (⟨.error e, events, s⟩ : Execution σ α).calls,
      c.KeysDistinct) (hs : S s) : (⟨.error e, events, s⟩ : Execution σ α).KeysDistinct R S := by
  refine ⟨fun a ha => ?_, hcalls, hs⟩
  cases ha

/-- **A process hands over values with distinct keys only**, where its host does. -/
theorem Process.KeysDistinct.execute {σ α : Type} {R : α → Prop} {S : σ → Prop} {host : Host σ}
    (hhost : host.KeepsKeysDistinct S) (denied : DenyList) {p : Process α}
    (h : KeysDistinct R p) : ∀ s, S s → (p.execute denied host s).KeysDistinct R S := by
  induction h with
  | @done a ha =>
    intro s hs
    exact ⟨fun b hb => Except.ok.inj hb ▸ ha, List.forall_mem_nil _, hs⟩
  | @read base name next hbase _ ih =>
    intro s hs
    cases hname : denied.denies name with
    | true =>
      simp only [Process.execute, hname, if_true]
      exact Execution.keysDistinct_error (List.forall_mem_nil _) hs
    | false =>
      simp only [Process.execute, hname, Bool.false_eq_true, if_false]
      have hrest := ih _ (hbase.get name) s hs
      exact ⟨hrest.outcome, hrest.calls, hrest.host⟩
  | @call f receiver arguments next hreceiver harguments _ ih =>
    intro s hs
    have hcall : Call.KeysDistinct ⟨f, receiver, arguments⟩ := ⟨hreceiver, harguments⟩
    obtain ⟨hanswer, hs'⟩ := hhost _ s hcall hs
    cases hcode : f.constructsCode with
    | true =>
      simp only [Process.execute, hcode, if_true]
      exact Execution.keysDistinct_error (List.forall_mem_nil _) hs
    | false =>
      simp only [Process.execute, hcode, Bool.false_eq_true, if_false]
      generalize host.call ⟨f, receiver, arguments⟩ s = answer at hanswer hs' ⊢
      obtain ⟨outcome, s'⟩ := answer
      cases outcome with
      | error e => exact Execution.keysDistinct_error (List.forall_mem_singleton.mpr hcall) hs'
      | ok v =>
        have hrest := ih v (hanswer v rfl) s' hs'
        exact ⟨hrest.outcome, List.forall_mem_cons.mpr ⟨hcall, hrest.calls⟩, hrest.host⟩

/-! ## Statements -/

namespace Frame

variable {f : Frame}

theorem keysDistinct_set (h : f.KeysDistinct) (t : Nat) {v : Value} (hv : v.KeysDistinct) :
    (f.set t v).KeysDistinct := by
  refine ⟨h.context, fun i => ?_⟩
  by_cases hi : i = t
  · subst hi
    by_cases hroom : i < f.temps.size
    · rw [f.getD_set hroom]
      exact hv
    · rw [f.getD_set_of_size_le (Nat.le_of_not_lt hroom)]
      exact keysDistinct_leaf rfl
  · rw [f.getD_set_of_ne hi]
    exact h.temps i

theorem keysDistinct_start {context : Value} (h : context.KeysDistinct) (run temps : Nat) :
    (Frame.start context run temps).KeysDistinct := by
  refine ⟨h, fun i => keysDistinct_leaf ?_⟩
  show ((Array.replicate temps Value.undefined).getD i .undefined).isContainer = false
  rw [Array.getD_eq_getD_getElem?, Array.getElem?_replicate]
  split <;> rfl

end Frame

namespace Statement

/-- The process asks with values of distinct keys only, and leaves a frame of such values. -/
abbrev RunsKeysDistinct (p : Process Frame) : Prop :=
  p.KeysDistinct fun f => f.KeysDistinct

mutual
/-- **A statement asks with values of distinct keys only**, and keeps those of the frame
distinct. -/
theorem keysDistinct_run (st : Statement) (f : Frame) (h : f.KeysDistinct) :
    RunsKeysDistinct (st.run f) := by
  match st with
  | .assign t o => exact .done (f.keysDistinct_set h t (o.keysDistinct_eval h _))
  | .readContext t name =>
    cases htruth : f.context.isTruthy with
    | false =>
      rw [run_readContext_of_falsy htruth]
      exact .done h
    | true =>
      rw [run_readContext_of_truthy htruth]
      exact .read h.context fun v hv => .done (f.keysDistinct_set h t hv)
  | .readMember t o key =>
    cases hnull : (o.eval f.toScope f.made).1.isNullish with
    | true =>
      rw [run_readMember_of_nullish hnull]
      exact .done h
    | false =>
      rw [run_readMember_of_present hnull]
      exact .read (o.keysDistinct_eval h _) fun v hv => .done (f.keysDistinct_set h t hv)
  | .call t callee receiver arguments =>
    by_cases hg : ∃ g, (callee.eval f.toScope f.made).1 = .function g
    · obtain ⟨g, hg⟩ := hg
      rw [run_call_of_function hg]
      exact .call (receiver.keysDistinct_eval h _) (Operand.keysDistinct_evalAll h arguments _)
        fun v hv => .done (f.keysDistinct_set h t hv)
    · rw [run_call_of_not_function fun g hg' => hg ⟨g, hg'⟩]
      exact .done h
  | .branch o a b =>
    rw [run_branch]
    split
    · exact keysDistinct_runAll a _ h
    · exact keysDistinct_runAll b _ h

theorem keysDistinct_runAll (code : List Statement) (f : Frame) (h : f.KeysDistinct) :
    RunsKeysDistinct (runAll code f) := by
  match code with
  | [] => exact .done h
  | st :: rest =>
    rw [runAll_cons]
    exact (keysDistinct_run st f h).bind (keysDistinct_runAll rest)
end

end Statement

/-! ## Evaluations -/

/-- **The keys of all values are distinct.**  In a context of distinct keys an evaluation has a
result of distinct keys, unless it fails, and makes calls with such values only, if its host
answers such calls with such values. -/
theorem evaluate_keysDistinct {σ : Type} (e : Evaluator) {host : Host σ} {S : σ → Prop}
    (hhost : host.KeepsKeysDistinct S) {context : Option Value}
    (hcontext : ∀ v, context = some v → v.KeysDistinct) (run : Nat) {s : σ} (hs : S s) :
    (e.evaluate host context run s).KeysDistinct Value.KeysDistinct S := by
  have hdistinct : (context.getD .undefined).KeysDistinct := by
    cases context with
    | none => exact keysDistinct_leaf rfl
    | some v => exact hcontext v rfl
  have hstart := Frame.keysDistinct_start hdistinct run e.routine.declared.length
  have hrun := (Statement.keysDistinct_runAll e.routine.body _ hstart).bind
    (k := fun f => .done (e.routine.result.eval f.toScope f.made).1)
    fun f hf => .done (e.routine.result.keysDistinct_eval hf _)
  exact hrun.execute hhost e.denied s hs

end ExprSandbox
