import ExprSandbox.Evaluator
import ExprSandbox.Proofs.Alike
import ExprSandbox.Proofs.Running

/-!
# Denied members do not interfere

Run the same routine on two contexts that differ under denied names only.  Operands evaluate to
alike values, and statements ask for the same, on alike values; where a denied name comes up both
runs are refused.  So the two evaluations have the same error or alike results
(`evaluate_noninterference`): nothing that is stored under a denied name comes out of an
evaluation.
-/

namespace ExprSandbox

open Value

variable {denied : DenyList}

/-! ## Alike frames -/

/-- Scopes with alike contexts and alike temporaries. -/
structure Scope.Alike (denied : DenyList) (s s' : Scope) : Prop where
  context : s.context.Alike denied s'.context
  run : s.run = s'.run
  size : s.temps.size = s'.temps.size
  temps : ∀ i, (s.temps.getD i .undefined).Alike denied (s'.temps.getD i .undefined)

/-- Frames with alike scopes that have made equally much. -/
structure Frame.Alike (denied : DenyList) (f f' : Frame) : Prop extends
    Scope.Alike denied f.toScope f'.toScope where
  made : f.made = f'.made

/-- Values and counts, of which the values are related and the counts equal. -/
structure Counted {γ : Type} (R : γ → γ → Prop) (x y : γ × Nat) : Prop where
  value : R x.1 y.1
  count : x.2 = y.2

namespace Frame.Alike

variable {f f' : Frame}

/-- Frames stay alike when they count on alike. -/
theorem withMade (h : Frame.Alike denied f f') {n n' : Nat} (hn : n = n') :
    Frame.Alike denied (f.withMade n) (f'.withMade n') :=
  ⟨⟨h.context, h.run, h.size, h.temps⟩, hn⟩

/-- Frames stay alike when alike values are put into a temporary. -/
theorem set (h : Frame.Alike denied f f') (t : Nat) {v v' : Value} (hv : v.Alike denied v') :
    Frame.Alike denied (f.set t v) (f'.set t v') := by
  refine ⟨⟨h.context, h.run, ?_, fun i => ?_⟩, h.made⟩
  · rw [f.size_temps_set, f'.size_temps_set, h.size]
  · by_cases hi : i = t
    · subst hi
      by_cases hroom : i < f.temps.size
      · rw [f.getD_set hroom, f'.getD_set (h.size ▸ hroom)]
        exact hv
      · have hle : f.temps.size ≤ i := Nat.le_of_not_lt hroom
        rw [f.getD_set_of_size_le hle, f'.getD_set_of_size_le (h.size ▸ hle)]
        exact .refl _
    · rw [f.getD_set_of_ne hi, f'.getD_set_of_ne hi]
      exact h.temps i

end Frame.Alike

/-! ## Operands -/

namespace Operand

variable {s s' : Scope}

mutual
/-- **An operand evaluates to alike values** in alike scopes, and makes equally much. -/
theorem eval_alike (h : s.Alike denied s') (o : Operand) (n : Nat) :
    Counted (Value.Alike denied) (o.eval s n) (o.eval s' n) := by
  match o with
  | .literal c =>
    rw [eval, eval]
    exact ⟨.refl _, rfl⟩
  | .temp i =>
    rw [eval, eval]
    exact ⟨h.temps i, rfl⟩
  | .context =>
    rw [eval, eval]
    exact ⟨h.context, rfl⟩
  | .array slots =>
    have hslots := evalSlots_alike h slots n
    rw [eval, eval, h.run, hslots.count]
    exact ⟨.array _ hslots.value, rfl⟩
  | .object entries =>
    have hentries := evalEntries_alike h entries n
    rw [eval, eval, h.run, hentries.count]
    exact ⟨.ofEntries _ hentries.value, rfl⟩
  | .unary operator argument =>
    have harg := eval_alike h argument n
    rw [eval, eval, harg.count, operator.apply_eq_of_alike harg.value]
    exact ⟨.refl _, rfl⟩
  | .binary operator left right =>
    have hl := eval_alike h left n
    have hr := eval_alike h right (left.eval s n).2
    rw [eval, eval, ← hl.count, hr.count, operator.apply_eq_of_alike hl.value hr.value]
    exact ⟨.refl _, rfl⟩

/-- The slots of an array evaluate to alike slots. -/
theorem evalSlots_alike (h : s.Alike denied s') (slots : List (Option Operand)) (n : Nat) :
    Counted (SlotsAlike denied) (evalSlots s slots n) (evalSlots s' slots n) := by
  match slots with
  | [] =>
    rw [evalSlots, evalSlots]
    exact ⟨.nil, rfl⟩
  | none :: rest =>
    have hrest := evalSlots_alike h rest n
    rw [evalSlots, evalSlots]
    exact ⟨.cons .none hrest.value, hrest.count⟩
  | some o :: rest =>
    have ho := eval_alike h o n
    have hrest := evalSlots_alike h rest (o.eval s n).2
    rw [evalSlots, evalSlots, ← ho.count]
    exact ⟨.cons (.some ho.value) hrest.value, hrest.count⟩

/-- The entries of an object evaluate to alike entries. -/
theorem evalEntries_alike (h : s.Alike denied s') (entries : List (String × Operand)) (n : Nat) :
    Counted (EntriesAlike denied) (evalEntries s entries n) (evalEntries s' entries n) := by
  match entries with
  | [] =>
    rw [evalEntries, evalEntries]
    exact ⟨.nil, rfl⟩
  | (key, o) :: rest =>
    have ho := eval_alike h o n
    have hrest := evalEntries_alike h rest (o.eval s n).2
    rw [evalEntries, evalEntries, ← ho.count]
    exact ⟨.cons key ho.value hrest.value, hrest.count⟩
end

/-- Operands from left to right evaluate to alike values. -/
theorem evalAll_alike (h : s.Alike denied s') (os : List Operand) (n : Nat) :
    Counted (List.Forall₂ (Value.Alike denied)) (evalAll s os n) (evalAll s' os n) := by
  induction os generalizing n with
  | nil => exact ⟨.nil, rfl⟩
  | cons o rest ih =>
    have ho := eval_alike h o n
    have hrest := ih (o.eval s n).2
    rw [evalAll, evalAll, ← ho.count]
    exact ⟨.cons ho.value hrest.value, hrest.count⟩

end Operand

/-- A key addresses the same member in alike scopes. -/
theorem Key.eval_alike {s s' : Scope} (h : s.Alike denied s') (key : Key) (n : Nat) :
    key.eval s n = key.eval s' n := by
  cases key with
  | named name => rw [Key.eval, Key.eval]
  | computed o =>
    have ho := o.eval_alike h n
    rw [Key.eval, Key.eval, Value.key, Value.key, ho.value.coercesLike.text, ho.count]

/-! ## Statements -/

namespace Statement

/-- Both statements ask for the same, on alike values, and leave alike frames. -/
abbrev RunsAlike (denied : DenyList) (p q : Process Frame) : Prop :=
  Process.Related (fun _ : SingleWorld => Value.Alike denied) (fun _ => Frame.Alike denied)
    .only p q

variable {f f' : Frame}

/-- A read of the context. -/
theorem run_readContext_alike (h : Frame.Alike denied f f') (t : Nat) (name : String) :
    RunsAlike denied ((readContext t name).run f) ((readContext t name).run f') := by
  have htruth := h.context.coercesLike.isTruthy
  cases hf : f.context.isTruthy with
  | false =>
    rw [run_readContext_of_falsy hf, run_readContext_of_falsy (htruth ▸ hf)]
    exact .done (le_refl SingleWorld.only) h
  | true =>
    rw [run_readContext_of_truthy hf, run_readContext_of_truthy (htruth ▸ hf)]
    exact .read (le_refl SingleWorld.only) h.context fun v v' hv =>
      .done (le_refl SingleWorld.only) (h.set t hv)

/-- A read of a member: both bases are missing, or both are read under the same key. -/
theorem run_readMember_alike (h : Frame.Alike denied f f') (t : Nat) (o : Operand) (key : Key) :
    RunsAlike denied ((readMember t o key).run f) ((readMember t o key).run f') := by
  have ho := o.eval_alike h.toAlike f.made
  have hbase : o.eval f'.toScope f'.made = o.eval f'.toScope f.made := by rw [h.made]
  have hnull := ho.value.coercesLike.isNullish
  cases hf : (o.eval f.toScope f.made).1.isNullish with
  | true =>
    rw [run_readMember_of_nullish hf,
      run_readMember_of_nullish (by rw [hbase, ← hnull, hf]), hbase]
    exact .done (le_refl SingleWorld.only) (h.withMade ho.count)
  | false =>
    rw [run_readMember_of_present hf,
      run_readMember_of_present (by rw [hbase, ← hnull, hf]), hbase, ← ho.count,
      ← key.eval_alike h.toAlike]
    exact .read (le_refl SingleWorld.only) ho.value fun v v' hv =>
      .done (le_refl SingleWorld.only) ((h.withMade rfl).set t hv)

/-- A call: the same function is called on both sides, or none. -/
theorem run_call_alike (h : Frame.Alike denied f f') (t : Nat) (callee receiver : Operand)
    (arguments : List Operand) :
    RunsAlike denied ((call t callee receiver arguments).run f)
      ((call t callee receiver arguments).run f') := by
  have hc := callee.eval_alike h.toAlike f.made
  have hcallee : callee.eval f'.toScope f'.made = callee.eval f'.toScope f.made := by rw [h.made]
  by_cases hg : ∃ g, (callee.eval f.toScope f.made).1 = .function g
  · obtain ⟨g, hg⟩ := hg
    have hg' : (callee.eval f'.toScope f.made).1 = .function g :=
      (hc.value.eq_function_iff g).mp hg
    have hr := receiver.eval_alike h.toAlike (callee.eval f.toScope f.made).2
    have ha := Operand.evalAll_alike h.toAlike arguments
      (receiver.eval f.toScope (callee.eval f.toScope f.made).2).2
    rw [run_call_of_function hg, run_call_of_function (by rw [hcallee, hg']), hcallee, ← hc.count]
    simp only [← hr.count]
    exact .call (le_refl SingleWorld.only) hr.value ha.value fun v v' hv =>
      .done (le_refl SingleWorld.only) ((h.withMade ha.count).set t hv)
  · have hnone : ∀ g, (callee.eval f.toScope f.made).1 ≠ .function g := fun g hg' => hg ⟨g, hg'⟩
    have hnone' : ∀ g, (callee.eval f'.toScope f'.made).1 ≠ .function g := by
      intro g hg'
      rw [hcallee] at hg'
      exact hnone g ((hc.value.eq_function_iff g).mpr hg')
    rw [run_call_of_not_function hnone, run_call_of_not_function hnone', hcallee]
    exact .done (le_refl SingleWorld.only) (h.withMade hc.count)

mutual
/-- **A statement asks for the same in alike frames**, and leaves alike frames. -/
theorem run_alike (st : Statement) (f f' : Frame) (h : Frame.Alike denied f f') :
    RunsAlike denied (st.run f) (st.run f') := by
  match st with
  | .assign t o =>
    have ho := o.eval_alike h.toAlike f.made
    rw [run, run, ← h.made]
    exact .done (le_refl SingleWorld.only) ((h.withMade ho.count).set t ho.value)
  | .readContext t name => exact run_readContext_alike h t name
  | .readMember t o key => exact run_readMember_alike h t o key
  | .call t callee receiver arguments => exact run_call_alike h t callee receiver arguments
  | .branch o a b =>
    have ho := o.eval_alike h.toAlike f.made
    rw [run, run, ← h.made, ho.value.coercesLike.isTruthy]
    split
    · exact runAll_alike a _ _ (h.withMade ho.count)
    · exact runAll_alike b _ _ (h.withMade ho.count)

/-- Statements in order ask for the same in alike frames. -/
theorem runAll_alike (code : List Statement) (f f' : Frame) (h : Frame.Alike denied f f') :
    RunsAlike denied (runAll code f) (runAll code f') := by
  match code with
  | [] =>
    rw [runAll_nil, runAll_nil]
    exact .done (le_refl SingleWorld.only) h
  | st :: rest =>
    rw [runAll_cons, runAll_cons]
    exact (run_alike st f f' h).bind fun _ f₁ f₁' _ h₁ => runAll_alike rest f₁ f₁' h₁
end

end Statement

/-! ## Evaluations -/

/-- A host cannot see what stands under denied names: from states that are related by `S` it
answers alike calls with the same error or with alike values, and leaves related states. -/
def Host.RespectsAlike {σ : Type} (denied : DenyList) (S : σ → σ → Prop) (host : Host σ) : Prop :=
  ∀ c c' s s', CallRelated (Value.Alike denied) c c' → S s s' →
    OutcomeRelated (Value.Alike denied) (host.call c s).1 (host.call c' s').1 ∧
      S (host.call c s).2 (host.call c' s').2

/-- A routine asks for the same in alike contexts, and has alike results. -/
theorem Routine.run_alike (r : Routine) {context context' : Value}
    (h : context.Alike denied context') (run : Nat) :
    Process.Related (fun _ : SingleWorld => Value.Alike denied) (fun _ => Value.Alike denied) .only
      (r.run context run) (r.run context' run) := by
  have hstart : Frame.Alike denied (.start context run r.declared.length)
      (.start context' run r.declared.length) :=
    ⟨⟨h, rfl, rfl, fun _ => .refl _⟩, rfl⟩
  rw [Routine.run, Routine.run]
  refine (Statement.runAll_alike r.body _ _ hstart).map fun _ f f' _ hf => ?_
  rw [← hf.made]
  exact (r.result.eval_alike hf.toAlike f.made).value

/-- Of alike results one is `v` if the other is, for a `v` without identity. -/
theorem OutcomeRelated.ok_iff {x y : Except EvalError Value} {v : Value}
    (h : OutcomeRelated (Value.Alike denied) x y) (hv : v.isReference = false) :
    x = .ok v ↔ y = .ok v := by
  cases h with
  | error e => exact ⟨nofun, nofun⟩
  | @ok a b result =>
    constructor
    · intro ha
      obtain rfl := Except.ok.inj ha
      rw [result.eq_of_not_isReference hv]
    · intro hb
      obtain rfl := Except.ok.inj hb
      rw [result.eq_of_not_isReference (result.isReference_eq.trans hv)]

/-- **Denied members do not interfere.**  In contexts that differ under denied names only, an
evaluation has the same error or alike results, makes the same requests on alike values, and
leaves related states of the host.  A result without identity is the same on both sides. -/
theorem evaluate_noninterference {σ : Type} (ev : Evaluator) (host : Host σ) (S : σ → σ → Prop)
    (context context' : Option Value) (run : Nat) (s s' : σ)
    (hhost : host.RespectsAlike ev.denied S)
    (hcontext : (context.getD .undefined).Alike ev.denied (context'.getD .undefined))
    (hs : S s s') :
    let x := ev.evaluate host context run s
    let y := ev.evaluate host context' run s'
    ExecutionRelated (Value.Alike ev.denied) (Value.Alike ev.denied) S x y ∧
      ∀ v, v.isReference = false → (x.outcome = .ok v ↔ y.outcome = .ok v) := by
  intro x y
  have hexecute : ∃ w : SingleWorld, .only ≤ w ∧
      ExecutionRelated (Value.Alike ev.denied) (Value.Alike ev.denied) S x y :=
    (ev.routine.run_alike hcontext run).execute (S := fun _ => S) (fun _ _ _ _ _ hv => hv)
      (fun _ _ _ _ _ hst => hst) (fun _ _ _ _ hv hname => hv.get hname)
      (fun _ => hhost) s s' hs
  obtain ⟨-, -, hrelated⟩ := hexecute
  exact ⟨hrelated, fun v hv => hrelated.outcome.ok_iff hv⟩

/-- A context in which `f` is a function, and a member `constructor` of it that is denied. -/
def Value.contextHiding (hidden : Value) : Value :=
  .object ⟨1, 0⟩ [("f", .function ⟨0, "f", false⟩), ("constructor", hidden)]

/-- The program `f(true)` sees no difference between contexts that hide different values. -/
theorem evaluate_hidden :
    let ev := Evaluator.ofProgram .standard [.call (.identifier "f") [.literal (.bool true)]]
    let x := ev.evaluate Host.recording (some (.contextHiding .null)) 0 []
    let y := ev.evaluate Host.recording (some (.contextHiding (.bool true))) 0 []
    ExecutionRelated (Value.Alike .standard) (Value.Alike .standard)
        (List.Forall₂ (CallRelated (Value.Alike .standard))) x y ∧
      ∀ v, v.isReference = false → (x.outcome = .ok v ↔ y.outcome = .ok v) := by
  have hcontext : (Value.contextHiding .null).Alike .standard (.contextHiding (.bool true)) := by
    refine .object _ fun key hkey => ?_
    rw [List.lookup_cons, List.lookup_cons, List.lookup_cons, List.lookup_cons]
    split
    · exact .some (.refl _)
    · split
      · next hconstructor =>
        rw [beq_iff_eq.mp hconstructor] at hkey
        exact absurd hkey (by decide)
      · exact .none
  intro ev
  exact evaluate_noninterference ev Host.recording (List.Forall₂ (CallRelated _))
    (some (.contextHiding .null)) (some (.contextHiding (.bool true))) 0 [] []
    (fun _ _ _ _ hc hs => Host.recording_related _ hc hs) hcontext .nil

end ExprSandbox
