import ExprSandbox.Proofs.Correctness
import ExprSandbox.Proofs.Places
import ExprSandbox.Proofs.Sandbox
import ExprSandbox.Proofs.Shifting

/-!
# Lowered operands are stable

An expression is lowered to statements and an operand, and the operand may be evaluated long after
the statements have run: behind the statements of other expressions, or in a block behind a test.
Nothing is lost by that (`lowered_operand_stable`).  The temporaries of the operand are targets of
the statements of the expression only, the code that is still to be run never gets back to those,
and so the operand finds the same values whenever it is evaluated.  What it makes itself is made
again with other identities.
-/

namespace ExprSandbox

open Statement

variable {σ : Type} {denied : DenyList} {host : Host σ} {st st₁ st' : State σ} {es es' : List Event}

/-! ## What a run does to its frame -/

/-- `st'` is what may become of `st`: the targets in its code were targets before, and temporaries
that were no targets are as before. -/
structure State.Becomes (st st' : State σ) : Prop where
  targets : ∀ t, Assigns st'.code t → Assigns st.code t
  agrees : st.frame.toScope.Agrees (fun t => ¬ Assigns st.code t) st'.frame.toScope
  made : st.frame.made ≤ st'.frame.made

namespace State.Becomes

/-- A state may stay as it is. -/
theorem refl (st : State σ) : st.Becomes st :=
  ⟨fun _ h => h, .refl _ _, le_refl _⟩

/-- What may become of a state that may become of another one. -/
theorem trans (h : st.Becomes st₁) (h' : st₁.Becomes st') : st.Becomes st' where
  targets t ht := h.targets t (h'.targets t ht)
  agrees := h.agrees.trans (h'.agrees.mono fun t ht ht' => ht (h.targets t ht'))
  made := le_trans h.made h'.made

end State.Becomes

section Put

variable {first : Statement} {rest : List Statement} {f : Frame} {s s' : σ} {n t : Nat}

/-- A statement that leaves its frame alone, but for the count. -/
theorem State.becomes_rest (hn : f.made ≤ n) :
    State.Becomes ⟨first :: rest, f, s⟩ ⟨rest, f.withMade n, s'⟩ where
  targets _ h := assigns_cons.mpr (.inr h)
  agrees := .refl _ _
  made := hn

/-- A statement that puts a value into its target. -/
theorem State.becomes_put (htarget : first.target? = some t) (hn : f.made ≤ n) (v : Value) :
    State.Becomes ⟨first :: rest, f, s⟩ ⟨rest, (f.withMade n).set t v, s'⟩ where
  targets _ h := assigns_cons.mpr (.inr h)
  agrees := by
    refine (f.agrees_set (le_refl t) (Nat.lt_succ_self t) v).mono fun u hu => ?_
    have hne : u ≠ t := fun h => hu (assigns_cons.mpr (.inl ((assigns_singleton htarget).mpr h)))
    unfold outside
    omega
  made := hn

end Put

/-- **A step leaves alone what its code has not for a target**, and leaves no new targets to the
code behind it. -/
theorem Step.becomes (h : Step denied host st es st') : st.Becomes st' := by
  cases h with
  | assign value => exact State.becomes_put rfl (Operand.le_of_eval value) _
  | readContext truthy allowed => exact State.becomes_put rfl (le_refl _) _
  | skipContext falsy => exact State.becomes_rest (le_refl _)
  | readMember base present key_eval allowed =>
    have hle := le_trans (Operand.le_of_eval base) (Key.le_of_eval key_eval)
    exact State.becomes_put rfl hle _
  | skipMember base missing => exact State.becomes_rest (Operand.le_of_eval base)
  | call callee receiver_eval arguments_eval allowed answer =>
    have hle := le_trans (Operand.le_of_eval receiver_eval) (Operand.le_of_evalAll arguments_eval)
    exact State.becomes_put rfl (le_trans (Operand.le_of_eval callee) hle) _
  | skipCall callee uncallable => exact State.becomes_rest (Operand.le_of_eval callee)
  | @branch n o a b rest f s v test =>
    refine ⟨fun t ht => ?_, .refl _ _, Operand.le_of_eval test⟩
    rw [assigns_cons, assigns_branch]
    rcases assigns_append.mp ht with ht | ht
    · left
      split at ht
      · exact .inl ht
      · exact .inr ht
    · exact .inr ht

/-- **A run leaves alone what its code has not for a target.** -/
theorem Runs.becomes (h : Runs denied host st es st') : st.Becomes st' := by
  induction h with
  | refl st => exact .refl st
  | step first _ ih => exact first.becomes.trans ih

/-! ## Runs hold what was made before -/

variable [Renamable σ]

/-- The host makes no identity of the run up: its answers and its new states hold only identities
that were in the call or in its state. -/
def Host.InventsNothing (host : Host σ) (run : Nat) : Prop :=
  ∀ (made : Nat) (c : Call) (s : σ), MadeBefore run made c → MadeBefore run made s →
    MadeBefore run made (host.call c s)

/-- A host that uses identities only to compare them makes none up. -/
theorem Host.RespectsRenaming.inventsNothing {run : Nat} (h : host.RespectsRenaming run) :
    host.InventsNothing run := by
  intro made c s hc hs π hπ
  rw [← h π hπ.within, hc π hπ, hs π hπ]

/-- Whatever the frame and the host hold was made before. -/
structure State.AllMade (st : State σ) : Prop where
  frame : st.frame.toScope.AllMade st.frame.made
  host : MadeBefore st.frame.run st.frame.made st.host

/-- A temporary may be put to what was made before. -/
theorem Scope.AllMade.set {f : Frame} {n : Nat} (h : f.toScope.AllMade n) (t : Nat) {v : Value}
    (hv : MadeBefore f.run n v) : (f.set t v).toScope.AllMade n where
  context := h.context
  temps i := by
    show MadeBefore f.run n ((f.set t v).temps.getD i .undefined)
    by_cases hi : i = t
    · subst hi
      by_cases hroom : i < f.temps.size
      · rw [f.getD_set hroom]
        exact hv
      · rw [f.getD_set_of_size_le (Nat.le_of_not_lt hroom)]
        exact fun π _ => rfl
    · rw [f.getD_set_of_ne hi]
      exact h.temps i

/-- Members of what was made before were made before. -/
theorem MadeBefore.get {run made : Nat} {v : Value} (h : MadeBefore run made v) (name : String) :
    MadeBefore run made (v.get name) :=
  h.map (f := fun v => v.get name) fun π v => (v.get_rename π name).symm

section Put

variable {rest : List Statement} {f : Frame} {s s' : σ} {n : Nat} {code : List Statement}

/-- The count may go on. -/
theorem State.AllMade.withMade (h : State.AllMade ⟨code, f, s⟩) (hn : f.made ≤ n) :
    State.AllMade ⟨rest, f.withMade n, s⟩ :=
  ⟨h.frame.mono hn, h.host.mono hn⟩

/-- The count may go on, with a value in a temporary that was made on the way. -/
theorem State.AllMade.put (h : State.AllMade ⟨code, f, s⟩) (hn : f.made ≤ n) (t : Nat)
    {v : Value} (hv : MadeBefore f.run n v) (hs : MadeBefore f.run n s') :
    State.AllMade ⟨rest, (f.withMade n).set t v, s'⟩ :=
  ⟨(h.frame.mono hn).set (f := f.withMade n) t hv, hs⟩

end Put

/-- **A step holds what was made before**, if the host makes nothing up. -/
theorem Step.allMade (h : Step denied host st es st')
    (hhost : host.InventsNothing st.frame.run) (hst : st.AllMade) : st'.AllMade := by
  have hmade := h.becomes.made
  cases h with
  | @assign t n o rest f s v value =>
    have hv := Operand.madeBefore_of_eval hst.frame value
    exact hst.put hmade t hv (hst.host.mono hmade)
  | @readContext t name rest f s truthy allowed =>
    exact hst.put hmade t (hst.frame.context.get name) hst.host
  | skipContext falsy => exact ⟨hst.frame, hst.host⟩
  | @readMember t n n' o key rest f s v name base present key_eval allowed =>
    have hv := (Operand.madeBefore_of_eval hst.frame base).mono (Key.le_of_eval key_eval)
    exact hst.put hmade t (hv.get name) (hst.host.mono hmade)
  | skipMember base missing => exact hst.withMade hmade
  | @call t n n' n'' o r os rest f s s' g receiver v arguments callee receiver_eval arguments_eval
      allowed answer =>
    have hframe := hst.frame.mono (Operand.le_of_eval callee)
    have hreceiver := Operand.madeBefore_of_eval hframe receiver_eval
    have harguments := Operand.madeBefore_of_evalAll
      (hframe.mono (Operand.le_of_eval receiver_eval)) arguments_eval
    have hcall : MadeBefore f.run n'' (⟨g, receiver, arguments⟩ : Call) := by
      intro π hπ
      show (⟨g, rename π receiver, rename π arguments⟩ : Call) = _
      rw [hreceiver.mono (Operand.le_of_evalAll arguments_eval) π hπ, harguments π hπ]
    have hanswer := hhost n'' _ s hcall (hst.host.mono hmade)
    rw [answer] at hanswer
    have hv : MadeBefore f.run n'' v :=
      fun π hπ => Except.ok.inj (congrArg Prod.fst (hanswer π hπ))
    exact hst.put hmade t hv fun π hπ => congrArg Prod.snd (hanswer π hπ)
  | skipCall callee uncallable => exact hst.withMade hmade
  | branch test => exact hst.withMade hmade

/-- **A run holds what was made before**, if the host makes nothing up. -/
theorem Runs.allMade (h : Runs denied host st es st')
    (hhost : host.InventsNothing st.frame.run) (hst : st.AllMade) : st'.AllMade := by
  induction h with
  | refl st => exact hst
  | step first _ ih =>
    refine ih ?_ (first.allMade hhost hst)
    rw [first.becomes.agrees.run]
    exact hhost

/-- An evaluation starts with nothing of its own. -/
theorem Evaluator.start_allMade (ev : Evaluator) {context : Option Value} {run : Nat} {s : σ}
    (hcontext : Fresh run context) (hs : Fresh run s) : (ev.start context run s).AllMade where
  frame := by
    refine ⟨?_, fun i => ?_⟩
    · cases context with
      | none => exact fun π _ => rfl
      | some v => exact fun π hπ => Option.some.inj (hcontext π hπ.within)
    · show MadeBefore run 0 ((Array.replicate _ Value.undefined).getD i .undefined)
      rw [Array.getD_eq_getD_getElem?, Array.getElem?_replicate]
      split <;> exact fun π _ => rfl
  host := hs.madeBefore

/-! ## Lowered operands -/

/-- The temporaries of the operand of an expression are targets in the code of the expression. -/
theorem Expression.assigns_of_mem_temps {e : Expression} {n t : Nat}
    (ht : t ∈ (e.lower n).value.temps) : Assigns (e.lower n).code t := by
  have htidy := (lower_tidy e).1 (fun _ => False) n
  exact (htidy.assigns t).mpr ((htidy.value t ht).resolve_left id)

/-- **Lowered operands are stable.**  Wherever an expression is lowered in a program, the
temporaries of its operand are targets nowhere in the code around its own.  So whatever is run
after its code, in the same block, in the blocks within it and behind it, from any count on the
operand gives the value that it gives right after its code.  The count does go on in a run, and
where the host makes no identities up the operand then gives that value with other identities for
arrays and objects that were not made before. -/
theorem lowered_operand_stable {p : Program} {next n : Nat} {e : Expression} {K : Surroundings}
    (h : p.Visits next e n K) (result : Operand) :
    let whole := (Routine.lowerAll result next p).code
    let o := (e.lower n).value
    whole = K.fill (e.lower n).code ∧ (∀ t ∈ o.temps, ¬ Assigns K.others t) ∧
    ∀ (σ : Type) [Renamable σ] (denied : DenyList) (host : Host σ) (start st st' : State σ)
      (es es' : List Event), start.code = whole → Runs denied host start es st → st.code = K.rest →
        Runs denied host st es' st' →
        (∀ m, o.eval st'.frame.toScope m = o.eval st.frame.toScope m) ∧
        (host.InventsNothing start.frame.run → start.AllMade → ∀ m ≥ st'.frame.made,
          ∃ π : Renaming, π.MovesFrom start.frame.run st.frame.made ∧
            (o.eval st'.frame.toScope m).1 =
              rename π (o.eval st.frame.toScope st.frame.made).1) := by
  intro whole o
  have hlaid := h.laid result
  have hapart : ∀ t ∈ o.temps, ¬ Assigns K.others t :=
    fun t ht => hlaid.apart t (Expression.assigns_of_mem_temps ht)
  refine ⟨hlaid.code, hapart, ?_⟩
  intro σ _ denied host start st st' es es' _ hbefore hrest hafter
  -- what is still to be run belongs to the code around the expression
  have hagrees : st.frame.toScope.Agrees (· ∈ o.temps) st'.frame.toScope := by
    refine hafter.becomes.agrees.mono fun t ht hassigns => hapart t ht ?_
    rw [hrest] at hassigns
    exact Surroundings.assigns_rest hassigns
  refine ⟨Operand.eval_eq_of_agrees hagrees, fun hhost hstart m hm => ?_⟩
  have hmade := (hbefore.allMade hhost hstart).frame
  have hrun : st.frame.run = start.frame.run := hbefore.becomes.agrees.run
  rw [← hrun]
  exact Operand.eval_later hmade hagrees (le_trans hafter.becomes.made hm)

/-- `[[a && b], g([true])]`: the inner array is made behind the one that `g` is called with, from a
temporary that has two assignments, one of them in a block. -/
theorem lowered_operand_stable_element :
    let e := Expression.array [some (.logical .and (.identifier "a") (.identifier "b"))]
    let other := Expression.call (.identifier "g") [.array [some (.literal (.bool true))]]
    let p : Program := [.array [some e, some other]]
    let g : Function := ⟨0, "g", false⟩
    let context : Value :=
      .object ⟨1, 0⟩ [("g", .function g), ("a", .bool true), ("b", .bool false)]
    let start := (Evaluator.ofProgram .standard p).start (some context) 0 []
    let o := (e.lower 0).value
    ∃ (K : Surroundings) (st st' : State (List Call)) (es es' : List Event),
      p.Visits 0 e 0 K ∧ o.temps = [0] ∧ ¬ Assigns K.others 0 ∧
      Runs .standard Host.recording start es st ∧ st.code = K.rest ∧
      Runs .standard Host.recording st es' st' ∧
      o.eval st.frame.toScope st.frame.made = (.array ⟨0, 0⟩ [some (.bool false)], 1) ∧
      o.eval st'.frame.toScope st'.frame.made = (.array ⟨0, 1⟩ [some (.bool false)], 2) ∧
      ∃ π : Renaming, π.MovesFrom 0 0 ∧ (o.eval st'.frame.toScope st'.frame.made).1 =
        rename π (o.eval st.frame.toScope st.frame.made).1 := by
  intro e other p g context start o
  have hvisits : p.Visits 0 e 0 _ :=
    @Program.Visits.mk [] [] _ e 0 0 _
      (.part (@Expression.Part.element _ [] [other] e 0 rfl) (.self e 0))
  obtain ⟨-, hapart, hstable⟩ := lowered_operand_stable hvisits (.literal .undefined)
  have hcontext : Fresh 0 (some context) := by
    intro π hπ
    rw [rename_some, Value.rename_object, hπ ⟨1, 0⟩ (by decide)]
    rfl
  -- the states in which the conditional is run, its block begins, and the operand is evaluated
  let array : Value := .array ⟨0, 0⟩ [some (.bool true)]
  let rest : List Statement :=
    [.readContext 3 "g", .call 4 (.temp 3) .context [.array [some (.literal (.bool true))]]]
  let right : List Statement := [.readContext 2 "b", .assign 0 (.temp 2)]
  let stage (code : List Statement) (temps : Array Value) : State (List Call) :=
    ⟨code, ⟨⟨context, 0, temps⟩, 0⟩, []⟩
  let st₁ := stage (.assign 0 (.temp 1) :: .branch (.temp 0) right [] :: rest)
    #[.undefined, .bool true, .undefined, .undefined, .undefined]
  let st₂ := stage (right ++ rest) #[.bool true, .bool true, .undefined, .undefined, .undefined]
  let st₃ := stage rest #[.bool false, .bool true, .bool false, .undefined, .undefined]
  let st₄ := stage rest.tail #[.bool false, .bool true, .bool false, .function g, .undefined]
  let st' : State (List Call) := ⟨[], ⟨⟨context, 0,
    #[.bool false, .bool true, .bool false, .function g, array]⟩, 1⟩, [⟨g, context, [array]⟩]⟩
  have hright : Runs .standard Host.recording st₂ _ st₃ :=
    .step (.readContext rfl (by decide)) (.step (.assign rfl) (.refl _))
  have hleft : Runs .standard Host.recording st₁ _ st₃ :=
    .step (.assign rfl) (.step (.branch rfl) hright)
  have hbefore : Runs .standard Host.recording start _ st₃ :=
    .step (.readContext rfl (by decide)) hleft
  have hcall : Runs .standard Host.recording st₄ _ st' :=
    .step (.call rfl rfl rfl rfl rfl) (.refl st')
  have hafter : Runs .standard Host.recording st₃ _ st' :=
    .step (.readContext rfl (by decide)) hcall
  obtain ⟨-, hlater⟩ := hstable (List Call) .standard Host.recording start st₃ st' _ _ rfl hbefore
    rfl hafter
  refine ⟨_, st₃, st', _, _, hvisits, rfl, hapart 0 (List.mem_singleton.mpr rfl), hbefore, rfl,
    hafter, rfl, rfl, ?_⟩
  exact hlater (Host.recording_respectsRenaming 0).inventsNothing
    (Evaluator.start_allMade _ hcontext fun _ _ => rfl) 1 (le_refl 1)

end ExprSandbox
