import Mathlib.Data.List.Induction
import ExprSandbox.Proofs.Contents
import ExprSandbox.Proofs.Respelling
import ExprSandbox.Proofs.Sandbox
import ExprSandbox.Proofs.Widening

/-!
# Object literals

The values of an object literal are lowered like any expressions in order: the code is that of a
program of them, and that of an array (`lowerProperties_eq`, `lowerElements_eq`, `lowerAll_eq`).
So an evaluation of the literal does what the program does, one expression after the other
(`evaluate_append`), and the object holds under each of its names what stands last under the name in
the array (`evaluate_object_key`).
-/

namespace ExprSandbox

/-! ## Entries that are put in order -/

namespace Entries

variable {α : Type}

/-- What is found after a value is put under a key. -/
theorem lookup_put (key k : String) (a : α) (entries : List (String × α)) :
    (put k a entries).lookup key = if key = k then some a else entries.lookup key := by
  induction entries with
  | nil => exact lookup_cons key k a []
  | cons entry rest ih =>
    obtain ⟨k', b⟩ := entry
    rw [put]
    by_cases hk : k' = k
    · rw [if_pos hk, lookup_cons, lookup_cons, hk]
      by_cases hkey : key = k
      · rw [if_pos hkey, if_pos hkey]
      · rw [if_neg hkey, if_neg hkey, if_neg hkey]
    · rw [if_neg hk, lookup_cons, lookup_cons, ih]
      by_cases hkey : key = k'
      · rw [if_pos hkey, if_neg fun heq => hk (hkey ▸ heq), if_pos hkey]
      · rw [if_neg hkey, if_neg hkey]

/-- Putting pairs in order puts the last one last. -/
theorem ofList_concat (pairs : List (String × α)) (pair : String × α) :
    ofList (pairs ++ [pair]) = put pair.1 pair.2 (ofList pairs) := by
  rw [ofList, List.foldl_append, ← ofList]
  rfl

/-- **Under each key stands the last value that was put there.** -/
theorem lookup_ofList (pairs : List (String × α)) (key : String) :
    (ofList pairs).lookup key = pairs.reverse.lookup key := by
  induction pairs using List.reverseRecOn with
  | nil => rfl
  | append_singleton pairs pair ih =>
    rw [ofList_concat, lookup_put, List.reverse_concat, lookup_cons, ih]

/-- **The keys stand in the order in which they were first put.** -/
theorem keys_ofList (pairs : List (String × α)) :
    keys (ofList pairs) = (pairs.map Prod.fst).eraseDups := by
  induction pairs using List.reverseRecOn with
  | nil => rfl
  | append_singleton pairs pair ih =>
    have hknown : pair.1 ∈ keys (ofList pairs) ↔ pair.1 ∈ pairs.map Prod.fst := by
      rw [ih, List.mem_eraseDups]
    rw [ofList_concat, List.map_append, List.eraseDups_append, ← ih, List.map_singleton]
    -- a known key keeps its place, and a new one comes last
    by_cases hmem : pair.1 ∈ keys (ofList pairs)
    · have hnew : [pair.1].removeAll (pairs.map Prod.fst) = [] := by
        simpa [List.removeAll] using hknown.mp hmem
      rw [keys_put_of_mem hmem, hnew, List.eraseDups_nil, List.append_nil]
    · have hnew : [pair.1].removeAll (pairs.map Prod.fst) = [pair.1] := by
        simpa [List.removeAll] using mt hknown.mpr hmem
      rw [put_of_not_mem hmem, hnew, keys, List.map_append]
      rfl

/-- Names that values are put under. -/
theorem keys_ofList_zip {names : List String} {values : List α}
    (h : values.length = names.length) : keys (ofList (names.zip values)) = names.eraseDups := by
  rw [keys_ofList, List.map_fst_zip (Nat.le_of_eq h.symm)]

end Entries

/-! ## Expressions in order -/

namespace Expression

open Lowered

/-- As many operands as expressions. -/
theorem length_lowerArguments (es : List Expression) (next : Nat) :
    (lowerArguments es next).value.length = es.length := by
  induction es generalizing next with
  | nil => rfl
  | cons e rest ih => exact congrArg (· + 1) (ih _)

/-- Expressions behind others are lowered behind them. -/
theorem lowerArguments_append (es es' : List Expression) (next : Nat) :
    let args := lowerArguments es next
    let more := lowerArguments es' args.next
    lowerArguments (es ++ es') next =
      ⟨args.code ++ more.code, args.value ++ more.value, more.next⟩ := by
  induction es generalizing next with
  | nil => rfl
  | cons e rest ih =>
    dsimp only
    rw [List.cons_append, lowerArguments, lowerArguments, ih]
    dsimp only
    rw [List.append_assoc]
    rfl

/-- The elements of an array without holes are lowered like arguments. -/
theorem lowerElements_eq (es : List Expression) (next : Nat) :
    let args := lowerArguments es next
    lowerElements (es.map some) next = ⟨args.code, args.value.map some, args.next⟩ := by
  induction es generalizing next with
  | nil => rfl
  | cons e rest ih =>
    dsimp only
    rw [List.map_cons, lowerElements, lowerArguments, ih]
    rfl

/-- The values of an object are lowered like arguments. -/
theorem lowerProperties_eq (ps : List (PropertyKey × Expression)) (next : Nat) :
    let args := lowerArguments (ps.map Prod.snd) next
    lowerProperties ps next =
      ⟨args.code, (ps.map (·.1.name)).zip args.value, args.next⟩ := by
  induction ps generalizing next with
  | nil => rfl
  | cons p rest ih =>
    dsimp only
    rw [List.map_cons, List.map_cons, lowerProperties, lowerArguments, ih]
    rfl

end Expression

/-- The expressions of a program are lowered like arguments. -/
theorem Routine.lowerAll_eq (p : Program) (result : Operand) (next : Nat) :
    let args := Expression.lowerArguments p next
    lowerAll result next p = ⟨args.code, args.value.getLastD result, args.next⟩ := by
  induction p generalizing result next with
  | nil => rfl
  | cons e rest ih =>
    dsimp only
    rw [lowerAll, Expression.lowerArguments, ih, List.getLastD_cons]

/-! ## Operands in order -/

namespace Operand

variable (s : Scope)

/-- As many values as operands. -/
theorem length_evalAll (os : List Operand) (made : Nat) :
    (evalAll s os made).1.length = os.length := by
  induction os generalizing made with
  | nil => rfl
  | cons o rest ih => exact congrArg (· + 1) (ih _)

/-- The slots of an array without holes have the values of the operands. -/
theorem evalSlots_some (os : List Operand) (made : Nat) :
    evalSlots s (os.map some) made = ((evalAll s os made).1.map some, (evalAll s os made).2) := by
  induction os generalizing made with
  | nil => rfl
  | cons o rest ih =>
    rw [List.map_cons, evalSlots, evalAll, ih]
    rfl

/-- The entries of an object have the values of the operands. -/
theorem evalEntries_zip {names : List String} {os : List Operand}
    (h : names.length = os.length) (made : Nat) : evalEntries s (names.zip os) made =
      (names.zip (evalAll s os made).1, (evalAll s os made).2) := by
  induction os generalizing names made with
  | nil =>
    obtain rfl := List.eq_nil_of_length_eq_zero h
    rfl
  | cons o rest ih =>
    obtain ⟨name, names, rfl⟩ := List.exists_cons_of_length_eq_add_one h
    rw [List.zip_cons_cons, evalEntries, evalAll, ih (Nat.succ.inj h)]
    rfl

end Operand

/-! ## Executions one after the other -/

section Executions

variable {σ α β : Type}

/-- Goes on with a second execution from the result of a first one, and stops where the first one
has failed. -/
def Execution.andThen (x : Execution σ α) (k : α → σ → Execution σ β) : Execution σ β :=
  match x.outcome with
  | .ok a => (k a x.host).afterAll x.events
  | .error e => ⟨.error e, x.events, x.host⟩

/-- An event before the first execution is before both. -/
theorem Execution.andThen_after (event : Event) (x : Execution σ α)
    (k : α → σ → Execution σ β) : (x.after event).andThen k = (x.andThen k).after event := by
  rcases x with ⟨e | a, events, s⟩ <;> rfl

/-- What the first execution did comes before all else. -/
theorem Execution.isPrefix_andThen (x : Execution σ α) (k : α → σ → Execution σ β) :
    x.events <+: (x.andThen k).events := by
  rcases x with ⟨e | a, events, s⟩
  · exact List.prefix_rfl
  · exact List.prefix_append events _

/-- **A process that goes on executes both parts in order.** -/
theorem Process.execute_bind (denied : DenyList) (host : Host σ) (p : Process α)
    (k : α → Process β) (s : σ) : (p.bind k).execute denied host s =
      (p.execute denied host s).andThen fun a => (k a).execute denied host := by
  induction p generalizing s with
  | done a => rfl
  | read base name next ih =>
    show Process.execute denied host (.read base name fun v => (next v).bind k) s = _
    rw [execute, execute]
    split
    · rfl
    · rw [ih, Execution.andThen_after]
  | call g receiver arguments next ih =>
    show Process.execute denied host (.call g receiver arguments fun v => (next v).bind k) s = _
    rw [execute, execute]
    split
    · rfl
    · rcases host.call ⟨g, receiver, arguments⟩ s with ⟨e | v, s'⟩
      · rfl
      · show (((next v).bind k).execute denied host s').after _ = _
        rw [ih, ← Execution.andThen_after]

end Executions

/-! ## Evaluations -/

namespace Evaluator

open Expression Lowered Statement

variable {σ : Type} (denied : DenyList) (host : Host σ) (context : Option Value) (run : Nat) (s : σ)

/-- The code of expressions in order, executed in the frame of their routine. -/
def executeAll (es : List Expression) : Execution σ Frame :=
  let args := lowerArguments es 0
  (runAll args.code (.start (context.getD .undefined) run args.next)).execute denied host s

/-- What is executed behind the code of expressions, in a frame that may have more temporaries than
that code needs. -/
theorem execute_behind {β : Type} {k : Nat} {next next' : Frame → Process β}
    (es : List Expression) (h : Widens (lowerArguments es 0).next k next next') :
    ((runAll (lowerArguments es 0).code (.start (context.getD .undefined) run
      ((lowerArguments es 0).next + k))).bind next).execute denied host s =
      (executeAll denied host context run s es).andThen fun f => (next' f).execute denied host := by
  have htargets : Targets (lowerArguments es 0).next (lowerArguments es 0).code := fun t ht =>
    (((lowerArguments_tidy es (fun _ => False) 0).assigns t).mp ht).2
  rw [← Frame.start_widen, runAll_widen _ htargets h Array.size_replicate, Process.execute_bind]
  rfl

/-- **Expressions are executed behind those that stand before them.** -/
theorem executeAll_append (es es' : List Expression) : ∃ k,
    executeAll denied host context run s (es ++ es') =
      (executeAll denied host context run s es).andThen k := by
  let args := lowerArguments es 0
  let more := lowerArguments es' args.next
  have hle : args.next ≤ more.next := (lowerArguments_tidy es' (fun _ => False) args.next).le
  have hwidens : Widens args.next (more.next - args.next) (runAll more.code)
    fun f => runAll more.code (f.widen (more.next - args.next)) := fun _ _ => rfl
  have hbehind := execute_behind denied host context run s es hwidens
  rw [Nat.add_sub_cancel' hle, ← runAll_append] at hbehind
  rw [executeAll, lowerArguments_append]
  exact ⟨_, hbehind⟩

/-- The values of expressions in a frame behind their code, and the identity of what is made of
them. -/
def valuesIn (es : List Expression) (f : Frame) : Identity × List Value :=
  let vs := Operand.evalAll f.toScope (lowerArguments es 0).value f.made
  (⟨f.run, vs.2⟩, vs.1)

/-- There are as many values as expressions. -/
theorem length_valuesIn (es : List Expression) (f : Frame) :
    (valuesIn es f).2.length = es.length := by
  rw [valuesIn, Operand.length_evalAll, length_lowerArguments]

/-- A program whose code is that of expressions in order evaluates its operand behind them. -/
theorem evaluate_of_lowered {p : Program} {es : List Expression} {o : Operand}
    (h : Routine.lowerAll (.literal .undefined) 0 p =
      ⟨(lowerArguments es 0).code, o, (lowerArguments es 0).next⟩) :
    (ofProgram denied p).evaluate host context run s =
      (executeAll denied host context run s es).map fun f => (o.eval f.toScope f.made).1 := by
  have hroutine : Routine.ofProgram p =
      ⟨List.range (lowerArguments es 0).next, (lowerArguments es 0).code, o⟩ := by
    rw [Routine.ofProgram, h]
  rw [ofProgram, hroutine, evaluate, Routine.run, Process.execute_map, List.length_range]
  rfl

/-- A program of expressions in order evaluates one of their operands behind them. -/
theorem evaluate_all (es : List Expression) : ∃ o : Operand,
    (ofProgram denied es).evaluate host context run s =
      (executeAll denied host context run s es).map fun f => (o.eval f.toScope f.made).1 :=
  ⟨_, evaluate_of_lowered denied host context run s (Routine.lowerAll_eq es _ 0)⟩

/-- **A program is evaluated in the order of its expressions.**  What the first ones ask for comes
first, and where one of them fails the others are not evaluated. -/
theorem evaluate_append (es es' : List Expression) :
    ((ofProgram denied es).evaluate host context run s).events <+:
      ((ofProgram denied (es ++ es')).evaluate host context run s).events ∧
    ∀ e, ((ofProgram denied es).evaluate host context run s).outcome = .error e →
      (ofProgram denied (es ++ es')).evaluate host context run s =
        (ofProgram denied es).evaluate host context run s := by
  obtain ⟨o, hfirst⟩ := evaluate_all denied host context run s es
  obtain ⟨o', hall⟩ := evaluate_all denied host context run s (es ++ es')
  obtain ⟨k, happend⟩ := executeAll_append denied host context run s es es'
  rw [hall, hfirst, happend]
  refine ⟨Execution.isPrefix_andThen _ k, ?_⟩
  rcases executeAll denied host context run s es with ⟨e | f, events, s'⟩
  · exact fun _ _ => rfl
  · intro e he
    cases he

/-- A program of one expression is lowered as the expression is. -/
theorem lowerAll_singleton (e : Expression) (result : Operand) (next : Nat) :
    Routine.lowerAll result next [e] = e.lower next := by
  show Lowered.mk ((e.lower next).code ++ []) (e.lower next).value (e.lower next).next = _
  rw [List.append_nil]

/-- An array of expressions holds their values. -/
theorem evaluate_array (es : List Expression) :
    (ofProgram denied [.array (es.map some)]).evaluate host context run s =
      (executeAll denied host context run s es).map fun f =>
        .ofItems (valuesIn es f).1 (valuesIn es f).2 := by
  have hlower : Routine.lowerAll (.literal .undefined) 0 [.array (es.map some)] =
      ⟨(lowerArguments es 0).code, .array ((lowerArguments es 0).value.map some),
        (lowerArguments es 0).next⟩ := by
    rw [lowerAll_singleton, lower, lowerElements_eq]
  rw [evaluate_of_lowered denied host context run s hlower]
  congr 1
  funext f
  rw [Operand.eval, Operand.evalSlots_some]
  rfl

section Object

variable (ps : List (PropertyKey × Expression))

/-- The object of properties that are named and lowered. -/
def objectOperand : Operand :=
  .object ((ps.map (·.1.name)).zip (lowerArguments (ps.map Prod.snd) 0).value)

/-- An object is made of its names and the values of its expressions. -/
theorem eval_objectOperand (f : Frame) :
    ((objectOperand ps).eval f.toScope f.made).1 =
      .ofEntries (valuesIn (ps.map Prod.snd) f).1
        ((ps.map (·.1.name)).zip (valuesIn (ps.map Prod.snd) f).2) := by
  have hlength : (ps.map (·.1.name)).length =
      (lowerArguments (ps.map Prod.snd) 0).value.length := by
    rw [length_lowerArguments, List.length_map, List.length_map]
  rw [objectOperand, Operand.eval, Operand.evalEntries_zip f.toScope hlength]
  rfl

/-- An object holds the values of its expressions under their names. -/
theorem evaluate_object :
    (ofProgram denied [.object ps]).evaluate host context run s =
      (executeAll denied host context run s (ps.map Prod.snd)).map fun f =>
        .ofEntries (valuesIn (ps.map Prod.snd) f).1
          ((ps.map (·.1.name)).zip (valuesIn (ps.map Prod.snd) f).2) := by
  have hlower : Routine.lowerAll (.literal .undefined) 0 [.object ps] =
      ⟨(lowerArguments (ps.map Prod.snd) 0).code, objectOperand ps,
        (lowerArguments (ps.map Prod.snd) 0).next⟩ := by
    rw [lowerAll_singleton, lower, lowerProperties_eq]
    rfl
  rw [evaluate_of_lowered denied host context run s hlower]
  simp only [eval_objectOperand]

/-- A literal key adds one statement to the code of an object, and one temporary. -/
theorem ofProgram_member_object (p : Constant) :
    let args := lowerArguments (ps.map Prod.snd) 0
    Routine.ofProgram [.member (.object ps) (.literal p) true] =
      ⟨List.range (args.next + 1),
        args.code ++ [.readMember args.next (objectOperand ps) (.computed (.literal p))],
        .temp args.next⟩ := by
  dsimp only
  rw [Routine.ofProgram, lowerAll_singleton, lower, lower, lowerProperties_eq]
  rfl

/-- The read under a literal key, in a frame with one temporary more than the object needs, and
the temporary after it. -/
theorem widens_readMember {n : Nat} (p : Constant) :
    Widens n 1
      (fun f => ((readMember n (objectOperand ps) (.computed (.literal p))).run f).map fun f =>
        f.temps.getD n .undefined)
      (fun f => .read ((objectOperand ps).eval f.toScope f.made).1 p.key .done) := by
  intro f hf
  have hvalue : (objectOperand ps).eval (f.widen 1).toScope (f.widen 1).made =
      (objectOperand ps).eval f.toScope f.made := (objectOperand ps).eval_widen f.toScope 1 f.made
  have hpresent : ((objectOperand ps).eval f.toScope f.made).1.isNullish = false := by
    rw [eval_objectOperand]
    rfl
  have hlt : n < (f.widen 1).temps.size := by
    show n < (f.temps ++ Array.replicate 1 Value.undefined).size
    rw [Array.size_append, Array.size_replicate, hf]
    exact Nat.lt_succ_self n
  dsimp only
  rw [run_readMember_literal, run_readMember_of_present (by rwa [hvalue]), hvalue]
  exact congrArg (Process.read _ p.key) (funext fun v =>
    congrArg Process.done ((f.widen 1).getD_withMade_set hlt _ v))

/-- **The read of a literal key is the last thing that is asked for**, after all that the values of
the object ask for. -/
theorem evaluate_member_object (p : Constant) :
    (ofProgram denied [.member (.object ps) (.literal p) true]).evaluate host context run s =
      (executeAll denied host context run s (ps.map Prod.snd)).andThen fun f =>
        (Process.read ((objectOperand ps).eval f.toScope f.made).1 p.key .done).execute
          denied host := by
  -- the code of the values runs as if the temporary of the read were not there
  rw [evaluate, ofProgram, ofProgram_member_object, Routine.run, List.length_range, runAll_append,
    Process.map, Process.bind_assoc]
  simp only [runAll_singleton]
  exact execute_behind denied host context run s _ (widens_readMember ps p)

end Object

/-! ## Members of object literals -/

/-- What a read of an object that is made of pairs gives. -/
theorem execute_read_ofEntries (id : Identity) (pairs : List (String × Value)) (name : String) :
    (Process.read (.ofEntries id pairs) name .done).execute denied host s =
      if denied.denies name then ⟨.error (.forbidden name), [], s⟩
      else ⟨.ok ((pairs.reverse.lookup name).getD .undefined), [.read (.ofEntries id pairs) name],
        s⟩ := by
  rw [Process.execute, ← Entries.lookup_ofList]
  rfl

/-- What an object literal gives under a literal key, by what the program of its values gives, the
array of them, and the object alone. -/
structure ReadsLast (evaluate : Program → Execution σ Value) (ps : List (PropertyKey × Expression))
    (p : Constant) : Prop where
  /-- The values are evaluated in the order of the properties.  What the first ones ask for is asked
  for first, and where one of them fails the others are not evaluated. -/
  inOrder : ∀ es es', ps.map Prod.snd = es ++ es' →
    (evaluate es).events <+: (evaluate (ps.map Prod.snd)).events ∧
    ∀ e, (evaluate es).outcome = .error e → evaluate (ps.map Prod.snd) = evaluate es
  /-- Where a value fails nothing else is done. -/
  failed : ∀ e, (evaluate (ps.map Prod.snd)).outcome = .error e →
    evaluate [.object ps] = evaluate (ps.map Prod.snd) ∧
      evaluate [.member (.object ps) (.literal p) true] = evaluate (ps.map Prod.snd)
  /-- Behind all of them the object has each of its names once, in the order in which they first
  stand, and the name of the key is read of it: if it is not denied, the read gives the value that
  stands last under it, or `undefined` where no property has the name. -/
  found : ∀ v, (evaluate (ps.map Prod.snd)).outcome = .ok v → ∃ id vs,
    let names := ps.map (·.1.name)
    let object := Value.ofEntries id (names.zip vs)
    let x := evaluate (ps.map Prod.snd)
    vs.length = ps.length ∧
    evaluate [.array ((ps.map Prod.snd).map some)] = ⟨.ok (.ofItems id vs), x.events, x.host⟩ ∧
    evaluate [.object ps] = ⟨.ok object, x.events, x.host⟩ ∧
    Entries.keys (Entries.ofList (names.zip vs)) = names.eraseDups ∧
    ((names.zip vs).reverse.lookup p.key = none ↔ p.key ∉ names) ∧
    evaluate [.member (.object ps) (.literal p) true] =
      if denied.denies p.key then ⟨.error (.forbidden p.key), x.events, x.host⟩
      else ⟨.ok (((names.zip vs).reverse.lookup p.key).getD .undefined),
        x.events ++ [.read object p.key], x.host⟩

/-- **An object literal is read under a literal key** behind all that its values ask for. -/
theorem evaluate_object_key (ps : List (PropertyKey × Expression)) (p : Constant) :
    ReadsLast denied (fun q => (ofProgram denied q).evaluate host context run s) ps p := by
  obtain ⟨o, hprogram⟩ := evaluate_all denied host context run s (ps.map Prod.snd)
  have harray := evaluate_array denied host context run s (ps.map Prod.snd)
  have hobject := evaluate_object denied host context run s ps
  have hmember := evaluate_member_object denied host context run s ps p
  simp only [eval_objectOperand] at hmember
  -- all four programs start with one execution, that of the code of the values
  generalize executeAll denied host context run s (ps.map Prod.snd) = y at *
  rcases y with ⟨e | f, events, s'⟩
  · refine ⟨fun es es' h => h ▸ evaluate_append denied host context run s es es', ?_, ?_⟩
    · intro e _
      rw [hobject, hmember, hprogram]
      exact ⟨rfl, rfl⟩
    · intro v hv
      rw [hprogram] at hv
      cases hv
  · refine ⟨fun es es' h => h ▸ evaluate_append denied host context run s es es', ?_, ?_⟩
    · intro e he
      rw [hprogram] at he
      cases he
    · intro v _
      have hlength : (valuesIn (ps.map Prod.snd) f).2.length = ps.length := by
        rw [length_valuesIn, List.length_map]
      refine ⟨(valuesIn (ps.map Prod.snd) f).1, (valuesIn (ps.map Prod.snd) f).2, hlength, ?_⟩
      rw [harray, hobject, hmember, hprogram]
      have hkeys := Entries.keys_ofList_zip (hlength.trans (List.length_map (·.1.name)).symm)
      refine ⟨rfl, rfl, hkeys, ?_, ?_⟩
      · rw [← Entries.lookup_ofList, Entries.lookup_eq_none_iff, hkeys, List.mem_eraseDups]
      · show Execution.afterAll _ (Process.execute denied host (.read _ p.key .done) s') = _
        rw [execute_read_ofEntries]
        split
        · exact congrArg (Execution.mk _ · s') (List.append_nil events)
        · rfl

end Evaluator

end ExprSandbox
