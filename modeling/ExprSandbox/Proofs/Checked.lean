import ExprSandbox.Proofs.Assembly
import ExprSandbox.Proofs.Running
import ExprSandbox.Proofs.Sandbox
import ExprSandbox.Proofs.WellFormed

/-!
# Runs that check their temporaries

A frame gives `undefined` for a temporary that it does not have, and drops a value that is put
into one.  Here is the run that does neither and comes to `none` instead: at the first temporary
out of range that is really read, or that a value is really put into.

Where all temporaries of some code are in range the two runs are equal, request by request
(`Statement.runAll?_agrees`), and in a compiled routine they are (`compiled_wellFormed`).
-/

namespace ExprSandbox

/-! ## Operands -/

namespace Operand

mutual
/-- The value of an operand, if the frame has the temporaries that it reads. -/
def eval? (s : Scope) (o : Operand) (made : Nat) : Option (Value × Nat) :=
  match o with
  | .literal value => some (.ofConstant value, made)
  | .temp index => s.temps[index]?.map (·, made)
  | .context => some (s.context, made)
  | .array slots => do
    let vs ← evalSlots? s slots made
    return (.array ⟨s.run, vs.2⟩ vs.1, vs.2 + 1)
  | .object entries => do
    let es ← evalEntries? s entries made
    return (.ofEntries ⟨s.run, es.2⟩ es.1, es.2 + 1)
  | .unary operator argument => do
    let a ← argument.eval? s made
    return (operator.apply a.1, a.2)
  | .binary operator left right => do
    let l ← left.eval? s made
    let r ← right.eval? s l.2
    return (operator.apply l.1 r.1, r.2)

/-- The slots of an array, if the frame has their temporaries. -/
def evalSlots? (s : Scope) (slots : List (Option Operand)) (made : Nat) :
    Option (List (Option Value) × Nat) :=
  match slots with
  | [] => some ([], made)
  | none :: rest => do
    let vs ← evalSlots? s rest made
    return (none :: vs.1, vs.2)
  | some o :: rest => do
    let v ← o.eval? s made
    let vs ← evalSlots? s rest v.2
    return (some v.1 :: vs.1, vs.2)

/-- The entries of an object, if the frame has their temporaries. -/
def evalEntries? (s : Scope) (entries : List (String × Operand)) (made : Nat) :
    Option (List (String × Value) × Nat) :=
  match entries with
  | [] => some ([], made)
  | (key, o) :: rest => do
    let v ← o.eval? s made
    let es ← evalEntries? s rest v.2
    return ((key, v.1) :: es.1, es.2)
end

/-- The values of operands from left to right, if the frame has their temporaries. -/
def evalAll? (s : Scope) (os : List Operand) (made : Nat) : Option (List Value × Nat) :=
  match os with
  | [] => some ([], made)
  | o :: rest => do
    let v ← o.eval? s made
    let vs ← evalAll? s rest v.2
    return (v.1 :: vs.1, vs.2)

/-- The temporaries are among the first `n`. -/
def InRange (n : Nat) (temps : List Nat) : Prop :=
  ∀ t ∈ temps, t < n

/-- Two lists of temporaries are in range if they are so together. -/
theorem inRange_append {n : Nat} {a b : List Nat} :
    InRange n (a ++ b) ↔ InRange n a ∧ InRange n b :=
  List.forall_mem_append

mutual
/-- **An operand in range has a value**, and it is the one that a run takes. -/
theorem eval?_eq_some {s : Scope} (o : Operand) (made : Nat)
    (h : InRange s.temps.size o.temps) : o.eval? s made = some (o.eval s made) := by
  match o with
  | .literal value => rfl
  | .context => rfl
  | .temp index =>
    have hlt : index < s.temps.size := h index (List.mem_singleton.mpr rfl)
    rw [eval?, eval, Array.getD_eq_getD_getElem?, Array.getElem?_eq_getElem hlt]
    rfl
  | .array slots =>
    rw [eval?, evalSlots?_eq_some slots made h]
    rfl
  | .object entries =>
    rw [eval?, evalEntries?_eq_some entries made h]
    rfl
  | .unary operator argument =>
    rw [eval?, eval?_eq_some argument made h]
    rfl
  | .binary operator left right =>
    obtain ⟨hleft, hright⟩ := inRange_append.mp h
    rw [eval?, eval?_eq_some left made hleft]
    show (right.eval? s _ >>= _) = _
    rw [eval?_eq_some right _ hright]
    rfl

/-- The slots of an array, when all are in range. -/
theorem evalSlots?_eq_some {s : Scope} (slots : List (Option Operand)) (made : Nat)
    (h : InRange s.temps.size (slotsTemps slots)) :
    evalSlots? s slots made = some (evalSlots s slots made) := by
  match slots with
  | [] => rfl
  | none :: rest =>
    rw [evalSlots?, evalSlots?_eq_some rest made h]
    rfl
  | some o :: rest =>
    obtain ⟨hfirst, hrest⟩ := inRange_append.mp h
    rw [evalSlots?, eval?_eq_some o made hfirst]
    show (evalSlots? s rest _ >>= _) = _
    rw [evalSlots?_eq_some rest _ hrest]
    rfl

/-- The entries of an object, when all are in range. -/
theorem evalEntries?_eq_some {s : Scope} (entries : List (String × Operand)) (made : Nat)
    (h : InRange s.temps.size (entriesTemps entries)) :
    evalEntries? s entries made = some (evalEntries s entries made) := by
  match entries with
  | [] => rfl
  | (key, o) :: rest =>
    obtain ⟨hfirst, hrest⟩ := inRange_append.mp h
    rw [evalEntries?, eval?_eq_some o made hfirst]
    show (evalEntries? s rest _ >>= _) = _
    rw [evalEntries?_eq_some rest _ hrest]
    rfl
end

/-- Operands from left to right, when all are in range. -/
theorem evalAll?_eq_some {s : Scope} (os : List Operand) (made : Nat)
    (h : InRange s.temps.size (allTemps os)) : evalAll? s os made = some (evalAll s os made) := by
  induction os generalizing made with
  | nil => rfl
  | cons o rest ih =>
    rw [allTemps_cons] at h
    obtain ⟨hfirst, hrest⟩ := inRange_append.mp h
    rw [evalAll?, eval?_eq_some o made hfirst]
    show (evalAll? s rest _ >>= _) = _
    rw [ih _ hrest]
    rfl

end Operand

/-- The name of the member that a key addresses, if the frame has the temporaries of the key. -/
def Key.eval? (s : Scope) (key : Key) (made : Nat) : Option (String × Nat) :=
  match key with
  | .named name => some (name, made)
  | .computed operand => do
    let v ← operand.eval? s made
    return (v.1.key, v.2)

/-- A key in range addresses a member. -/
theorem Key.eval?_eq_some {s : Scope} (key : Key) (made : Nat)
    (h : ∀ o, key = .computed o → Operand.InRange s.temps.size o.temps) :
    key.eval? s made = some (key.eval s made) := by
  cases key with
  | named name => rfl
  | computed o =>
    rw [eval?, Operand.eval?_eq_some o made (h o rfl)]
    rfl

/-! ## Statements -/

/-- Puts a value into a temporary, if the frame has it. -/
def Frame.set? (f : Frame) (target : Nat) (v : Value) : Option Frame :=
  if target < f.temps.size then some (f.set target v) else none

/-- Goes on with a value that is there. -/
def Process.onSome {α β : Type} (a : Option α) (k : α → Process (Option β)) :
    Process (Option β) :=
  match a with
  | none => .done none
  | some a => k a

/-- A checked process and one that is not ask for the same things and come to the same frame,
which has `n` temporaries. -/
inductive Process.Agrees (n : Nat) : Process (Option Frame) → Process Frame → Prop
  | done {f : Frame} (size : f.temps.size = n) : Agrees n (.done (some f)) (.done f)
  | read {next : Value → Process (Option Frame)} {next' : Value → Process Frame} (base : Value)
      (name : String) (answer : ∀ v, Agrees n (next v) (next' v)) :
      Agrees n (.read base name next) (.read base name next')
  | call {next : Value → Process (Option Frame)} {next' : Value → Process Frame} (f : Function)
      (receiver : Value) (arguments : List Value) (answer : ∀ v, Agrees n (next v) (next' v)) :
      Agrees n (.call f receiver arguments next) (.call f receiver arguments next')

namespace Process.Agrees

variable {n : Nat} {p : Process (Option Frame)} {p' : Process Frame}

/-- What goes on alike from every frame with as many temporaries is the same. -/
theorem bind_eq {β : Type} {k : Option Frame → Process β} {k' : Frame → Process β}
    (h : Agrees n p p') (hk : ∀ f : Frame, f.temps.size = n → k (some f) = k' f) :
    p.bind k = p'.bind k' := by
  induction h with
  | done size => exact hk _ size
  | read base name _ ih => exact congrArg (Process.read base name) (funext ih)
  | call f receiver arguments _ ih =>
    exact congrArg (Process.call f receiver arguments) (funext ih)

/-- Code in sequence. -/
theorem seq {q : Frame → Process (Option Frame)} {q' : Frame → Process Frame}
    (h : Agrees n p p') (hq : ∀ f : Frame, f.temps.size = n → Agrees n (q f) (q' f)) :
    Agrees n (p.bind fun f => onSome f q) (p'.bind q') := by
  induction h with
  | done size => exact hq _ size
  | read base name _ ih => exact .read base name ih
  | call f receiver arguments _ ih => exact .call f receiver arguments ih

end Process.Agrees

namespace Statement

open Process

mutual
/-- Runs a statement, as long as the frame has the temporaries that it reads and the one that it
puts a value into. -/
def run? (s : Statement) (f : Frame) : Process (Option Frame) :=
  match s with
  | .assign target value =>
    onSome (value.eval? f.toScope f.made) fun v => .done ((f.withMade v.2).set? target v.1)
  | .readContext target name =>
    if f.context.isTruthy then .read f.context name fun v => .done (f.set? target v)
    else .done (some f)
  | .readMember target base key =>
    onSome (base.eval? f.toScope f.made) fun b =>
      if b.1.isNullish then .done (some (f.withMade b.2))
      else
        onSome (key.eval? f.toScope b.2) fun k =>
          .read b.1 k.1 fun v => .done ((f.withMade k.2).set? target v)
  | .call target callee receiver arguments =>
    onSome (callee.eval? f.toScope f.made) fun c =>
      match c.1 with
      | .function g =>
        onSome (receiver.eval? f.toScope c.2) fun r =>
          onSome (Operand.evalAll? f.toScope arguments r.2) fun args =>
            .call g r.1 args.1 fun v => .done ((f.withMade args.2).set? target v)
      | _ => .done (some (f.withMade c.2))
  | .branch test consequent alternate =>
    onSome (test.eval? f.toScope f.made) fun t =>
      if t.1.isTruthy then runAll? consequent (f.withMade t.2)
      else runAll? alternate (f.withMade t.2)

/-- Runs statements in order, as long as the frame has their temporaries. -/
def runAll? (body : List Statement) (f : Frame) : Process (Option Frame) :=
  match body with
  | [] => .done (some f)
  | s :: rest => (s.run? f).bind fun f => onSome f (runAll? rest)
end

/-! ## Statements in range -/

section InRange

variable {n : Nat}

/-- The statements of a listing read temporaries, and put values into some, that are among the
first `n`. -/
def InRange (n : Nat) (listing : List Statement) : Prop :=
  ∀ s ∈ listing, (∀ t, s.target? = some t → t < n) ∧ Operand.InRange n s.uses

/-- Two listings are in range if they are so together. -/
theorem inRange_append {a b : List Statement} : InRange n (a ++ b) ↔ InRange n a ∧ InRange n b :=
  List.forall_mem_append

/-- The operands of a statement in range are in range, and so is its target. -/
theorem InRange.operands {s : Statement} {rest : List Statement} (h : InRange n (s :: rest)) :
    (∀ t, s.target? = some t → t < n) ∧ ∀ o ∈ s.operands, Operand.InRange n o.temps := by
  obtain ⟨htarget, huses⟩ := h s List.mem_cons_self
  exact ⟨htarget, fun o ho t ht => huses t (List.mem_flatMap.mpr ⟨o, ho, ht⟩)⟩

/-- The base of a read is an operand of it. -/
theorem mem_operands_readMember (t : Nat) (base : Operand) (key : Key) :
    base ∈ (readMember t base key).operands := by
  cases key <;> exact List.mem_cons_self

/-- A temporary in range takes a value. -/
theorem agrees_set {f : Frame} {t : Nat} (hf : f.temps.size = n) (ht : t < n) (v : Value) :
    Agrees n (.done (f.set? t v)) (.done (f.set t v)) := by
  rw [Frame.set?, if_pos (hf.symm ▸ ht)]
  exact .done ((Frame.size_temps_set f t v).trans hf)

section Forms

variable {f : Frame} {t : Nat} {o callee receiver : Operand} {key : Key}
variable {arguments : List Operand} {a b : List Statement}

/-- An assignment in range. -/
theorem agrees_assign (ht : t < f.temps.size) (ho : Operand.InRange f.temps.size o.temps) :
    Agrees f.temps.size ((assign t o).run? f) ((assign t o).run f) := by
  rw [run?, run_assign, Operand.eval?_eq_some o f.made ho, onSome]
  refine agrees_set ?_ ht _
  rfl

/-- A read of the context into a temporary in range. -/
theorem agrees_readContext (name : String) (ht : t < f.temps.size) :
    Agrees f.temps.size ((readContext t name).run? f) ((readContext t name).run f) := by
  cases htruth : f.context.isTruthy with
  | true =>
    rw [run_readContext_of_truthy htruth, run?, if_pos htruth]
    exact .read _ _ (agrees_set rfl ht)
  | false =>
    rw [run_readContext_of_falsy htruth, run?, if_neg (ne_true_of_eq_false htruth)]
    exact .done rfl

/-- A read of a member in range. -/
theorem agrees_readMember (ht : t < f.temps.size) (ho : Operand.InRange f.temps.size o.temps)
    (hkey : ∀ o', key = .computed o' → Operand.InRange f.temps.size o'.temps) :
    Agrees f.temps.size ((readMember t o key).run? f) ((readMember t o key).run f) := by
  rw [run?, Operand.eval?_eq_some o f.made ho, onSome]
  cases hnull : (o.eval f.toScope f.made).1.isNullish with
  | true =>
    rw [run_readMember_of_nullish hnull, if_pos rfl]
    exact .done rfl
  | false =>
    rw [run_readMember_of_present hnull, if_neg Bool.false_ne_true,
      Key.eval?_eq_some key _ hkey]
    exact .read _ _ (agrees_set rfl ht)

/-- A call in range. -/
theorem agrees_call (ht : t < f.temps.size)
    (hcallee : Operand.InRange f.temps.size callee.temps)
    (hreceiver : Operand.InRange f.temps.size receiver.temps)
    (harguments : Operand.InRange f.temps.size (Operand.allTemps arguments)) :
    Agrees f.temps.size ((call t callee receiver arguments).run? f)
      ((call t callee receiver arguments).run f) := by
  rw [run?, Operand.eval?_eq_some callee f.made hcallee, onSome]
  by_cases hfunction : ∃ g, (callee.eval f.toScope f.made).1 = .function g
  · obtain ⟨g, hg⟩ := hfunction
    rw [run_call_of_function hg]
    simp only [onSome, hg, Operand.eval?_eq_some receiver _ hreceiver,
      Operand.evalAll?_eq_some arguments _ harguments]
    exact .call _ _ _ (agrees_set rfl ht)
  · have hno : ∀ g, (callee.eval f.toScope f.made).1 ≠ .function g := fun g hg =>
      hfunction ⟨g, hg⟩
    rw [run_call_of_not_function hno]
    split
    · next g hg => exact absurd hg (hno g)
    · exact .done rfl

/-- A branch in range, if both of its blocks agree in the frame after the test. -/
theorem agrees_branch (ho : Operand.InRange f.temps.size o.temps)
    (ha : ∀ made, Agrees f.temps.size (runAll? a (f.withMade made)) (runAll a (f.withMade made)))
    (hb : ∀ made, Agrees f.temps.size (runAll? b (f.withMade made)) (runAll b (f.withMade made))) :
    Agrees f.temps.size ((branch o a b).run? f) ((branch o a b).run f) := by
  rw [run?, run_branch, Operand.eval?_eq_some o f.made ho, onSome]
  split
  · exact ha _
  · exact hb _

end Forms

mutual
/-- **A statement in range runs as it does unchecked.** -/
theorem run?_agrees (s : Statement) (f : Frame) (hs : InRange f.temps.size s.listing) :
    Agrees f.temps.size (s.run? f) (s.run f) := by
  match s with
  | .assign target value =>
    obtain ⟨htarget, hoperands⟩ := hs.operands
    exact agrees_assign (htarget target rfl) (hoperands value (.head _))
  | .readContext target name =>
    obtain ⟨htarget, -⟩ := hs.operands
    exact agrees_readContext name (htarget target rfl)
  | .readMember target base key =>
    obtain ⟨htarget, hoperands⟩ := hs.operands
    have hbase := hoperands base (mem_operands_readMember target base key)
    refine agrees_readMember (htarget target rfl) hbase fun o ho => ?_
    subst ho
    exact hoperands o (.tail _ (.head _))
  | .call target callee receiver arguments =>
    obtain ⟨htarget, hoperands⟩ := hs.operands
    have hcallee := hoperands callee (.head _)
    have hreceiver := hoperands receiver (.tail _ (.head _))
    refine agrees_call (htarget target rfl) hcallee hreceiver fun t ht => ?_
    obtain ⟨o, ho, ht⟩ := List.mem_flatMap.mp ht
    exact hoperands o (.tail _ (.tail _ ho)) t ht
  | .branch test a b =>
    obtain ⟨-, hoperands⟩ := hs.operands
    obtain ⟨ha, hb⟩ := inRange_append.mp fun s hmem => hs s (List.mem_cons_of_mem _ hmem)
    refine agrees_branch (hoperands test (.head _)) (fun made => ?_) fun made => ?_
    · exact runAll?_agrees a (f.withMade made) ha
    · exact runAll?_agrees b (f.withMade made) hb

/-- Code in range runs as it does unchecked. -/
theorem runAll?_agrees (c : List Statement) (f : Frame)
    (hc : InRange f.temps.size (listingAll c)) :
    Agrees f.temps.size (runAll? c f) (runAll c f) := by
  match c with
  | [] => exact .done rfl
  | s :: rest =>
    obtain ⟨hs, hrest⟩ := inRange_append.mp hc
    rw [runAll?, runAll_cons]
    refine (run?_agrees s f hs).seq fun f' hf' => ?_
    rw [← hf'] at hrest ⊢
    exact runAll?_agrees rest f' hrest
end

end InRange

end Statement

/-! ## Routines -/

/-- Runs a routine, as long as its frame has the temporaries that are read and put values into. -/
def Routine.run? (r : Routine) (context : Value) (run : Nat) : Process (Option Value) :=
  (Statement.runAll? r.body (.start context run r.declared.length)).bind fun f =>
    Process.onSome f fun f => .done ((r.result.eval? f.toScope f.made).map Prod.fst)

/-- **A well-formed routine never leaves its frame**: the run that checks asks for the same things
and comes to the same value. -/
theorem Routine.WellFormed.run?_eq {r : Routine} (h : r.WellFormed) (context : Value) (run : Nat) :
    r.run? context run = (r.run context run).map some := by
  let start := Frame.start context run r.declared.length
  have hsize : start.temps.size = r.declared.length := Array.size_replicate
  have hbody : Statement.InRange start.temps.size (Statement.listingAll r.body) := by
    rw [hsize]
    exact fun s hs => ⟨fun t ht => (h.target t).mp ⟨s, hs, ht⟩, h.uses_lt s hs⟩
  rw [Routine.run?, Routine.run, Process.map, Process.map, Process.bind_assoc]
  refine (Statement.runAll?_agrees r.body start hbody).bind_eq fun f' hf' => ?_
  have hresult : Operand.InRange f'.temps.size r.result.temps := by
    rw [hf', hsize]
    exact h.result_lt
  show Process.done ((r.result.eval? f'.toScope f'.made).map Prod.fst) = _
  rw [Operand.eval?_eq_some r.result f'.made hresult]
  rfl

/-- Evaluates as `Evaluator.evaluate` does, as long as the frame has the temporaries that are read
and put values into. -/
def Evaluator.evaluate? {σ : Type} (e : Evaluator) (host : Host σ) (context : Option Value)
    (run : Nat) (s : σ) : Execution σ (Option Value) :=
  (e.routine.run? (context.getD .undefined) run).execute e.denied host s

/-- **Compiled routines are well formed, and their evaluation stays within the frame.**  The
routine is the one that is written statement by statement, with the temporaries declared as they
are taken. -/
theorem compiled_wellFormed (p : Program) :
    Assembly.routine p = Routine.ofProgram p ∧ (Routine.ofProgram p).WellFormed ∧
      ∀ (σ : Type) (denied : DenyList) (host : Host σ) (context : Option Value) (run : Nat) (s : σ),
        let ev := Evaluator.ofProgram denied p
        ev.evaluate? host context run s = (ev.evaluate host context run s).map some := by
  have h := Routine.ofProgram_wellFormed p
  refine ⟨Assembly.routine_eq_ofProgram p, h, fun σ denied host context run s => ?_⟩
  intro ev
  rw [Evaluator.evaluate?, Evaluator.evaluate, ← Process.execute_map]
  exact congrArg (Process.execute denied host · s) (h.run?_eq _ run)

end ExprSandbox
