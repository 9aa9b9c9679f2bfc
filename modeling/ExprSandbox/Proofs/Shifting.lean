import ExprSandbox.Proofs.Calls
import ExprSandbox.Proofs.Occurrences

/-!
# Operands that are evaluated later

An operand numbers what it makes from the count of its frame on, so the same operand makes its
arrays and objects with greater identities when it is evaluated later.  A renaming that shifts the
identities takes the one value to the other (`Operand.eval_rename`), provided that it keeps the
identities of what the operand finds.  The latter is the case when everything the operand finds was
made before (`MadeBefore`).
-/

namespace ExprSandbox

/-! ## Renamings that keep what was made -/

/-- The renaming moves nothing but identities of the run that it hands out from `made` on. -/
structure Renaming.MovesFrom (π : Renaming) (run made : Nat) : Prop where
  within : π.Within run
  fixes : ∀ i < made, π ⟨run, i⟩ = ⟨run, i⟩

/-- The renaming adds `d` to the indices of the run in `[a, b)`. -/
def Renaming.Shifts (π : Renaming) (run a b d : Nat) : Prop :=
  ∀ i, a ≤ i → i < b → π ⟨run, i⟩ = ⟨run, i + d⟩

/-- The index `i` after a shift by `d` of all indices from `a` on. -/
def shiftFrom (a d i : Nat) : Nat :=
  if i < a then i else i + d

/-- A shift puts no two indices in one place. -/
theorem shiftFrom_injective (a d : Nat) : Function.Injective (shiftFrom a d) := by
  intro i j hij
  unfold shiftFrom at hij
  split at hij <;> split at hij <;> omega

/-- The indices before `n` with their places after a shift. -/
def Matching.shift (a d n : Nat) : Matching where
  pairs := (List.range n).map fun i => (i, shiftFrom a d i)
  left_nodup := by
    rw [List.map_map]
    exact List.nodup_range.map fun _ _ h => h
  right_nodup := by
    rw [List.map_map]
    exact List.nodup_range.map (shiftFrom_injective a d)

/-- Each index is matched with its place. -/
theorem Matching.mem_shift {a d n i : Nat} (hi : i < n) :
    (i, shiftFrom a d i) ∈ (Matching.shift a d n).pairs :=
  List.mem_map_of_mem (List.mem_range.mpr hi)

/-- Nothing in `a` has an identity that the run hands out from `made` on. -/
def MadeBefore {α : Type} [Renamable α] (run made : Nat) (a : α) : Prop :=
  ∀ π : Renaming, π.MovesFrom run made → rename π a = a

section MadeBefore

variable {α β : Type} [Renamable α] [Renamable β] {run made made' : Nat} {π : Renaming}

/-- A renaming that keeps what was made up to some count keeps what was made up to a lower one. -/
theorem Renaming.MovesFrom.mono (h : π.MovesFrom run made') (le : made ≤ made') :
    π.MovesFrom run made :=
  ⟨h.within, fun i hi => h.fixes i (lt_of_lt_of_le hi le)⟩

/-- What a renaming keeps is shifted by nothing. -/
theorem Renaming.MovesFrom.shifts (h : π.MovesFrom run made) (a : Nat) :
    π.Shifts run a made 0 :=
  fun i _ hi => h.fixes i hi

/-- A part of an interval is shifted with it. -/
theorem Renaming.Shifts.mono {a b a' b' d : Nat} (h : π.Shifts run a b d) (ha : a ≤ a')
    (hb : b' ≤ b) : π.Shifts run a' b' d :=
  fun i hi hi' => h i (le_trans ha hi) (lt_of_lt_of_le hi' hb)

/-- **Identities can be shifted** without moving the ones before them. -/
theorem Renaming.exists_shifts (run a b d : Nat) :
    ∃ π : Renaming, π.MovesFrom run a ∧ π.Shifts run a b d := by
  obtain ⟨π, hπ⟩ := (Matching.shift a d (max a b)).exists_agrees run
  refine ⟨π, ⟨hπ.within, fun i hi => ?_⟩, fun i hi hi' => ?_⟩
  · have hlt : i < max a b := lt_of_lt_of_le hi (le_max_left a b)
    rw [hπ.pairs _ (Matching.mem_shift hlt), shiftFrom, if_pos hi]
  · have hlt : i < max a b := lt_of_lt_of_le hi' (le_max_right a b)
    rw [hπ.pairs _ (Matching.mem_shift hlt), shiftFrom, if_neg (Nat.not_lt_of_le hi)]

/-- What was made before is before everything later. -/
theorem MadeBefore.mono {a : α} (h : MadeBefore run made a) (le : made ≤ made') :
    MadeBefore run made' a :=
  fun π hπ => h π (hπ.mono le)

/-- What has no identity of the run was made before it. -/
theorem Fresh.madeBefore {a : α} (h : Fresh run a) : MadeBefore run made a :=
  fun π hπ => h π hπ.within

/-- Functions that commute with renaming make nothing. -/
theorem MadeBefore.map {f : α → β} (hf : ∀ π a, rename π (f a) = f (rename π a)) {a : α}
    (h : MadeBefore run made a) : MadeBefore run made (f a) :=
  fun π hπ => by rw [hf, h π hπ]

end MadeBefore

/-! ## Operands in renamed scopes -/

/-- `s'` is `s` with other identities in the context and in the temporaries of `U`. -/
structure Scope.Renames (π : Renaming) (U : Nat → Prop) (s s' : Scope) : Prop where
  context : s'.context = rename π s.context
  run : s'.run = s.run
  temps : ∀ i, U i → s'.temps.getD i .undefined = rename π (s.temps.getD i .undefined)

/-- Fewer temporaries may be looked at. -/
theorem Scope.Renames.mono {π : Renaming} {U U' : Nat → Prop} {s s' : Scope}
    (h : s.Renames π U s') (hU : ∀ i, U' i → U i) : s.Renames π U' s' :=
  ⟨h.context, h.run, fun i hi => h.temps i (hU i hi)⟩

namespace Operand

variable {π : Renaming} {s s' : Scope} {d : Nat}

mutual
/-- **An operand in a renamed scope**, evaluated after `d` arrays and objects more, gives the
renamed value, if the renaming shifts what the operand makes by `d`.  It is enough that the
temporaries of the operand are renamed. -/
theorem eval_rename (o : Operand) (m : Nat) (hs : s.Renames π (· ∈ o.temps) s')
    (hπ : π.Shifts s.run m (o.eval s m).2 d) :
    o.eval s' (m + d) = (rename π (o.eval s m).1, (o.eval s m).2 + d) := by
  match o with
  | .literal value =>
    rw [eval, eval, Value.rename_ofConstant]
  | .temp index =>
    rw [eval, eval, hs.temps index (List.mem_singleton.mpr rfl)]
  | .context =>
    rw [eval, eval, hs.context]
  | .array slots =>
    have hle := le_evalSlots s slots m
    have hslots := evalSlots_rename slots m hs (hπ.mono (le_refl m) (Nat.le_succ _))
    rw [eval, eval, hslots, hs.run, Value.rename_array, hπ _ hle (Nat.lt_succ_self _),
      Nat.add_right_comm]
  | .object entries =>
    have hle := le_evalEntries s entries m
    have hentries := evalEntries_rename entries m hs (hπ.mono (le_refl m) (Nat.le_succ _))
    rw [eval, eval, hentries, hs.run, Value.ofEntries_rename, hπ _ hle (Nat.lt_succ_self _),
      Nat.add_right_comm]
  | .unary operator argument =>
    rw [eval, eval, eval_rename argument m hs hπ, operator.rename_apply]
  | .binary operator left right =>
    have hl := eval_rename left m (hs.mono fun i hi => List.mem_append_left _ hi)
      (hπ.mono (le_refl m) (le_eval s right _))
    have hr := eval_rename right (left.eval s m).2 (hs.mono fun i hi => List.mem_append_right _ hi)
      (hπ.mono (le_eval s left m) (le_refl _))
    rw [eval, eval, hl, hr, operator.rename_apply]

/-- The slots of an array in a renamed scope. -/
theorem evalSlots_rename (slots : List (Option Operand)) (m : Nat)
    (hs : s.Renames π (· ∈ slotsTemps slots) s') (hπ : π.Shifts s.run m (evalSlots s slots m).2 d) :
    evalSlots s' slots (m + d) =
      (rename π (evalSlots s slots m).1, (evalSlots s slots m).2 + d) := by
  match slots with
  | [] =>
    rw [evalSlots, evalSlots]
    rfl
  | none :: rest =>
    rw [evalSlots, evalSlots, evalSlots_rename rest m hs hπ]
    rfl
  | some o :: rest =>
    have ho := eval_rename o m (hs.mono fun i hi => List.mem_append_left _ hi)
      (hπ.mono (le_refl m) (le_evalSlots s rest _))
    have hrest := evalSlots_rename rest (o.eval s m).2
      (hs.mono fun i hi => List.mem_append_right _ hi) (hπ.mono (le_eval s o m) (le_refl _))
    rw [evalSlots, evalSlots, ho, hrest]
    rfl

/-- The entries of an object in a renamed scope. -/
theorem evalEntries_rename (entries : List (String × Operand)) (m : Nat)
    (hs : s.Renames π (· ∈ entriesTemps entries) s')
    (hπ : π.Shifts s.run m (evalEntries s entries m).2 d) :
    evalEntries s' entries (m + d) =
      (rename π (evalEntries s entries m).1, (evalEntries s entries m).2 + d) := by
  match entries with
  | [] =>
    rw [evalEntries, evalEntries]
    rfl
  | (key, o) :: rest =>
    have ho := eval_rename o m (hs.mono fun i hi => List.mem_append_left _ hi)
      (hπ.mono (le_refl m) (le_evalEntries s rest _))
    have hrest := evalEntries_rename rest (o.eval s m).2
      (hs.mono fun i hi => List.mem_append_right _ hi) (hπ.mono (le_eval s o m) (le_refl _))
    rw [evalEntries, evalEntries, ho, hrest]
    rfl
end

end Operand

/-! ## Renaming nothing -/

namespace Value

mutual
/-- A renaming that moves nothing changes no value. -/
theorem rename_refl (v : Value) : rename (Equiv.refl Identity) v = v := by
  match v with
  | .array id slots =>
    rw [rename_array, Equiv.refl_apply, rename_refl_slots slots]
  | .object id entries =>
    rw [rename_object, Equiv.refl_apply, rename_refl_entries entries]
  | .undefined => rfl
  | .null => rfl
  | .bool _ => rfl
  | .number _ => rfl
  | .string _ => rfl
  | .function _ => rfl

/-- A renaming that moves nothing changes no slots. -/
theorem rename_refl_slots (slots : List (Option Value)) :
    rename (Equiv.refl Identity) slots = slots := by
  match slots with
  | [] => rfl
  | none :: rest => exact congrArg (none :: ·) (rename_refl_slots rest)
  | some v :: rest => rw [rename_cons, rename_some, rename_refl v, rename_refl_slots rest]

/-- A renaming that moves nothing changes no entries. -/
theorem rename_refl_entries (entries : List (String × Value)) :
    rename (Equiv.refl Identity) entries = entries := by
  match entries with
  | [] => rfl
  | (key, v) :: rest =>
    rw [rename_cons, rename_pair, rename_string, rename_refl v, rename_refl_entries rest]
end

end Value

/-! ## Operands in scopes that agree -/

/-- Whatever the scope holds was made before. -/
structure Scope.AllMade (made : Nat) (s : Scope) : Prop where
  context : MadeBefore s.run made s.context
  temps : ∀ i, MadeBefore s.run made (s.temps.getD i .undefined)

section Agrees

variable {π : Renaming} {s s' : Scope} {m m' : Nat} {U : Nat → Prop}

/-- What was made before is before everything later. -/
theorem Scope.AllMade.mono (h : s.AllMade m) (le : m ≤ m') : s.AllMade m' :=
  ⟨h.context.mono le, fun i => (h.temps i).mono le⟩

/-- A renaming that keeps what a scope holds makes it itself, as far as scopes agree with it. -/
theorem Scope.AllMade.renames (h : s.AllMade m) (hπ : π.MovesFrom s.run m) (hs : s.Agrees U s') :
    s.Renames π U s' where
  context := by rw [hs.context, h.context π hπ]
  run := hs.run
  temps i hi := by rw [hs.temps i hi, h.temps i π hπ]

namespace Operand

/-- **An operand looks at its own temporaries only.** -/
theorem eval_eq_of_agrees {o : Operand} (hs : s.Agrees (· ∈ o.temps) s') (n : Nat) :
    o.eval s' n = o.eval s n := by
  have hrenames : s.Renames (Equiv.refl Identity) (· ∈ o.temps) s' :=
    ⟨by rw [hs.context, Value.rename_refl], hs.run,
      fun i hi => by rw [hs.temps i hi, Value.rename_refl]⟩
  have heval := o.eval_rename n hrenames (d := 0) fun i _ _ => rfl
  rwa [Value.rename_refl] at heval

/-- What an operand makes is all it adds to what was made before. -/
theorem madeBefore_eval (h : s.AllMade m) (o : Operand) :
    MadeBefore s.run (o.eval s m).2 (o.eval s m).1 := by
  intro π hπ
  have hrenames := h.renames (hπ.mono (le_eval s o m)) (.refl (· ∈ o.temps) s)
  have heval := o.eval_rename m hrenames (hπ.shifts m)
  exact (congrArg Prod.fst heval).symm

/-- **An operand that is evaluated later** gives the same value but for the identities of what it
makes, where nothing was put into its temporaries in between. -/
theorem eval_later (h : s.AllMade m) {o : Operand} (hs : s.Agrees (· ∈ o.temps) s')
    (le : m ≤ m') :
    ∃ π : Renaming, π.MovesFrom s.run m ∧ (o.eval s' m').1 = rename π (o.eval s m).1 := by
  obtain ⟨d, rfl⟩ := Nat.exists_eq_add_of_le le
  obtain ⟨π, hπ, hshift⟩ := Renaming.exists_shifts s.run m (o.eval s m).2 d
  exact ⟨π, hπ, congrArg Prod.fst (o.eval_rename m (h.renames hπ hs) hshift)⟩

/-- Operands from left to right take back no identity. -/
theorem le_evalAll (s : Scope) (os : List Operand) (n : Nat) : n ≤ (evalAll s os n).2 := by
  induction os generalizing n with
  | nil => exact le_refl n
  | cons o rest ih => exact le_trans (le_eval s o n) (ih _)

/-- What operands from left to right make is all they add to what was made before. -/
theorem madeBefore_evalAll (h : s.AllMade m) (os : List Operand) :
    MadeBefore s.run (evalAll s os m).2 (evalAll s os m).1 := by
  induction os generalizing m with
  | nil => exact fun π hπ => rfl
  | cons o rest ih =>
    have ho := (madeBefore_eval h o).mono (le_evalAll s rest _)
    have hrest := ih (h.mono (le_eval s o m))
    intro π hπ
    show rename π (_ :: _) = _ :: _
    rw [rename_cons, ho π hπ, hrest π hπ]

end Operand

end Agrees

/-! ## Counts and values of evaluations -/

section Evaluated

variable {s : Scope} {o : Operand} {os : List Operand} {key : Key} {v : Value} {vs : List Value}
variable {name : String} {n n' : Nat}

/-- The count does not go back over an operand. -/
theorem Operand.le_of_eval (h : o.eval s n = (v, n')) : n ≤ n' := by
  have hle := o.le_eval s n
  rwa [h] at hle

/-- The count does not go back over operands. -/
theorem Operand.le_of_evalAll (h : evalAll s os n = (vs, n')) : n ≤ n' := by
  have hle := le_evalAll s os n
  rwa [h] at hle

/-- The count does not go back over a key. -/
theorem Key.le_of_eval (h : key.eval s n = (name, n')) : n ≤ n' := by
  cases key with
  | named text => exact (congrArg Prod.snd h).le
  | computed o =>
    have hcount : (o.eval s n).2 = n' := congrArg Prod.snd h
    exact hcount ▸ o.le_eval s n

/-- What an operand evaluates to was made before whatever comes after it. -/
theorem Operand.madeBefore_of_eval (hs : s.AllMade n) (h : o.eval s n = (v, n')) :
    MadeBefore s.run n' v := by
  have hv := madeBefore_eval hs o
  rwa [h] at hv

/-- What operands evaluate to was made before whatever comes after them. -/
theorem Operand.madeBefore_of_evalAll (hs : s.AllMade n) (h : evalAll s os n = (vs, n')) :
    MadeBefore s.run n' vs := by
  have hvs := madeBefore_evalAll hs os
  rwa [h] at hvs

end Evaluated

end ExprSandbox
