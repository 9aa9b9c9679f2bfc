import ExprSandbox.Proofs.Compilation
import ExprSandbox.Proofs.Occurrences

/-!
# Well-formed routines

The temporaries of a routine are numbered without gaps, each of them is put a value into
somewhere, and none is read before a statement that puts a value into it, in the order of the
program text (`Routine.ofProgram_wellFormed`).

The code of an expression puts values into exactly the temporaries that it takes
(`Tidy.assigns`), which make an interval, although they are not taken in the order in which the
text comes to them: the target of `&&` and `||` is taken before those of the operands and the
target of `?:` before those of the branches, and the temporary for a base comes after those of the
key that is read behind it.
-/

namespace ExprSandbox

namespace Statement

/-! ## Targets -/

/-- The code has a statement that puts a value into the temporary, in a block or outside. -/
def Assigns (code : List Statement) (t : Nat) : Prop :=
  ∃ s ∈ listingAll code, s.target? = some t

variable {known known' : Nat → Prop} {code code' : List Statement} {s : Statement} {t : Nat}

/-- No code has no targets. -/
theorem not_assigns_nil : ¬ Assigns [] t := by
  rintro ⟨s, hs, -⟩
  cases hs

/-- The targets of code that is put together. -/
theorem assigns_append : Assigns (code ++ code') t ↔ Assigns code t ∨ Assigns code' t := by
  simp only [Assigns, listingAll_append, List.mem_append, or_and_right, exists_or]

/-- The target of a statement without blocks. -/
theorem assigns_singleton {u : Nat} (h : s.target? = some u) : Assigns [s] t ↔ t = u := by
  rw [Assigns, listingAll_singleton, listing_of_target h]
  simp [h, eq_comm]

/-- The targets of a conditional are those of its blocks. -/
theorem assigns_branch {test : Operand} {a b : List Statement} :
    Assigns [.branch test a b] t ↔ Assigns a t ∨ Assigns b t := by
  rw [Assigns, listingAll_singleton, listing]
  simp [Assigns, target?, or_and_right, exists_or]

/-! ## Order -/

/-- Each statement of the listing reads temporaries only that are known or the target of an
earlier one. -/
def Orderly (known : Nat → Prop) : List Statement → Prop
  | [] => True
  | s :: rest => (∀ t ∈ s.uses, known t) ∧ Orderly (fun t => known t ∨ s.target? = some t) rest

/-- Whatever is orderly stays so when more is known. -/
theorem Orderly.mono {ss : List Statement} (h : Orderly known ss) (hle : ∀ t, known t → known' t) :
    Orderly known' ss := by
  induction ss generalizing known known' with
  | nil => trivial
  | cons s rest ih =>
    exact ⟨fun t ht => hle t (h.1 t ht), ih h.2 fun t ht => ht.imp_left (hle t)⟩

/-- Listings one after the other. -/
theorem Orderly.append {ss ss' : List Statement} (h : Orderly known ss)
    (h' : Orderly (fun t => known t ∨ ∃ s ∈ ss, s.target? = some t) ss') :
    Orderly known (ss ++ ss') := by
  induction ss generalizing known with
  | nil =>
    refine h'.mono fun t ht => ht.resolve_right ?_
    rintro ⟨s, hs, -⟩
    cases hs
  | cons s rest ih =>
    refine ⟨h.1, ih h.2 (h'.mono fun t ht => ?_)⟩
    rcases ht with ht | ⟨u, hu, htarget⟩
    · exact .inl (.inl ht)
    · rcases List.mem_cons.mp hu with rfl | hu
      · exact .inl (.inr htarget)
      · exact .inr ⟨u, hu, htarget⟩

/-- What a statement of an orderly listing reads is known, or the target of an earlier
statement. -/
theorem Orderly.preceded {before after : List Statement}
    (h : Orderly known (before ++ s :: after)) :
    ∀ t ∈ s.uses, known t ∨ ∃ s' ∈ before, s'.target? = some t := by
  induction before generalizing known with
  | nil => exact fun t ht => .inl (h.1 t ht)
  | cons first rest ih =>
    intro t ht
    rcases ih h.2 t ht with (hknown | hfirst) | ⟨s', hs', htarget⟩
    · exact .inl hknown
    · exact .inr ⟨first, List.mem_cons_self, hfirst⟩
    · exact .inr ⟨s', List.mem_cons_of_mem _ hs', htarget⟩

/-- The code is orderly in the order of its text. -/
def Ordered (known : Nat → Prop) (code : List Statement) : Prop :=
  Orderly known (listingAll code)

/-- Code that is put together: what the first part assigns is known in the second. -/
theorem Ordered.append (h : Ordered known code)
    (h' : Ordered (fun t => known t ∨ Assigns code t) code') : Ordered known (code ++ code') := by
  rw [Ordered, listingAll_append]
  exact Orderly.append h h'

/-- A single statement without blocks. -/
theorem ordered_singleton {u : Nat} (htarget : s.target? = some u) (h : ∀ t ∈ s.uses, known t) :
    Ordered known [s] := by
  rw [Ordered, listingAll_singleton, listing_of_target htarget]
  exact ⟨h, trivial⟩

/-- A conditional: the text of its second block comes after that of the first. -/
theorem ordered_branch {test : Operand} {a b : List Statement} (htest : ∀ t ∈ test.temps, known t)
    (ha : Ordered known a) (hb : Ordered (fun t => known t ∨ Assigns a t) b) :
    Ordered known [.branch test a b] := by
  rw [Ordered, listingAll_singleton, listing]
  refine ⟨?_, ?_⟩
  · rwa [uses_branch]
  · refine Orderly.append (ha.mono fun t ht => .inl ht) (hb.mono fun t ht => ?_)
    exact ht.imp_left .inl

end Statement

/-! ## Lowered code -/

namespace Lowered

open Statement

/-- Temporaries from `i` on and before `k`. -/
def between (i k t : Nat) : Prop := i ≤ t ∧ t < k

/-- The code takes the temporaries from `j` on, and puts values into exactly these.  It may read
what is `known` before it, and its own temporaries once it has put values into them; and so may
whoever reads the temporaries `uses` of what it leaves. -/
structure Tidy {α : Type} (uses : α → List Nat) (known : Nat → Prop) (j : Nat) (l : Lowered α) :
    Prop where
  le : j ≤ l.next
  assigns : ∀ t, Assigns l.code t ↔ between j l.next t
  ordered : Ordered known l.code
  value : ∀ t ∈ uses l.value, known t ∨ between j l.next t

section Tidy

variable {α β γ : Type} {u : α → List Nat} {v : β → List Nat} {w : γ → List Nat}
variable {known known' : Nat → Prop} {j n : Nat} {l : Lowered α} {l' : Lowered β}

/-- What needs no code. -/
theorem tidy_pure {a : α} (ha : ∀ t ∈ u a, known t) (next : Nat) :
    (pure a next).Tidy u known next where
  le := le_refl next
  assigns _ := ⟨fun h => absurd h not_assigns_nil, fun h => absurd h.2 (Nat.not_lt_of_le h.1)⟩
  ordered := trivial
  value t ht := .inl (ha t ht)

/-- Something else may be made of the value, with the same temporaries or fewer. -/
theorem Tidy.map (h : l.Tidy u known j) {b : β} (hb : ∀ t ∈ v b, t ∈ u l.value) :
    (⟨l.code, b, l.next⟩ : Lowered β).Tidy v known j :=
  ⟨h.le, h.assigns, h.ordered, fun t ht => h.value t (hb t ht)⟩

/-- **Code in sequence**: what the first part puts values into is known in the second. -/
theorem Tidy.seq (h : l.Tidy u known j)
    (h' : l'.Tidy v (fun t => known t ∨ between j l.next t) l.next) {c : γ}
    (hc : ∀ t ∈ w c, t ∈ u l.value ∨ t ∈ v l'.value) :
    (⟨l.code ++ l'.code, c, l'.next⟩ : Lowered γ).Tidy w known j where
  le := le_trans h.le h'.le
  assigns t := by
    have hle := h.le
    have hle' := h'.le
    simp only [assigns_append, h.assigns, h'.assigns, between]
    omega
  ordered := h.ordered.append (h'.ordered.mono fun t ht => ht.imp_right (h.assigns t).mpr)
  value t ht := by
    have hle := h.le
    have hle' := h'.le
    rcases hc t ht with ht | ht
    · exact (h.value t ht).imp_right fun hb => ⟨hb.1, lt_of_lt_of_le hb.2 hle'⟩
    · rcases h'.value t ht with (hknown | hb) | hb
      · exact .inl hknown
      · exact .inr ⟨hb.1, lt_of_lt_of_le hb.2 hle'⟩
      · exact .inr ⟨le_trans hle hb.1, hb.2⟩

/-- **A temporary is taken** for what a statement gives. -/
theorem Tidy.emit (h : l.Tidy u known j) {s : Statement} (htarget : s.target? = some l.next)
    (huses : ∀ t ∈ s.uses, known t ∨ between j l.next t) :
    (emit l.code l.next s).Tidy Operand.temps known j where
  le := Nat.le_succ_of_le h.le
  assigns t := by
    have hle := h.le
    simp only [Lowered.emit, assigns_append, assigns_singleton htarget, h.assigns, between]
    omega
  ordered := h.ordered.append (ordered_singleton htarget fun t ht =>
    (huses t ht).imp_right (h.assigns t).mpr)
  value t ht := by
    obtain rfl := List.mem_singleton.mp ht
    exact .inr ⟨h.le, Nat.lt_succ_self _⟩

/-- A temporary is taken for what a single statement gives. -/
theorem tidy_emit {s : Statement} {next : Nat} (htarget : s.target? = some next)
    (huses : ∀ t ∈ s.uses, known t) : (Lowered.emit [] next s).Tidy Operand.temps known next :=
  Tidy.emit (l := pure () next) (u := fun _ => []) (tidy_pure (fun _ ht => nomatch ht) next) htarget
    fun t ht => .inl (huses t ht)

/-! ## Members -/

variable {base : Operand}

/-- A copyable operand takes a temporary if it has to. -/
theorem tidy_materialize (hbase : ∀ t ∈ base.temps, known t) (next : Nat) :
    (materialize base next).Tidy Operand.temps known next := by
  have hpure := tidy_pure (u := Operand.temps) hbase next
  have hassign : (Lowered.emit [] next (.assign next base)).Tidy Operand.temps known next := by
    refine tidy_emit rfl fun t ht => hbase t ?_
    rwa [uses_assign] at ht
  cases base with
  | literal value => exact hpure
  | temp index => exact hpure
  | context => exact hpure
  | _ => exact hassign

/-- A read under a computed key.  The text of the base comes before that of the key, whose
temporaries are taken first. -/
theorem tidy_readComputed {key : Lowered Operand} (hbase : ∀ t ∈ base.temps, known t)
    (hkey : key.Tidy Operand.temps known j) :
    (readComputed base key).Tidy Operand.temps known j := by
  unfold readComputed
  split
  · next hempty =>
    rw [← List.isEmpty_iff.mp hempty]
    refine hkey.emit rfl fun t ht => ?_
    rw [uses_readMember_computed, List.mem_append] at ht
    exact ht.elim (fun ht => .inl (hbase t ht)) (hkey.value t)
  · have hb := tidy_materialize hbase key.next
    generalize materialize base key.next = b at hb
    have hkle := hkey.le
    have hble := hb.le
    have htarget : ∀ t, Assigns [.readMember b.next b.value (.computed key.value)] t ↔ t = b.next :=
      fun t => assigns_singleton rfl
    have hguard : ∀ t ∈ (present b.value).temps, known t ∨ Assigns b.code t := by
      intro t ht
      rw [present, Operand.temps, Operand.temps, List.append_nil] at ht
      exact (hb.value t ht).imp_right (hb.assigns t).mpr
    -- the key is in the block, so the text of the base is before it
    have hcode : Ordered (fun t => known t ∨ Assigns b.code t) key.code :=
      hkey.ordered.mono fun t ht => .inl ht
    have hread : Ordered (fun t => (known t ∨ Assigns b.code t) ∨ Assigns key.code t)
        [.readMember b.next b.value (.computed key.value)] := by
      refine ordered_singleton rfl fun t ht => ?_
      rw [uses_readMember_computed, List.mem_append] at ht
      rcases ht with ht | ht
      · exact .inl ((hb.value t ht).imp_right (hb.assigns t).mpr)
      · exact (hkey.value t ht).imp .inl (hkey.assigns t).mpr
    exact {
      le := Nat.le_succ_of_le (le_trans hkle hble)
      assigns := fun t => by
        simp only [Lowered.emit, assigns_append, assigns_branch, hb.assigns, hkey.assigns, htarget,
          not_assigns_nil, or_false, between]
        omega
      ordered := hb.ordered.append (ordered_branch hguard (hcode.append hread) trivial)
      value := fun t ht => by
        obtain rfl := List.mem_singleton.mp ht
        exact .inr ⟨le_trans hkle hble, Nat.lt_succ_self _⟩ }

/-- A read of a member. -/
theorem tidy_readMember (name? : Option String) {key : Nat → Lowered Operand} {next : Nat}
    (hbase : ∀ t ∈ base.temps, known t) (hkey : (key next).Tidy Operand.temps known next) :
    (readMember base name? key next).Tidy Operand.temps known next := by
  cases name? with
  | some name =>
    refine tidy_emit rfl fun t ht => hbase t ?_
    rwa [uses_readMember_named] at ht
  | none => exact tidy_readComputed hbase hkey

/-! ## Blocks -/

/-- A block puts the value of an expression into a temporary that was taken before. -/
theorem assigns_block {e : Lowered Operand} {target t : Nat} (he : e.Tidy Operand.temps known j) :
    Assigns (block target e) t ↔ between j e.next t ∨ t = target := by
  rw [block, assigns_append, he.assigns, assigns_singleton rfl]

/-- The text of a block is in order. -/
theorem ordered_block {e : Lowered Operand} (he : e.Tidy Operand.temps known j) (target : Nat) :
    Ordered known (block target e) := by
  refine he.ordered.append (ordered_singleton rfl fun t ht => ?_)
  rw [uses_assign] at ht
  exact (he.value t ht).imp_right (he.assigns t).mpr

/-- **A block after a block**, which is run for its test only.  Their target is taken before the
temporaries of both. -/
theorem tidy_guarded {first second : Lowered Operand} {test : Operand} {target : Nat}
    (hfirst : first.Tidy Operand.temps known (target + 1))
    (hsecond : second.Tidy Operand.temps (fun t => known t ∨ Assigns (block target first) t)
      first.next)
    (htest : ∀ t ∈ test.temps, t = target) :
    (⟨block target first ++ [.branch test (block target second) []], .temp target,
      second.next⟩ : Lowered Operand).Tidy Operand.temps known target := by
  have hle := hfirst.le
  have hle' := hsecond.le
  have hguard : ∀ t ∈ test.temps, known t ∨ Assigns (block target first) t := fun t ht =>
    .inr ((assigns_block hfirst).mpr (.inr (htest t ht)))
  have hassigns : ∀ t, Assigns (block target first ++ [.branch test (block target second) []]) t ↔
      between target second.next t := by
    intro t
    simp only [assigns_append, assigns_branch, assigns_block hfirst, assigns_block hsecond,
      not_assigns_nil, or_false, between]
    omega
  exact {
    le := by
      show target ≤ second.next
      omega
    assigns := hassigns
    ordered := (ordered_block hfirst target).append
      (ordered_branch hguard (ordered_block hsecond target) trivial)
    value := fun t ht => by
      obtain rfl := List.mem_singleton.mp ht
      exact .inr ⟨le_refl t, Nat.lt_of_lt_of_le hle hle'⟩ }

/-- **Two blocks of which one is run.**  Their target is taken after the temporaries of the test
and before those of the blocks. -/
theorem tidy_choice {test first second : Lowered Operand}
    (htest : test.Tidy Operand.temps known j)
    (hfirst : first.Tidy Operand.temps (fun t => known t ∨ Assigns test.code t) (test.next + 1))
    (hsecond : second.Tidy Operand.temps
      (fun t => (known t ∨ Assigns test.code t) ∨ Assigns (block test.next first) t) first.next) :
    (⟨test.code ++ [.branch test.value (block test.next first) (block test.next second)],
      .temp test.next, second.next⟩ : Lowered Operand).Tidy Operand.temps known j := by
  have hle := htest.le
  have hle' := hfirst.le
  have hle'' := hsecond.le
  have hguard : ∀ t ∈ test.value.temps, known t ∨ Assigns test.code t := fun t ht =>
    (htest.value t ht).imp_right (htest.assigns t).mpr
  have hassigns : ∀ t, Assigns (test.code ++
      [.branch test.value (block test.next first) (block test.next second)]) t ↔
      between j second.next t := by
    intro t
    simp only [assigns_append, assigns_branch, assigns_block hfirst, assigns_block hsecond,
      htest.assigns, between]
    omega
  exact {
    le := by
      show j ≤ second.next
      omega
    assigns := hassigns
    ordered := htest.ordered.append
      (ordered_branch hguard (ordered_block hfirst _) (ordered_block hsecond _))
    value := fun t ht => by
      obtain rfl := List.mem_singleton.mp ht
      exact .inr ⟨hle, Nat.lt_of_lt_of_le hle' hle''⟩ }

/-! ## Callees -/

/-- The temporaries of a callee and of its receiver. -/
def Target.temps (t : Target) : List Nat :=
  t.callee.temps ++ t.receiver.temps

/-- A callee whose receiver is a constant or the context. -/
theorem Tidy.callee {l : Lowered Operand} (h : l.Tidy Operand.temps known j) {receiver : Operand}
    (hreceiver : receiver.temps = []) :
    (⟨l.code, ⟨l.value, receiver⟩, l.next⟩ : Lowered Target).Tidy Target.temps known j := by
  refine h.map fun t ht => ?_
  rwa [Target.temps, hreceiver, List.append_nil] at ht

end Tidy

end Lowered

/-! ## Lowered expressions -/

namespace Expression

open Lowered Statement

/-- The lowered code of the expression is tidy, wherever its temporaries start and whatever is
known before it. -/
def LowersTidy (e : Expression) : Prop :=
  ∀ known next, (e.lower next).Tidy Operand.temps known next

/-- The lowered code of the callee is tidy. -/
def LowersCalleeTidy (e : Expression) : Prop :=
  ∀ known next, (e.lowerCallee next).Tidy Target.temps known next

section Forms

variable {e left right test consequent alternate base property : Expression}

/-- An expression that is no name and no member is called without a receiver. -/
theorem LowersTidy.callee (h : e.LowersTidy) (hidentifier : ∀ name, e ≠ .identifier name)
    (hmember : ∀ base property computed, e ≠ .member base property computed) :
    e.LowersCalleeTidy := by
  intro known next
  cases e with
  | identifier name => exact absurd rfl (hidentifier name)
  | member base property computed => exact absurd rfl (hmember base property computed)
  | _ => exact (h known next).callee rfl

/-- A name takes the temporary that its statement gives. -/
theorem identifier_tidy (name : String) :
    (identifier name).LowersTidy ∧ (identifier name).LowersCalleeTidy := by
  have hname : ∀ known next,
      (emit [] next (.readContext next name)).Tidy Operand.temps known next :=
    fun known next => tidy_emit rfl nofun
  exact ⟨hname, fun known next => (hname known next).callee rfl⟩

/-- Two operands and the operator between them. -/
theorem binary_tidy (operator : BinaryOp) (hleft : left.LowersTidy) (hright : right.LowersTidy) :
    (binary operator left right).LowersTidy := by
  intro known next
  exact (hleft known next).seq (hright _ _) fun t ht => List.mem_append.mp ht

/-- A logical operator has its right operand in a block. -/
theorem logical_tidy (operator : LogicalOp) (hleft : left.LowersTidy)
    (hright : right.LowersTidy) : (logical operator left right).LowersTidy := by
  intro known next
  refine tidy_guarded (hleft known (next + 1)) (hright _ _) fun t ht => ?_
  cases operator with
  | and => exact List.mem_singleton.mp ht
  | or => exact List.mem_singleton.mp ht

/-- A conditional has both of its branches in blocks. -/
theorem conditional_tidy (htest : test.LowersTidy) (hconsequent : consequent.LowersTidy)
    (halternate : alternate.LowersTidy) :
    (conditional test consequent alternate).LowersTidy :=
  fun known next => tidy_choice (htest known next) (hconsequent _ _) (halternate _ _)

/-- A member reads what its base has left. -/
theorem member_tidy (computed : Bool) (hbase : base.LowersTidy) (hproperty : property.LowersTidy) :
    (member base property computed).LowersTidy := by
  intro known next
  have hb := hbase known next
  exact hb.seq (tidy_readMember (property.staticName? computed) hb.value (hproperty _ _))
    fun t ht => .inr ht

/-- A method reads the base that is kept as the receiver. -/
theorem method_tidy (computed : Bool) (hbase : base.LowersTidy) (hproperty : property.LowersTidy) :
    (member base property computed).LowersCalleeTidy := by
  intro known next
  have hb := hbase known next
  have ho := hb.seq (tidy_materialize hb.value _) (w := Operand.temps) fun t ht => .inr ht
  refine ho.seq (tidy_readMember (property.staticName? computed) ho.value (hproperty _ _))
    fun t ht => ?_
  exact (List.mem_append.mp ht).symm

/-- A call takes its temporary after those of the callee and of the arguments. -/
theorem call_tidy {callee : Expression} {arguments : List Expression}
    (hcallee : callee.LowersCalleeTidy)
    (harguments : ∀ known next, (lowerArguments arguments next).Tidy Operand.allTemps known next) :
    (call callee arguments).LowersTidy := by
  intro known next
  rw [lower_call]
  have hc := hcallee known next
  let both : Target × List Operand → List Nat := fun p => p.1.temps ++ Operand.allTemps p.2
  have hboth := hc.seq (harguments _ (callee.lowerCallee next).next) (w := both)
    (c := ((callee.lowerCallee next).value, _)) fun t ht => List.mem_append.mp ht
  refine hboth.emit rfl fun t ht => hboth.value t ?_
  rwa [uses_call, ← List.append_assoc] at ht

end Forms

mutual
/-- **Lowered code is tidy**, as a value and as a callee. -/
theorem lower_tidy (e : Expression) : e.LowersTidy ∧ e.LowersCalleeTidy := by
  match e with
  | .literal value =>
    have h : (literal value).LowersTidy := fun known next => tidy_pure nofun next
    exact ⟨h, h.callee nofun nofun⟩
  | .identifier name => exact identifier_tidy name
  | .array elements =>
    have h : (array elements).LowersTidy := fun known next =>
      (lowerElements_tidy elements known next).map fun t ht => ht
    exact ⟨h, h.callee nofun nofun⟩
  | .object properties =>
    have h : (object properties).LowersTidy := fun known next =>
      (lowerProperties_tidy properties known next).map fun t ht => ht
    exact ⟨h, h.callee nofun nofun⟩
  | .unary operator argument =>
    have h : (unary operator argument).LowersTidy := fun known next =>
      ((lower_tidy argument).1 known next).map fun t ht => ht
    exact ⟨h, h.callee nofun nofun⟩
  | .binary operator left right =>
    have h := binary_tidy operator (lower_tidy left).1 (lower_tidy right).1
    exact ⟨h, h.callee nofun nofun⟩
  | .logical operator left right =>
    have h := logical_tidy operator (lower_tidy left).1 (lower_tidy right).1
    exact ⟨h, h.callee nofun nofun⟩
  | .conditional test consequent alternate =>
    have h := conditional_tidy (lower_tidy test).1 (lower_tidy consequent).1
      (lower_tidy alternate).1
    exact ⟨h, h.callee nofun nofun⟩
  | .member base property computed =>
    have hbase := (lower_tidy base).1
    have hproperty := (lower_tidy property).1
    exact ⟨member_tidy computed hbase hproperty, method_tidy computed hbase hproperty⟩
  | .call callee arguments =>
    have h := call_tidy (lower_tidy callee).2 (lowerArguments_tidy arguments)
    exact ⟨h, h.callee nofun nofun⟩

/-- The code of the elements of an array is tidy. -/
theorem lowerElements_tidy (es : List (Option Expression)) (known : Nat → Prop) (next : Nat) :
    (lowerElements es next).Tidy Operand.slotsTemps known next := by
  match es with
  | [] => exact tidy_pure nofun next
  | none :: rest => exact (lowerElements_tidy rest known next).map fun t ht => ht
  | some e :: rest =>
    exact ((lower_tidy e).1 known next).seq (lowerElements_tidy rest _ _)
      fun t ht => List.mem_append.mp ht

/-- The code of the values of an object is tidy. -/
theorem lowerProperties_tidy (ps : List (PropertyKey × Expression)) (known : Nat → Prop)
    (next : Nat) : (lowerProperties ps next).Tidy Operand.entriesTemps known next := by
  match ps with
  | [] => exact tidy_pure nofun next
  | (key, e) :: rest =>
    exact ((lower_tidy e).1 known next).seq (lowerProperties_tidy rest _ _)
      fun t ht => List.mem_append.mp ht

/-- The code of arguments is tidy. -/
theorem lowerArguments_tidy (args : List Expression) (known : Nat → Prop) (next : Nat) :
    (lowerArguments args next).Tidy Operand.allTemps known next := by
  match args with
  | [] => exact tidy_pure nofun next
  | e :: rest =>
    exact ((lower_tidy e).1 known next).seq (lowerArguments_tidy rest _ _)
      fun t ht => List.mem_append.mp ht
end

end Expression

/-! ## Routines -/

namespace Routine

/-- The code of expressions in order is tidy, and the last one gives the result. -/
theorem lowerAll_tidy (p : Program) {known : Nat → Prop} {result : Operand}
    (hresult : ∀ t ∈ result.temps, known t) (next : Nat) :
    (lowerAll result next p).Tidy Operand.temps known next := by
  induction p generalizing known result next with
  | nil => exact Lowered.tidy_pure hresult next
  | cons e rest ih =>
    have hfirst := (Expression.lower_tidy e).1 known next
    exact hfirst.seq (ih hfirst.value _) fun t ht => .inr ht

/-- The temporaries of a routine are numbered without gaps, each of them is put a value into, and
none is read before that in the order of the text. -/
structure WellFormed (r : Routine) : Prop where
  /-- The declared temporaries are numbered from zero on. -/
  declared : r.declared = List.range r.declared.length
  /-- The targets of statements are exactly the declared temporaries. -/
  target : ∀ t, Statement.Assigns r.body t ↔ t < r.declared.length
  /-- What a statement reads is declared. -/
  uses_lt : ∀ s ∈ Statement.listingAll r.body, ∀ t ∈ s.uses, t < r.declared.length
  /-- What the result reads is declared. -/
  result_lt : ∀ t ∈ r.result.temps, t < r.declared.length
  /-- What a statement reads is the target of a statement before it. -/
  preceded : ∀ before s after, Statement.listingAll r.body = before ++ s :: after →
    ∀ t ∈ s.uses, ∃ s' ∈ before, s'.target? = some t
  /-- What the result reads is the target of a statement. -/
  result_preceded : ∀ t ∈ r.result.temps, Statement.Assigns r.body t

/-- **Compiled routines are well formed.** -/
theorem ofProgram_wellFormed (p : Program) : (ofProgram p).WellFormed := by
  have h : (lowerAll (.literal .undefined) 0 p).Tidy Operand.temps (fun _ => False) 0 :=
    lowerAll_tidy p nofun 0
  have hlength : (ofProgram p).declared.length = (lowerAll (.literal .undefined) 0 p).next :=
    List.length_range
  have htarget : ∀ t,
      Statement.Assigns (ofProgram p).body t ↔ t < (ofProgram p).declared.length := by
    intro t
    rw [hlength]
    refine (h.assigns t).trans ?_
    exact ⟨And.right, fun hlt => ⟨Nat.zero_le t, hlt⟩⟩
  have hpreceded : ∀ before s after,
      Statement.listingAll (ofProgram p).body = before ++ s :: after →
      ∀ t ∈ s.uses, ∃ s' ∈ before, s'.target? = some t := by
    intro before s after hlisting t ht
    have hordered : Statement.Orderly (fun _ => False) (before ++ s :: after) :=
      hlisting ▸ h.ordered
    exact (hordered.preceded t ht).resolve_left id
  have hresult : ∀ t ∈ (ofProgram p).result.temps, Statement.Assigns (ofProgram p).body t :=
    fun t ht => (h.assigns t).mpr ((h.value t ht).resolve_left id)
  exact {
    declared := by
      rw [hlength]
      rfl
    target := htarget
    uses_lt := fun s hs t ht => by
      obtain ⟨before, after, hlisting⟩ := List.append_of_mem hs
      obtain ⟨s', hs', hs'target⟩ := hpreceded before s after hlisting t ht
      refine (htarget t).mp ⟨s', ?_, hs'target⟩
      rw [hlisting]
      exact List.mem_append_left _ hs'
    result_lt := fun t ht => (htarget t).mp (hresult t ht)
    preceded := hpreceded
    result_preceded := hresult }

end Routine

end ExprSandbox
