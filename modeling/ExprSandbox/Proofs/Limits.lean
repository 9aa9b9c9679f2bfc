import ExprSandbox.Proofs.Nesting

/-!
# Limits

What a parse with some limits says about a parse of the same tokens with other limits
(`Foretells`).  The two agree until one of them stops at a limit.  A parse that stops at its height
has made a node that is part of whatever the other one goes on to read, so it stops only where the
result is too high.

All this is shown of the heights that the readers track: every place that makes a node hands on a
height above those of all children there.  What a program is made of are trees, and only for these
do the tracked heights become those of the trees.
-/

namespace ExprSandbox.Parser

/-! ## Two runs -/

/-- A height that the second limits allow, or allow whenever the first ones do. -/
def Fits (l l' : Limits) (height : Nat) : Prop :=
  l.height ≤ l'.height ∨ height ≤ l'.height

/-- What a reading within `l` says about the same reading within `l'`, when `height` measures the
trees in what is read. -/
inductive Foretells (l l' : Limits) {α : Type} (height : α → Nat) :
    Except ParseError α → Except ParseError α → Prop
  /-- Both read the same. -/
  | ok {a : α} (fits : Fits l l' (height a)) : Foretells l l' height (.ok a) (.ok a)
  /-- Both fail alike. -/
  | error {e : ParseError} : Foretells l l' height (.error e) (.error e)
  /-- The first one stops at a limit. -/
  | stopped {n : Nat} {y : Except ParseError α} :
      Foretells l l' height (.error (.tooDeep n)) y
  /-- The second one stops at its height, and what the first one reads is higher. -/
  | high {x : Except ParseError α} (lower : l'.height < l.height)
      (high : Ensures (fun a => l'.height < height a) x) :
      Foretells l l' height x (.error (.tooDeep l'.height))

section Foretells

variable {l l' : Limits} {α β : Type} {size : α → Nat} {size' : β → Nat}

/-- Two heights fit when the greater one does. -/
theorem Fits.max {m n : Nat} (hm : Fits l l' m) (hn : Fits l l' n) : Fits l l' (max m n) := by
  rcases hm with hm | hm
  · exact .inl hm
  · exact hn.imp_right fun hn => Nat.max_le.mpr ⟨hm, hn⟩

/-- What holds no tree fits. -/
theorem fits_zero : Fits l l' 0 := .inr (Nat.zero_le _)

/-- A reading that goes on from another one, and whose trees are part of what it reads. -/
theorem Foretells.bind {x y : Except ParseError α} {k k' : α → Except ParseError β}
    (h : Foretells l l' size x y)
    (hpart : ∀ a, x = .ok a → Ensures (fun b => size a ≤ size' b) (k a))
    (hk : ∀ a, x = .ok a → Fits l l' (size a) → Foretells l l' size' (k a) (k' a)) :
    Foretells l l' size' (x >>= k) (y >>= k') := by
  cases h with
  | @ok a fits => exact hk a rfl fits
  | error => exact .error
  | stopped => exact .stopped
  | high lower high =>
    refine .high lower (ensures_bind fun a ha b hb => ?_)
    exact Nat.lt_of_lt_of_le (high a ha) (hpart a ha b hb)

/-- A reading of which the trees are kept. -/
theorem Foretells.map {x y : Except ParseError α} {f : α → β} (h : Foretells l l' size x y)
    (hf : ∀ a, size' (f a) = size a) :
    Foretells l l' size' (x >>= fun a => .ok (f a)) (y >>= fun a => .ok (f a)) :=
  h.bind (fun a _ => ensures_ok (Nat.le_of_eq (hf a).symm)) fun a _ fits => .ok (hf a ▸ fits)

/-- A reading of what stands beside a part that fits. -/
theorem Foretells.beside {x y : Except ParseError α} {f : α → β} {n : Nat}
    (h : Foretells l l' size x y) (hn : Fits l l' n) (hf : ∀ a, size' (f a) = max n (size a)) :
    Foretells l l' size' (x >>= fun a => .ok (f a)) (y >>= fun a => .ok (f a)) := by
  refine h.bind (fun a _ => ensures_ok ?_) fun a _ fits => .ok ?_
  · rw [hf]
    exact Nat.le_max_right _ _
  · rw [hf]
    exact hn.max fits

/-- A reading that goes on from one in which no tree is made. -/
theorem foretells_behind {x : Except ParseError α} {k k' : α → Except ParseError β}
    (hk : ∀ a, x = .ok a → Foretells l l' size' (k a) (k' a)) :
    Foretells l l' size' (x >>= k) (x >>= k') := by
  cases x with
  | error e => exact .error
  | ok a => exact hk a rfl

/-- A reading that depends on a test. -/
theorem foretells_ite {c : Prop} [Decidable c] {x x' y y' : Except ParseError α}
    (hx : Foretells l l' size x x') (hy : Foretells l l' size y y') :
    Foretells l l' size (if c then x else y) (if c then x' else y') := by
  split
  · exact hx
  · exact hy

variable {tree : Expression} {children : Nat} {htree : children + 1 = tree.height}

/-- What holds a node holds the children below it. -/
theorem ensures_node {n : Nat} {k : Node → Except ParseError β} (hpart : n ≤ children)
    (hk : ∀ e, Ensures (fun b => e.height ≤ size' b) (k e)) :
    Ensures (fun b => n ≤ size' b) (node l tree children htree >>= k) := by
  refine ensures_bind fun e he b hb => ?_
  obtain ⟨-, hheight, -⟩ := node_eq_ok he
  have hwhole : e.height ≤ size' b := hk e b hb
  omega

/-- What is read is as high when it is seen from a longer list of tokens. -/
theorem ensures_weaken {height m n : Nat} {hle : m ≤ n} {x : Except ParseError (Parsed Node m)}
    (h : Ensures (fun p => height ≤ p.value.height) x) :
    Ensures (fun p => height ≤ p.value.height) (x >>= fun p => .ok (p.weaken hle)) :=
  ensures_bind fun p hp => ensures_ok (h p hp)

/-- A node is checked against both heights. -/
theorem foretells_node : Foretells l l' Measured.height (node l tree children htree)
    (node l' tree children htree) := by
  unfold node
  split
  · exact .stopped
  · next hle =>
    split
    · next hlt => exact .high (by omega) (ensures_ok hlt)
    · next hle' => exact .ok (.inr (Nat.le_of_not_lt hle'))

end Foretells

/-! ## Readers -/

/-- A reader within `l` foretells one within `l'`, by the heights that they track. -/
def ReaderForetells (l l' : Limits) {α : Type} {measure : α → Nat}
    (read read' : Reader (Measured measure)) : Prop :=
  ∀ ts, Foretells l l' (fun p => p.value.height) (read ts) (read' ts)

section Readers

variable {l l' : Limits} {level : List Connective}
variable {operand operand' inner inner' : Reader Node}

/-- A chain holds the operand that it starts with. -/
theorem height_le_chainRest (left : Node) (ts : List Token) :
    Ensures (fun p => left.height ≤ p.value.height) (chainRest l level operand left ts) := by
  fun_induction chainRest l level operand left ts with
  | case1 left => exact ensures_ok (Nat.le_refl _)
  | case2 left t rest hnone => exact ensures_ok (Nat.le_refl _)
  | case3 left t rest c hc ih =>
    exact ensures_bind fun right _ => ensures_node (Nat.le_max_left _ _) fun e =>
      ensures_weaken (ih right e)

/-- What follows an operand in a chain is foretold. -/
theorem foretells_chainRest (h : ReaderForetells l l' operand operand') {left : Node}
    (hleft : Fits l l' left.height) (ts : List Token) :
    Foretells l l' (fun p => p.value.height) (chainRest l level operand left ts)
      (chainRest l' level operand' left ts) := by
  fun_induction chainRest l level operand left ts with rw [chainRest]
  | case1 left => exact .ok hleft
  | case2 left t rest hnone =>
    rw [hnone]
    exact .ok hleft
  | case3 left t rest c hc ih =>
    rw [hc]
    refine (h rest).bind (fun right _ => ?_) fun right _ _ => ?_
    · exact ensures_node (Nat.le_max_right _ _) fun e =>
        ensures_weaken (height_le_chainRest e right.rest)
    · exact foretells_node.bind (fun e _ => ensures_weaken (height_le_chainRest e right.rest))
        fun e _ hfits => (ih right e hfits).map fun _ => rfl

/-- A chain is foretold. -/
theorem foretells_chain (h : ReaderForetells l l' operand operand') :
    ReaderForetells l l' (chain l level operand) (chain l' level operand') := by
  intro ts
  refine (h ts).bind (fun left _ => ?_) fun left _ hfits => ?_
  · exact ensures_weaken (height_le_chainRest left.value left.rest)
  · exact (foretells_chainRest h hfits left.rest).map fun _ => rfl

/-! ## Insides of brackets -/

/-- The elements of an array are foretold. -/
theorem foretells_elements (h : ReaderForetells l l' inner inner') :
    ReaderForetells l l' (elements inner) (elements inner') := by
  intro ts
  fun_induction elements inner ts with rw [elements]
  | case1 =>
    refine (h []).bind (fun e _ => ?_) fun e _ _ => ?_
    · exact absurd e.rest_lt (Nat.not_lt_zero _)
    · exact absurd e.rest_lt (Nat.not_lt_zero _)
  | case2 t tail hclose =>
    rw [if_pos hclose]
    exact .ok fits_zero
  | case3 t tail hclose hcomma ih =>
    rw [if_neg hclose, if_pos hcomma]
    exact ih.map fun _ => rfl
  | case4 t tail hclose hcomma ih =>
    rw [if_neg hclose, if_neg hcomma]
    refine (h _).bind (fun e _ => ?_) fun e _ hfits => ?_
    · split
      · exact ensures_error
      · refine ensures_ite (ensures_ok (Nat.le_max_left _ _)) (ensures_ite ?_ ensures_error)
        exact ensures_bind fun more _ => ensures_ok (Nat.le_max_left _ _)
    · split
      · exact .error
      · next s mid hrest =>
        refine foretells_ite (.ok (hfits.max fits_zero)) (foretells_ite ?_ .error)
        exact (ih e s mid hrest).beside hfits fun _ => rfl

/-- The values of an object are foretold. -/
theorem foretells_properties (h : ReaderForetells l l' inner inner') :
    ReaderForetells l l' (properties inner) (properties inner') := by
  intro ts
  fun_induction properties inner ts with rw [properties]
  | case1 => exact .error
  | case2 t tail hclose =>
    rw [if_pos hclose]
    exact .ok fits_zero
  | case3 t tail hclose ih =>
    rw [if_neg hclose]
    refine foretells_behind fun key _ => ?_
    refine foretells_behind fun colon _ => ?_
    refine (h _).bind (fun e _ => ?_) fun e _ hfits => ?_
    · split
      · exact ensures_error
      · refine ensures_ite (ensures_ok (Nat.le_max_left _ _)) (ensures_ite ?_ ensures_error)
        exact ensures_bind fun more _ => ensures_ok (Nat.le_max_left _ _)
    · split
      · exact .error
      · next s mid hrest =>
        refine foretells_ite (.ok (hfits.max fits_zero)) (foretells_ite ?_ .error)
        exact (ih key colon e s mid hrest).beside hfits fun _ => rfl

/-- One or more arguments are foretold. -/
theorem foretells_argumentList (h : ReaderForetells l l' inner inner') :
    ReaderForetells l l' (argumentList inner) (argumentList inner') := by
  intro ts
  fun_induction argumentList inner ts with rw [argumentList]
  | case1 ts ih =>
    refine (h _).bind (fun e _ => ?_) fun e _ hfits => ?_
    · split
      · exact ensures_error
      · refine ensures_ite ?_ (ensures_ite (ensures_ok (Nat.le_max_left _ _)) ensures_error)
        exact ensures_bind fun more _ => ensures_ok (Nat.le_max_left _ _)
    · split
      · exact .error
      · next s mid hrest =>
        refine foretells_ite ?_ (foretells_ite (.ok (hfits.max fits_zero)) .error)
        exact (ih e s mid hrest).beside hfits fun _ => rfl

/-- The arguments of a call are foretold. -/
theorem foretells_arguments (h : ReaderForetells l l' inner inner') :
    ReaderForetells l l' (arguments inner) (arguments inner') := by
  intro ts
  cases ts with
  | nil => exact foretells_argumentList h []
  | cons t rest => exact foretells_ite (.ok fits_zero) (foretells_argumentList h (t :: rest))

/-! ## Operands -/

/-- An operand that starts with no operator is foretold. -/
theorem foretells_primary (hone : Fits l l' 1) (h : ReaderForetells l l' inner inner') :
    ReaderForetells l l' (primary l inner) (primary l' inner') := by
  intro ts
  cases ts with
  | nil => exact .error
  | cons t rest =>
    refine foretells_ite ?_ (foretells_ite ?_ (foretells_ite ?_ ?_))
    · refine (h rest).bind (fun e _ => ?_) fun e _ hfits => ?_
      · exact ensures_bind fun close _ => ensures_ok (Nat.le_refl _)
      · exact foretells_behind fun close _ => .ok hfits
    · refine (foretells_elements h rest).bind (fun es _ => ?_) fun es _ _ => ?_
      · exact ensures_node (Nat.le_refl _) fun e => ensures_ok (Nat.le_refl _)
      · exact foretells_node.map fun _ => rfl
    · refine (foretells_properties h rest).bind (fun ps _ => ?_) fun ps _ _ => ?_
      · exact ensures_node (Nat.le_refl _) fun e => ensures_ok (Nat.le_refl _)
      · exact foretells_node.map fun _ => rfl
    · split
      · exact .ok hone
      · exact .ok hone
      · exact .error

/-- Members and calls hold the operand that they start with. -/
theorem height_le_postfixRest (base : Node) (ts : List Token) :
    Ensures (fun p => base.height ≤ p.value.height) (postfixRest l inner base ts) := by
  fun_induction postfixRest l inner base ts with
  | case1 base => exact ensures_ok (Nat.le_refl _)
  | case2 base t tail hdot ih =>
    exact ensures_bind fun name _ => ensures_node (Nat.le_refl _) fun e =>
      ensures_weaken (ih name e)
  | case3 base t tail hdot hopen ih =>
    exact ensures_bind fun key _ => ensures_bind fun close _ =>
      ensures_node (Nat.le_max_left _ _) fun e => ensures_weaken (ih key close e)
  | case4 base t tail hdot hopen hcall ih =>
    exact ensures_bind fun args _ => ensures_node (Nat.le_max_left _ _) fun e =>
      ensures_weaken (ih args e)
  | case5 base t tail hdot hopen hcall => exact ensures_ok (Nat.le_refl _)

/-- Members and calls after an operand are foretold. -/
theorem foretells_postfixRest (h : ReaderForetells l l' inner inner') {base : Node}
    (hbase : Fits l l' base.height) (ts : List Token) :
    Foretells l l' (fun p => p.value.height) (postfixRest l inner base ts)
      (postfixRest l' inner' base ts) := by
  fun_induction postfixRest l inner base ts with rw [postfixRest]
  | case1 base => exact .ok hbase
  | case2 base t tail hdot ih =>
    rw [if_pos hdot]
    refine foretells_behind fun name _ => foretells_node.bind (fun e _ => ?_) fun e _ hfits => ?_
    · exact ensures_weaken (height_le_postfixRest e name.rest)
    · exact (ih name e hfits).map fun _ => rfl
  | case3 base t tail hdot hopen ih =>
    rw [if_neg hdot, if_pos hopen]
    refine (h tail).bind (fun key _ => ?_) fun key _ _ => ?_
    · exact ensures_bind fun close _ => ensures_node (Nat.le_max_right _ _) fun e =>
        ensures_weaken (height_le_postfixRest e close.rest)
    refine foretells_behind fun close _ => foretells_node.bind (fun e _ => ?_) fun e _ hfits => ?_
    · exact ensures_weaken (height_le_postfixRest e close.rest)
    · exact (ih key close e hfits).map fun _ => rfl
  | case4 base t tail hdot hopen hcall ih =>
    rw [if_neg hdot, if_neg hopen, if_pos hcall]
    refine (foretells_arguments h tail).bind (fun args _ => ?_) fun args _ _ => ?_
    · exact ensures_node (Nat.le_max_right _ _) fun e =>
        ensures_weaken (height_le_postfixRest e args.rest)
    refine foretells_node.bind (fun e _ => ?_) fun e _ hfits => ?_
    · exact ensures_weaken (height_le_postfixRest e args.rest)
    · exact (ih args e hfits).map fun _ => rfl
  | case5 base t tail hdot hopen hcall =>
    rw [if_neg hdot, if_neg hopen, if_neg hcall]
    exact .ok hbase

/-- An operand with its members and calls is foretold. -/
theorem foretells_postfixed (hone : Fits l l' 1) (h : ReaderForetells l l' inner inner') :
    ReaderForetells l l' (postfixed l inner) (postfixed l' inner') := by
  intro ts
  refine (foretells_primary hone h ts).bind (fun base _ => ?_) fun base _ hfits => ?_
  · exact ensures_weaken (height_le_postfixRest base.value base.rest)
  · exact (foretells_postfixRest h hfits base.rest).map fun _ => rfl

/-- A unary operator with its operand is foretold. -/
theorem foretells_unary (hone : Fits l l' 1) (hoperand : ReaderForetells l l' operand operand')
    (hinner : ReaderForetells l l' inner inner') :
    ReaderForetells l l' (unary l operand inner) (unary l' operand' inner') := by
  intro ts
  cases ts with
  | nil => exact foretells_postfixed hone hinner []
  | cons t rest =>
    rw [unary, unary]
    split
    · exact foretells_postfixed hone hinner (t :: rest)
    · refine (hoperand rest).bind (fun argument _ => ?_) fun argument _ _ => ?_
      · exact ensures_node (Nat.le_refl _) fun e => ensures_ok (Nat.le_refl _)
      · exact foretells_node.map fun _ => rfl

/-! ## Expressions -/

/-- An expression is foretold. -/
theorem foretells_conditional (hone : Fits l l' 1)
    (hoperand : ReaderForetells l l' operand operand')
    (hinner : ReaderForetells l l' inner inner') :
    ReaderForetells l l' (conditional l operand inner) (conditional l' operand' inner') := by
  have hlevels : ∀ levels : List (List Connective), ReaderForetells l l'
      (levels.foldr (chain l) (unary l operand inner))
      (levels.foldr (chain l') (unary l' operand' inner')) := by
    intro levels
    induction levels with
    | nil => exact foretells_unary hone hoperand hinner
    | cons level levels ih => exact foretells_chain ih
  intro ts
  refine (hlevels Connective.levels ts).bind (fun test _ => ?_) fun test _ hfits => ?_
  · split
    · exact ensures_ok (Nat.le_refl _)
    · refine ensures_ite ?_ (ensures_ok (Nat.le_refl _))
      refine ensures_bind fun consequent _ => ensures_bind fun colon _ =>
        ensures_bind fun alternate _ => ensures_node ?_ fun e => ensures_ok (Nat.le_refl _)
      omega
  · split
    · exact .ok hfits
    · refine foretells_ite ?_ (.ok hfits)
      refine (hinner _).bind (fun consequent _ => ?_) fun consequent _ _ => ?_
      · refine ensures_bind fun colon _ => ensures_bind fun alternate _ =>
          ensures_node ?_ fun e => ensures_ok (Nat.le_refl _)
        omega
      refine foretells_behind fun colon _ => ?_
      refine (hinner _).bind (fun alternate _ => ?_) fun alternate _ _ => ?_
      · exact ensures_node (Nat.le_max_right _ _) fun e => ensures_ok (Nat.le_refl _)
      · exact foretells_node.map fun _ => rfl

/-- What may go deeper is foretold by what may not. -/
theorem foretells_nested (hone : Fits l l' 1) {depth depth' : Nat} (h : depth ≤ depth')
    (kind : Nested) : ReaderForetells l l' (nested l depth kind) (nested l' depth' kind) := by
  induction depth generalizing depth' kind with
  | zero => exact fun ts => .stopped
  | succ depth ih =>
    cases depth' with
    | zero => cases h
    | succ depth' =>
      have hle : depth ≤ depth' := Nat.le_of_succ_le_succ h
      cases kind with
      | expression => exact foretells_conditional hone (ih hle .operand) (ih hle .expression)
      | operand => exact foretells_unary hone (ih hle .operand) (ih hle .expression)

/-! ## Programs -/

/-- An expression of a program is foretold, with those that follow it.  Here the heights that were
tracked become those of the trees. -/
theorem foretells_expression (hone : Fits l l' 1) (hdepth : l.depth ≤ l'.depth) {ts : List Token}
    (hmore : ∀ e : Parsed Node ts.length, Foretells l l' Expression.argumentsHeight
      (programRest l e.rest) (programRest l' e.rest)) :
    Foretells l l' Expression.argumentsHeight
      (expression l ts >>= fun e => programRest l e.rest >>= fun more =>
        .ok (e.value.tree :: more))
      (expression l' ts >>= fun e => programRest l' e.rest >>= fun more =>
        .ok (e.value.tree :: more)) := by
  refine (foretells_nested hone hdepth .expression ts).bind (fun e _ => ?_) fun e _ hfits => ?_
  · rw [e.value.height_eq]
    exact ensures_bind fun more _ => ensures_ok (Nat.le_max_left _ _)
  · rw [e.value.height_eq] at hfits
    exact (hmore e).beside hfits fun _ => rfl

/-- What follows an expression of a program is foretold. -/
theorem foretells_programRest (hone : Fits l l' 1) (hdepth : l.depth ≤ l'.depth)
    (ts : List Token) :
    Foretells l l' Expression.argumentsHeight (programRest l ts) (programRest l' ts) := by
  fun_induction programRest l ts with rw [programRest]
  | case1 => exact .ok fits_zero
  | case2 t rest hsemicolon hskip =>
    rw [if_pos hsemicolon, if_pos hskip]
    exact .ok fits_zero
  | case3 t rest hsemicolon hskip ih =>
    rw [if_pos hsemicolon, if_neg hskip]
    exact foretells_expression hone hdepth ih
  | case4 t rest hsemicolon =>
    rw [if_neg hsemicolon]
    exact .error

/-- A program is foretold. -/
theorem foretells_program (hone : Fits l l' 1) (hdepth : l.depth ≤ l'.depth) (ts : List Token) :
    Foretells l l' Expression.argumentsHeight (program l ts) (program l' ts) :=
  foretells_expression hone hdepth fun e => foretells_programRest hone hdepth e.rest

end Readers

/-- The highest tree of a program. -/
theorem argumentsHeight_le_iff {p : Program} {n : Nat} :
    Expression.argumentsHeight p ≤ n ↔ ∀ e ∈ p, e.height ≤ n := by
  induction p with
  | nil => simp [Expression.argumentsHeight]
  | cons e p ih => rw [Expression.argumentsHeight, Nat.max_le, ih, List.forall_mem_cons]

/-- Greater limits change no answer but the one of a parse that stopped at a limit. -/
theorem program_of_le {l l' : Limits} {ts : List Token} (hdepth : l.depth ≤ l'.depth)
    (hheight : l.height ≤ l'.height)
    (hanswer : ∀ n, program l ts ≠ .error (.tooDeep n)) : program l' ts = program l ts := by
  have h := foretells_program (.inl hheight) hdepth ts
  generalize program l ts = x at h hanswer ⊢
  generalize program l' ts = y at h ⊢
  cases h with
  | ok fits => rfl
  | error => rfl
  | stopped => exact absurd rfl (hanswer _)
  | high lower _ => exact absurd hheight (Nat.not_le_of_lt lower)

/-- What a parse with a lower height gives, when one with a greater height succeeds. -/
theorem program_of_lower {d h h' : Nat} {ts : List Token} {p : Program}
    (hp : program ⟨d, h⟩ ts = .ok p) (hlt : h' < h) (hone : 1 ≤ h') : program ⟨d, h'⟩ ts =
      if ∀ e ∈ p, e.height ≤ h' then .ok p else .error (.tooDeep h') := by
  have hforetells : Foretells ⟨d, h⟩ ⟨d, h'⟩ _ (program ⟨d, h⟩ ts) (program ⟨d, h'⟩ ts) :=
    foretells_program (.inr hone) (Nat.le_refl d) ts
  rw [hp] at hforetells
  generalize program ⟨d, h'⟩ ts = y at hforetells ⊢
  cases hforetells with
  | ok fits =>
    have hle := fits.resolve_left (Nat.not_le_of_lt hlt)
    rw [if_pos (argumentsHeight_le_iff.mp hle)]
  | high lower high =>
    have hhigh := high p rfl
    rw [if_neg]
    exact fun hall => Nat.not_le_of_lt hhigh (argumentsHeight_le_iff.mpr hall)

/-- **The limits are exact, and they change no answer.**  A parse that succeeds, or that fails for
another reason than a limit, answers the same within greater limits; at a given depth it is the
heights of the trees that decide; and no tree nests as deep as the limit. -/
theorem program_limits (ts : List Token) :
    (∀ d h d' h' p, program ⟨d, h⟩ ts = .ok p → d ≤ d' → h ≤ h' →
      program ⟨d', h'⟩ ts = .ok p) ∧
    (∀ d h₀ h p, program ⟨d, h₀⟩ ts = .ok p → 1 ≤ h → program ⟨d, h⟩ ts =
      if ∀ e ∈ p, e.height ≤ h then .ok p else .error (.tooDeep h)) ∧
    (∀ d h d' h' e, program ⟨d, h⟩ ts = .error e → (∀ n, e ≠ .tooDeep n) → d ≤ d' → h ≤ h' →
      program ⟨d', h'⟩ ts = .error e) ∧
    ∀ d h p, program ⟨d, h⟩ ts = .ok p → ∀ e ∈ p, 1 + e.nesting ≤ d := by
  refine ⟨?greater, ?exact, ?error, ?nesting⟩
  case greater =>
    intro d h d' h' p hp hdepth hheight
    have hsame : program ⟨d', h'⟩ ts = program ⟨d, h⟩ ts :=
      program_of_le hdepth hheight (by rw [hp]; exact nofun)
    rw [hsame, hp]
  case exact =>
    intro d h₀ h p hp hone
    -- a height above both leads to the parse with the height `h`
    have hle : h₀ ≤ max h₀ h + 1 := by omega
    have hbig : program ⟨d, max h₀ h + 1⟩ ts = program ⟨d, h₀⟩ ts :=
      program_of_le (Nat.le_refl d) hle (by rw [hp]; exact nofun)
    exact program_of_lower (hbig.trans hp) (by omega) hone
  case error =>
    intro d h d' h' e he hother hdepth hheight
    have hstopped : ∀ n, program ⟨d, h⟩ ts ≠ .error (.tooDeep n) := by
      intro n hn
      exact hother n (Except.error.inj (he.symm.trans hn))
    have hsame : program ⟨d', h'⟩ ts = program ⟨d, h⟩ ts :=
      program_of_le hdepth hheight hstopped
    rw [hsame, he]
  case nesting =>
    intro d h p hp e he
    have hlt : e.nesting < d := program_nesting ⟨d, h⟩ ts p hp e he
    omega

/-- A unary operator needs one level and a height of two, and without its operand it is an error
within any limits that let it be read. -/
theorem program_limits_unary :
    let minus : Token := ⟨"-", .punctuation, 0⟩
    let ts : List Token := [minus, ⟨"a", .identifier, 1⟩]
    let p : Program := [.unary .minus (.identifier "a")]
    program ⟨2, 2⟩ ts = .ok p ∧ program ⟨3, 5⟩ ts = .ok p ∧
      program ⟨2, 1⟩ ts = .error (.tooDeep 1) ∧
      program ⟨3, 2⟩ [minus] = .error .incompleteExpression ∧
      1 + (Expression.unary .minus (.identifier "a")).nesting ≤ 2 := by
  intro minus ts p
  have hp : program ⟨2, 2⟩ ts = .ok p := by with_unfolding_all rfl
  have he : program ⟨2, 1⟩ [minus] = .error .incompleteExpression := rfl
  obtain ⟨hgreater, hexact, -, hnesting⟩ := program_limits ts
  obtain ⟨-, -, herror, -⟩ := program_limits [minus]
  have hhigh : ¬ ∀ e ∈ p, e.height ≤ 1 := fun h => absurd (h _ List.mem_cons_self) (by decide)
  refine ⟨hp, ?_, ?_, ?_, ?_⟩
  · exact hgreater 2 2 3 5 p hp (by decide) (by decide)
  · rw [hexact 2 2 1 p hp (by decide), if_neg hhigh]
  · exact herror 2 1 3 2 _ he nofun (by decide) (by decide)
  · exact hnesting 2 2 p hp _ List.mem_cons_self

end ExprSandbox.Parser
