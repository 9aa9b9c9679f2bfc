import ExprSandbox.Proofs.Readers

/-!
# What is read is derived

Whatever a reader yields is derived by the tokens that it took, whatever the limits are
(`derives_of_program`).  Each reader keeps this from the readers that it is made of; for the loops
over operators and over members the invariant is that the tokens taken so far derive the tree
built so far.
-/

namespace ExprSandbox.Parser

/-- What the reader yields is derived from the symbol by the tokens that it took. -/
def Sound (s : Symbol) (r : Reader (Measured s.height)) : Prop :=
  ∀ ts v rest, Yields (r ts) v rest → ∃ us, ts = us ++ rest ∧ Derives s us v.tree

variable {limits : Limits} {operand inner : Reader Node}

/-! ## Chains -/

/-- The operator of a level that a token is. -/
theorem connective?_eq_some {level : List Connective} {t : Token} {c : Connective}
    (h : connective? level t = some c) : c ∈ level ∧ t.isPunctuation c.text = true :=
  ⟨List.mem_of_find?_eq_some h,
    List.find?_some (p := fun c : Connective => t.isPunctuation c.text) h⟩

/-- What follows an operand in a chain belongs to the chain. -/
theorem chainRest_sound {level : List Connective} {below : List (List Connective)}
    (hoperand : Sound (.chain below) operand) (ts ts₀ : List Token) (left e : Node)
    (rest : List Token) (hleft : Derives (.chain (level :: below)) ts₀ left.tree)
    (h : Yields (chainRest limits level operand left ts) e rest) :
    ∃ us, ts = us ++ rest ∧ Derives (.chain (level :: below)) (ts₀ ++ us) e.tree := by
  induction hn : ts.length using Nat.strongRecOn generalizing ts ts₀ left with
  | _ n ih =>
    cases ts with
    | nil =>
      obtain ⟨rfl, rfl⟩ := yields_chainRest_nil.mp h
      exact ⟨[], rfl, by rwa [List.append_nil]⟩
    | cons t tail =>
      replace h := yields_chainRest_cons.mp h
      cases hc : connective? level t with
      | none =>
        rw [hc] at h
        obtain ⟨rfl, rfl⟩ := h
        exact ⟨[], rfl, by rwa [List.append_nil]⟩
      | some c =>
        rw [hc] at h
        obtain ⟨r, mid, hr, -, hwhole⟩ := h
        obtain ⟨hmem, htext⟩ := connective?_eq_some hc
        obtain ⟨us, rfl, hright⟩ := hoperand tail r mid hr
        -- the operator and its operand join what was taken before
        have hlt : mid.length < n := by
          rw [← hn, List.length_cons, List.length_append]
          omega
        obtain ⟨ws, rfl, hjoin⟩ := ih _ hlt mid (ts₀ ++ t :: us) (.of (c.join left.tree r.tree))
          (.join hleft hmem htext hright) hwhole rfl
        refine ⟨t :: (us ++ ws), by simp, ?_⟩
        rwa [List.append_assoc, List.cons_append] at hjoin

/-- A chain of one level is read from chains of the levels below. -/
theorem chain_sound {level : List Connective} {below : List (List Connective)}
    (hoperand : Sound (.chain below) operand) :
    Sound (.chain (level :: below)) (chain limits level operand) := by
  intro ts e rest h
  obtain ⟨l, mid, hl, hrest⟩ := yields_chain.mp h
  obtain ⟨us, rfl, hderives⟩ := hoperand ts l mid hl
  obtain ⟨ws, rfl, hwhole⟩ := chainRest_sound hoperand mid us l e rest (.single hderives) hrest
  exact ⟨us ++ ws, by rw [List.append_assoc], hwhole⟩

/-- All levels are read from unary operators and their operands. -/
theorem foldr_chain_sound {u : Reader Node} (hu : Sound .unary u)
    (levels : List (List Connective)) :
    Sound (.chain levels) (levels.foldr (chain limits) u) := by
  induction levels with
  | nil =>
    intro ts e rest h
    obtain ⟨us, rfl, hderives⟩ := hu ts e rest h
    exact ⟨us, rfl, .base hderives⟩
  | cons level below ih => exact chain_sound ih

/-! ## Insides of brackets -/

/-- Elements are read up to the bracket that ends them. -/
theorem elements_sound (hinner : Sound .expression inner) (ts : List Token)
    (es : Elements) (rest : List Token) (h : Yields (elements inner ts) es rest) :
    ∃ us c, ts = us ++ c :: rest ∧ c.isPunctuation "]" = true ∧ Derives .elements us es.tree := by
  induction hn : ts.length using Nat.strongRecOn generalizing ts es with
  | _ n ih =>
    cases ts with
    | nil => exact absurd h not_yields_elements_nil
    | cons t tail =>
      replace h := yields_elements_cons.mp h
      split at h
      · next hclose =>
        obtain ⟨rfl, rfl⟩ := h
        exact ⟨[], t, rfl, hclose, .noElements⟩
      split at h
      · next hcomma =>
        obtain ⟨es', hmore, rfl⟩ := h
        obtain ⟨us, c, rfl, hclose, hderives⟩ :=
          ih _ (by rw [← hn, List.length_cons]; omega) tail es' hmore rfl
        exact ⟨t :: us, c, rfl, hclose, .hole hcomma hderives⟩
      -- an element, and the token behind it
      obtain ⟨e, mid, he, s, mid', rfl, h⟩ := h
      obtain ⟨us, hus, helement⟩ := hinner (t :: tail) e (s :: mid') he
      split at h
      · next hclose =>
        obtain ⟨rfl, rfl⟩ := h
        exact ⟨us, s, hus, hclose, .lastElement helement⟩
      · obtain ⟨hcomma, es', hmore, rfl⟩ := h
        have hlt : mid'.length < n := by
          rw [← hn, hus, List.length_append, List.length_cons]
          omega
        obtain ⟨ws, c, rfl, hclose, hderives⟩ := ih _ hlt mid' es' hmore rfl
        exact ⟨us ++ s :: ws, c, by rw [hus, List.append_assoc, List.cons_append], hclose,
          .element helement hcomma hderives⟩

/-- Properties are read up to the brace that ends them. -/
theorem properties_sound (hinner : Sound .expression inner) (ts : List Token)
    (ps : Properties) (rest : List Token) (h : Yields (properties inner ts) ps rest) :
    ∃ us c, ts = us ++ c :: rest ∧ c.isPunctuation "\x7d" = true ∧
      Derives .properties us ps.tree := by
  induction hn : ts.length using Nat.strongRecOn generalizing ts ps with
  | _ n ih =>
    cases ts with
    | nil => exact absurd h not_yields_properties_nil
    | cons t tail =>
      replace h := yields_properties_cons.mp h
      split at h
      · next hclose =>
        obtain ⟨rfl, rfl⟩ := h
        exact ⟨[], t, rfl, hclose, .noProperties⟩
      obtain ⟨key, mid, hkey, u, mid₁, hcolon, e, mid₂, he, s, mid₃, rfl, h⟩ := h
      replace hkey := yields_propertyKey.mp hkey
      replace hcolon := yields_expect.mp hcolon
      obtain ⟨k, heq, hkey⟩ := hkey
      obtain ⟨rfl, rfl⟩ := List.cons.inj heq
      obtain ⟨c, rfl, hcolon⟩ := hcolon
      obtain ⟨us, rfl, hvalue⟩ := hinner mid₁ e (s :: mid₃) he
      split at h
      · next hclose =>
        obtain ⟨rfl, rfl⟩ := h
        exact ⟨t :: c :: us, s, rfl, hclose, .lastProperty hkey hcolon hvalue⟩
      · obtain ⟨hcomma, ps', hmore, rfl⟩ := h
        have hlt : mid₃.length < n := by
          rw [← hn]
          simp only [List.length_append, List.length_cons]
          omega
        obtain ⟨ws, d, rfl, hclose, hderives⟩ := ih _ hlt mid₃ ps' hmore rfl
        exact ⟨t :: c :: (us ++ s :: ws), d, by simp, hclose,
          .property hkey hcolon hvalue hcomma hderives⟩

/-- Arguments are read up to the parenthesis that ends them. -/
theorem argumentList_sound (hinner : Sound .expression inner) (ts : List Token)
    (args : Arguments) (rest : List Token) (h : Yields (argumentList inner ts) args rest) :
    ∃ us c, ts = us ++ c :: rest ∧ c.isPunctuation ")" = true ∧
      Derives .arguments us args.tree := by
  induction hn : ts.length using Nat.strongRecOn generalizing ts args with
  | _ n ih =>
    replace h := yields_argumentList.mp h
    obtain ⟨e, mid, he, s, mid', rfl, h⟩ := h
    obtain ⟨us, rfl, hargument⟩ := hinner ts e (s :: mid') he
    split at h
    · next hcomma =>
      obtain ⟨args', hmore, rfl⟩ := h
      have hlt : mid'.length < n := by
        rw [← hn, List.length_append, List.length_cons]
        omega
      obtain ⟨ws, c, rfl, hclose, hderives⟩ := ih _ hlt mid' args' hmore rfl
      exact ⟨us ++ s :: ws, c, by rw [List.append_assoc, List.cons_append], hclose,
        .argument hargument hcomma hderives⟩
    · obtain ⟨hclose, rfl, rfl⟩ := h
      exact ⟨us, s, rfl, hclose, .lastArgument hargument⟩

/-! ## Operands -/

/-- What begins an operand is derived. -/
theorem primary_sound (hinner : Sound .expression inner) :
    Sound .primary (primary limits inner) := by
  intro ts e rest h
  cases ts with
  | nil => exact absurd h not_yields_primary_nil
  | cons t tail =>
    replace h := yields_primary_cons.mp h
    split at h
    · next hopen =>
      obtain ⟨e', mid, he, u, mid', hclose, rfl, rfl⟩ := h
      obtain ⟨us, rfl, hderives⟩ := hinner tail e mid he
      replace hclose := yields_expect.mp hclose
      obtain ⟨c, rfl, hclose⟩ := hclose
      exact ⟨t :: (us ++ [c]), by simp, .parentheses hopen hderives hclose⟩
    split at h
    · next hopen =>
      obtain ⟨es, mid, hes, -, rfl, rfl⟩ := h
      obtain ⟨us, c, rfl, hclose, hderives⟩ := elements_sound hinner tail es rest hes
      exact ⟨t :: (us ++ [c]), by simp, .array hopen hderives hclose⟩
    split at h
    · next hopen =>
      obtain ⟨ps, mid, hps, -, rfl, rfl⟩ := h
      obtain ⟨us, c, rfl, hclose, hderives⟩ := properties_sound hinner tail ps rest hps
      exact ⟨t :: (us ++ [c]), by simp, .object hopen hderives hclose⟩
    cases hkind : t.kind with
    | identifier =>
      rw [hkind] at h
      obtain ⟨rfl, rfl⟩ := h
      exact ⟨[t], rfl, .identifier hkind⟩
    | literal value =>
      rw [hkind] at h
      obtain ⟨rfl, rfl⟩ := h
      exact ⟨[t], rfl, .literal hkind⟩
    | punctuation =>
      rw [hkind] at h
      exact absurd h id

/-- What is read as the arguments of a callee derives the call. -/
theorem arguments_sound (hinner : Sound .expression inner) {ts ts₀ rest : List Token} {o : Token}
    {base : Expression} {args : Arguments} (h : Yields (arguments inner ts) args rest)
    (hbase : Derives .member ts₀ base) (hopen : o.isPunctuation "(" = true) :
    ∃ us, ts = us ++ rest ∧ Derives .member (ts₀ ++ o :: us) (.call base args.tree) := by
  cases ts with
  -- arguments need a token, if only the closing parenthesis
  | nil =>
    obtain ⟨e, mid, he, s, mid', rfl, -⟩ := yields_argumentList.mp h
    exact absurd he.rest_lt (Nat.not_lt_zero _)
  | cons c tail =>
    replace h := yields_arguments_cons.mp h
    split at h
    · next hclose =>
      obtain ⟨rfl, rfl⟩ := h
      exact ⟨[c], rfl, .callEmpty hbase hopen hclose⟩
    · obtain ⟨us, d, heq, hclose, hderives⟩ := argumentList_sound hinner _ args rest h
      exact ⟨us ++ [d], by simp [heq], .call hbase hopen hderives hclose⟩

/-- What follows an operand as members and calls belongs to it. -/
theorem postfixRest_sound (hinner : Sound .expression inner) (ts ts₀ : List Token)
    (base e : Node) (rest : List Token) (hbase : Derives .member ts₀ base.tree)
    (h : Yields (postfixRest limits inner base ts) e rest) :
    ∃ us, ts = us ++ rest ∧ Derives .member (ts₀ ++ us) e.tree := by
  induction hn : ts.length using Nat.strongRecOn generalizing ts ts₀ base with
  | _ n ih =>
    -- one member or call more, after which the loop goes on
    have step : ∀ (us mid : List Token) (e' : Node), ts = us ++ mid → us ≠ [] →
        Derives .member (ts₀ ++ us) e'.tree → Yields (postfixRest limits inner e' mid) e rest →
        ∃ us, ts = us ++ rest ∧ Derives .member (ts₀ ++ us) e.tree := by
      rintro us mid e' rfl hne hderives hwhole
      have hlt : mid.length < n := by
        have := List.length_pos_iff.mpr hne
        rw [← hn, List.length_append]
        omega
      obtain ⟨ws, rfl, hmore⟩ := ih _ hlt mid (ts₀ ++ us) e' hderives hwhole rfl
      exact ⟨us ++ ws, by rw [List.append_assoc], by rwa [List.append_assoc] at hmore⟩
    cases ts with
    | nil =>
      obtain ⟨rfl, rfl⟩ := yields_postfixRest_nil.mp h
      exact ⟨[], rfl, by rwa [List.append_nil]⟩
    | cons t tail =>
      replace h := yields_postfixRest_cons.mp h
      split at h
      · next hdot =>
        obtain ⟨name, mid, hname, -, hwhole⟩ := h
        replace hname := yields_memberName.mp hname
        obtain ⟨n, rfl, hname, rfl⟩ := hname
        exact step [t, n] mid _ rfl (by simp) (.dot hbase hdot hname) hwhole
      split at h
      · next hopen =>
        obtain ⟨k, mid, hk, u, mid', hclose, -, hwhole⟩ := h
        obtain ⟨us, rfl, hkey⟩ := hinner tail k mid hk
        replace hclose := yields_expect.mp hclose
        obtain ⟨c, rfl, hclose⟩ := hclose
        exact step (t :: (us ++ [c])) mid' _ (by simp) (by simp) (.index hbase hopen hkey hclose)
          hwhole
      split at h
      · next hopen =>
        obtain ⟨args, mid, hargs, -, hwhole⟩ := h
        obtain ⟨us, rfl, hcall⟩ := arguments_sound hinner hargs hbase hopen
        exact step (t :: us) mid _ rfl (by simp) hcall hwhole
      · obtain ⟨rfl, rfl⟩ := h
        exact ⟨[], rfl, by rwa [List.append_nil]⟩

/-- An operand with its members and calls is derived. -/
theorem postfixed_sound (hinner : Sound .expression inner) :
    Sound .member (postfixed limits inner) := by
  intro ts e rest h
  obtain ⟨base, mid, hbase, hrest⟩ := yields_postfixed.mp h
  obtain ⟨us, rfl, hderives⟩ := primary_sound hinner ts base mid hbase
  obtain ⟨ws, rfl, hwhole⟩ := postfixRest_sound hinner mid us base e rest (.primary hderives) hrest
  exact ⟨us ++ ws, by rw [List.append_assoc], hwhole⟩

/-- The unary operator that a token is. -/
theorem unaryOp?_eq_some {t : Token} {op : UnaryOp} (h : unaryOp? t = some op) :
    t.isPunctuation op.text = true := by
  unfold unaryOp? at h
  split at h
  · next hkind =>
    have htext : op.text = t.text := of_decide_eq_true
      (List.find?_some (p := fun o : UnaryOp => decide (o.text = t.text)) h)
    rw [Token.isPunctuation, decide_eq_true hkind, decide_eq_true htext.symm, Bool.true_and]
  · cases h

/-- Unary operators and their operand are derived. -/
theorem unary_sound (hoperand : Sound .unary operand) (hinner : Sound .expression inner) :
    Sound .unary (unary limits operand inner) := by
  intro ts e rest h
  cases ts with
  | nil => exact absurd h not_yields_unary_nil
  | cons t tail =>
    replace h := yields_unary_cons.mp h
    cases hop : unaryOp? t with
    | none =>
      rw [hop] at h
      obtain ⟨us, hus, hderives⟩ := postfixed_sound hinner (t :: tail) e rest h
      exact ⟨us, hus, .operand hderives⟩
    | some op =>
      rw [hop] at h
      obtain ⟨a, mid, ha, -, rfl, rfl⟩ := h
      obtain ⟨us, rfl, hargument⟩ := hoperand tail a rest ha
      exact ⟨t :: us, rfl, .unary (unaryOp?_eq_some hop) hargument⟩

/-! ## Expressions -/

/-- A whole expression is derived. -/
theorem conditional_sound (hoperand : Sound .unary operand) (hinner : Sound .expression inner) :
    Sound .expression (conditional limits operand inner) := by
  intro ts e rest h
  obtain ⟨test, mid, hchain, hbranches⟩ := yields_conditional.mp h
  obtain ⟨us, rfl, htest⟩ :=
    foldr_chain_sound (unary_sound hoperand hinner) Connective.levels ts test mid hchain
  cases mid with
  | nil =>
    obtain ⟨rfl, rfl⟩ := hbranches
    exact ⟨us, rfl, .plain htest⟩
  | cons t tail =>
    rw [YieldsBranches] at hbranches
    split at hbranches
    · next hquestion =>
      obtain ⟨e₁, mid₁, he₁, u, mid₂, hcolon, e₂, mid₃, he₂, -, rfl, rfl⟩ := hbranches
      obtain ⟨vs, rfl, hconsequent⟩ := hinner tail e₁ mid₁ he₁
      replace hcolon := yields_expect.mp hcolon
      obtain ⟨c, rfl, hcolon⟩ := hcolon
      obtain ⟨ws, rfl, halternate⟩ := hinner mid₂ e₂ rest he₂
      exact ⟨us ++ t :: (vs ++ c :: ws), by simp,
        .conditional htest hquestion hconsequent hcolon halternate⟩
    · obtain ⟨rfl, rfl⟩ := hbranches
      exact ⟨us, rfl, .plain htest⟩

/-- **Whatever is read at any nesting level is derived.** -/
theorem nested_sound (limits : Limits) (depth : Nat) :
    Sound .expression (nested limits depth .expression) ∧
      Sound .unary (nested limits depth .operand) := by
  induction depth with
  | zero =>
    constructor
    · exact fun ts e rest h => absurd h not_yields_error
    · exact fun ts e rest h => absurd h not_yields_error
  | succ depth ih => exact ⟨conditional_sound ih.2 ih.1, unary_sound ih.2 ih.1⟩

/-! ## Programs -/

/-- Tokens are the semicolons that they begin with and what is left after these. -/
theorem append_skipSemicolons (ts : List Token) :
    ∃ ss, ts = ss ++ skipSemicolons ts ∧ ∀ t ∈ ss, t.isPunctuation ";" = true := by
  refine ⟨ts.takeWhile (·.isPunctuation ";"), List.takeWhile_append_dropWhile.symm, ?_⟩
  exact fun t ht => List.all_eq_true.mp List.all_takeWhile t ht

/-- What follows the first expression is derived. -/
theorem programRest_sound (ts : List Token) (p : Program) (h : programRest limits ts = .ok p) :
    DerivesRest ts p := by
  induction hn : ts.length using Nat.strongRecOn generalizing ts p with
  | _ n ih =>
    cases ts with
    | nil =>
      rw [programRest_nil] at h
      obtain rfl := Except.ok.inj h
      exact .done nofun
    | cons t tail =>
      obtain ⟨ht, h⟩ := programRest_cons.mp h
      obtain ⟨ss, hss, hsemicolons⟩ := append_skipSemicolons tail
      have hall : ∀ s ∈ t :: ss, s.isPunctuation ";" = true := by
        intro s hs
        rcases List.mem_cons.mp hs with rfl | hs
        · exact ht
        · exact hsemicolons s hs
      split at h
      · next hnil =>
        obtain rfl := h
        rw [hnil, List.append_nil] at hss
        exact hss ▸ .done hall
      · -- an expression behind the semicolons, and the rest behind it
        obtain ⟨e, mid, he, p', hp', rfl⟩ := h
        obtain ⟨us, hus, hexpression⟩ := (nested_sound limits limits.depth).1 _ e mid he
        have hlt : mid.length < n := by
          rw [← hn, hss, hus]
          simp only [List.length_cons, List.length_append]
          omega
        have hrest := ih _ hlt mid p' hp' rfl
        have hmore : DerivesRest ((t :: ss) ++ (us ++ mid)) (e.tree :: p') :=
          .more (List.cons_ne_nil t ss) hall hexpression hrest
        rw [hss, hus]
        exact hmore

/-- **What the parser accepts is derived**, whatever its limits are. -/
theorem derives_of_program {ts : List Token} {p : Program} (h : program limits ts = .ok p) :
    DerivesProgram ts p := by
  obtain ⟨e, mid, he, p', hp', rfl⟩ := program_eq_ok.mp h
  obtain ⟨us, rfl, hexpression⟩ := (nested_sound limits limits.depth).1 ts e mid he
  exact .program hexpression (programRest_sound mid p' hp')

end ExprSandbox.Parser
