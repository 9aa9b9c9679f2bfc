import ExprSandbox.Proofs.Begun
import ExprSandbox.Proofs.Completeness
import ExprSandbox.Proofs.Limits
import ExprSandbox.Proofs.Tracking

/-!
# Where a parse fails

A parse that fails names the first token with which the tokens before it cannot go on
(`program_blames`): up to that token they can be completed to a program, and with it they cannot,
whatever follows.  A parse that wants more tokens has been given the beginning of a program.

Reader by reader it is shown that what was taken before a failure begins a phrase of the reader.
For the loops over operators and over members the tokens that were taken by the loop so far are
put before those that are still read.
-/

namespace ExprSandbox.Parser

/-- Reading is tracked wherever it starts, and what was taken before a failure begins a phrase of
the symbol. -/
def Tracked (s : Symbol) (r : Reader (Measured s.height)) : Prop :=
  ∀ ts, Tracks (fun ts => answer (r ts)) (Begun s) ts

/-- The tokens that a reader has taken derive what it gives. -/
theorem Sound.taken {s : Symbol} {r : Reader (Measured s.height)} (h : Sound s r)
    {ts us mid : List Token} {v : Measured s.height} (hr : answer (r ts) = .ok (v, mid))
    (hts : ts = us ++ mid) : Derives s us v.tree := by
  obtain ⟨us', hts', hderives⟩ := h ts v mid (answer_eq_ok.mp hr)
  obtain rfl := List.append_cancel_right (hts.symm.trans hts')
  exact hderives

variable {limits : Limits} {operand inner : Reader Node}

/-! ## Chains -/

/-- What follows an operand in a chain. -/
theorem chainRest_tracks {level : List Connective} {below : List (List Connective)}
    (hsound : Sound (.chain below) operand) (h : Tracked (.chain below) operand)
    (ts ts₀ : List Token) (left : Node)
    (hleft : Derives (.chain (level :: below)) ts₀ left.tree) :
    Tracks (fun ts => answer (chainRest limits level operand left ts))
      (fun us => Begun (.chain (level :: below)) (ts₀ ++ us)) ts := by
  induction hn : ts.length using Nat.strongRecOn generalizing ts ts₀ left with
  | _ n ih =>
    cases ts with
    | nil => exact .nil answer_chainRest_nil tracks_ok
    | cons t tail =>
      cases hc : connective? level t with
      | none => exact .peek (fun tail => by rw [answer_chainRest_cons, hc]) tracks_ok
      | some c =>
        obtain ⟨hmem, htext⟩ := connective?_eq_some hc
        refine .cons (fun tail => by rw [answer_chainRest_cons, hc]) ?_
        refine ((h tail).mono fun us hus => hus.join hleft hmem htext).andThen ?_
        intro us r mid htail hr
        have hright := hsound.taken hr htail
        have hlt : mid.length < n := by
          rw [← hn, htail, List.length_cons, List.length_append]
          omega
        -- the operator and its operand join what was taken before
        have hmore := ih _ hlt mid (ts₀ ++ t :: us) (.of (c.join left.tree r.tree))
          (.join hleft hmem htext hright) rfl
        exact (hmore.mono fun vs hvs => by simpa using hvs).unlessHigh

/-- A chain of one level. -/
theorem chain_tracked {level : List Connective} {below : List (List Connective)}
    (hsound : Sound (.chain below) operand) (h : Tracked (.chain below) operand) :
    Tracked (.chain (level :: below)) (chain limits level operand) := by
  intro ts
  refine .congr ?_ fun ts => answer_chain
  refine ((h ts).mono fun us hus => hus.single).andThen fun us l mid hts hl => ?_
  exact chainRest_tracks hsound h mid us l (.single (hsound.taken hl hts))

/-- The chains of all levels. -/
theorem foldr_chain_tracked {u : Reader Node} (hsound : Sound .unary u)
    (h : Tracked .unary u) (levels : List (List Connective)) :
    Tracked (.chain levels) (levels.foldr (chain limits) u) := by
  induction levels with
  | nil => exact fun ts => (h ts).mono fun us hus => hus.base
  | cons level below ih => exact chain_tracked (foldr_chain_sound hsound below) ih

/-! ## Insides of brackets -/

/-- An element of an array and what follows it. -/
theorem fromElement_tracks (hsound : Sound .expression inner) (h : Tracked .expression inner)
    (ts : List Token) (hmore : ∀ tail : List Token, tail.length < ts.length →
      Tracks (fun ts => answer (elements inner ts)) (Begun .elements) tail) :
    Tracks (fromElement inner) (Begun .elements) ts := by
  refine ((h ts).mono fun us hus => hus.lastElement).andThen fun us e mid hts he => ?_
  have helement := hsound.taken he hts
  have hended : Begun .elements (us ++ []) := by
    rw [List.append_nil]
    exact helement.begun.lastElement
  cases mid with
  | nil => exact .ends rfl rfl hended
  | cons t tail =>
    by_cases hclose : t.isPunctuation "]" = true
    · exact tracks_take fun tail => by rw [afterElement, if_pos hclose]
    by_cases hcomma : t.isPunctuation "," = true
    · refine .cons (fun tail => by rw [afterElement, if_neg hclose, if_pos hcomma]) ?_
      have hlt : tail.length < ts.length := by
        rw [hts, List.length_append, List.length_cons]
        omega
      refine ((hmore tail hlt).mono fun vs hvs => ?_).andThen fun _ _ _ _ _ => tracks_ok
      exact hvs.element helement hcomma
    · exact .peek (fun tail => by rw [afterElement, if_neg hclose, if_neg hcomma])
        (tracks_expected "," hended)

/-- The elements of an array. -/
theorem elements_tracks (hsound : Sound .expression inner) (h : Tracked .expression inner)
    (ts : List Token) : Tracks (fun ts => answer (elements inner ts)) (Begun .elements) ts := by
  induction hn : ts.length using Nat.strongRecOn generalizing ts with
  | _ n ih =>
    have helement := fromElement_tracks hsound h ts fun tail hlt => ih _ (hn ▸ hlt) tail rfl
    cases ts with
    | nil => exact .nil answer_elements_nil helement
    | cons t tail =>
      by_cases hclose : t.isPunctuation "]" = true
      · exact tracks_take fun tail => by rw [answer_elements_cons, if_pos hclose]
      by_cases hcomma : t.isPunctuation "," = true
      · refine .cons (fun tail => by rw [answer_elements_cons, if_neg hclose, if_pos hcomma]) ?_
        have hlt : tail.length < n := by
          rw [← hn, List.length_cons]
          omega
        exact ((ih _ hlt tail rfl).mono fun vs hvs => hvs.hole hcomma).andThen
          fun _ _ _ _ _ => tracks_ok
      · exact .peek (fun tail => by rw [answer_elements_cons, if_neg hclose, if_neg hcomma])
          helement

/-- A property of an object and what follows it. -/
theorem fromProperty_tracks (hsound : Sound .expression inner) (h : Tracked .expression inner)
    (ts : List Token) (hmore : ∀ tail : List Token, tail.length < ts.length →
      Tracks (fun ts => answer (properties inner ts)) (Begun .properties) tail) :
    Tracks (fromProperty inner) (Begun .properties) ts := by
  refine (tracks_propertyKey (begun_nil _)).andThen fun us key mid hts hkey => ?_
  obtain ⟨k, rfl, hk⟩ := taken_propertyKey hkey hts
  refine (tracks_expect ":" (begun_key hk)).andThen fun us u mid₁ hmid hcolon => ?_
  obtain ⟨c, rfl, hc⟩ := taken_expect hcolon hmid
  refine ((h mid₁).mono fun vs hvs => hvs.lastProperty hk hc).andThen
    fun us e mid₂ hmid₁ he => ?_
  have hvalue := hsound.taken he hmid₁
  have hended : Begun .properties (k :: c :: (us ++ [])) := by
    rw [List.append_nil]
    exact hvalue.begun.lastProperty hk hc
  cases mid₂ with
  | nil => exact .ends rfl rfl hended
  | cons t tail =>
    by_cases hclose : t.isPunctuation "\x7d" = true
    · exact tracks_take fun tail => by rw [afterProperty, if_pos hclose]
    by_cases hcomma : t.isPunctuation "," = true
    · refine .cons (fun tail => by rw [afterProperty, if_neg hclose, if_pos hcomma]) ?_
      have hlt : tail.length < ts.length := by
        rw [hts, hmid, hmid₁]
        simp only [List.length_append, List.length_cons]
        omega
      refine ((hmore tail hlt).mono fun vs hvs => ?_).andThen fun _ _ _ _ _ => tracks_ok
      exact hvs.property hk hc hvalue hcomma
    · exact .peek (fun tail => by rw [afterProperty, if_neg hclose, if_neg hcomma])
        (tracks_expected "," hended)

/-- The properties of an object. -/
theorem properties_tracks (hsound : Sound .expression inner) (h : Tracked .expression inner)
    (ts : List Token) : Tracks (fun ts => answer (properties inner ts)) (Begun .properties) ts := by
  induction hn : ts.length using Nat.strongRecOn generalizing ts with
  | _ n ih =>
    have hproperty := fromProperty_tracks hsound h ts fun tail hlt => ih _ (hn ▸ hlt) tail rfl
    cases ts with
    | nil => exact .ends answer_properties_nil rfl (begun_nil _)
    | cons t tail =>
      by_cases hclose : t.isPunctuation "\x7d" = true
      · exact tracks_take fun tail => by rw [answer_properties_cons, if_pos hclose]
      · exact .peek (fun tail => by rw [answer_properties_cons, if_neg hclose]) hproperty

/-- The arguments of a call, if there are any. -/
theorem argumentList_tracks (hsound : Sound .expression inner) (h : Tracked .expression inner)
    (ts : List Token) :
    Tracks (fun ts => answer (argumentList inner ts)) (Begun .arguments) ts := by
  induction hn : ts.length using Nat.strongRecOn generalizing ts with
  | _ n ih =>
    refine .congr ?_ fun ts => answer_argumentList
    refine ((h ts).mono fun us hus => hus.lastArgument).andThen fun us e mid hts he => ?_
    have hargument := hsound.taken he hts
    have hended : Begun .arguments (us ++ []) := by
      rw [List.append_nil]
      exact hargument.begun.lastArgument
    cases mid with
    | nil => exact .ends rfl rfl hended
    | cons t tail =>
      by_cases hcomma : t.isPunctuation "," = true
      · refine .cons (fun tail => by rw [afterArgument, if_pos hcomma]) ?_
        have hlt : tail.length < n := by
          rw [← hn, hts, List.length_append, List.length_cons]
          omega
        refine ((ih _ hlt tail rfl).mono fun vs hvs => ?_).andThen fun _ _ _ _ _ => tracks_ok
        exact hvs.argument hargument hcomma
      by_cases hclose : t.isPunctuation ")" = true
      · exact tracks_take fun tail => by rw [afterArgument, if_neg hcomma, if_pos hclose]
      · exact .peek (fun tail => by rw [afterArgument, if_neg hcomma, if_neg hclose])
          (tracks_expected ")" hended)

/-- The arguments of a call. -/
theorem arguments_tracks (hsound : Sound .expression inner) (h : Tracked .expression inner)
    (ts : List Token) : Tracks (fun ts => answer (arguments inner ts)) (Begun .arguments) ts := by
  cases ts with
  | nil => exact .nil rfl (argumentList_tracks hsound h [])
  | cons t tail =>
    by_cases hclose : t.isPunctuation ")" = true
    · exact tracks_take fun tail => by rw [answer_arguments_cons, if_pos hclose]
    · exact .peek (fun tail => by rw [answer_arguments_cons, if_neg hclose])
        (argumentList_tracks hsound h (t :: tail))

/-! ## Operands -/

/-- The beginning of an operand. -/
theorem primary_tracked (hsound : Sound .expression inner) (h : Tracked .expression inner) :
    Tracked .primary (primary limits inner) := by
  intro ts
  cases ts with
  | nil => exact .ends rfl rfl (begun_nil _)
  | cons t tail =>
    by_cases hparen : t.isPunctuation "(" = true
    · refine .cons (fun tail => by rw [answer_primary_cons, if_pos hparen]) ?_
      refine ((h tail).mono fun us hus => hus.parentheses hparen).andThen
        fun us e mid htail he => ?_
      have hended : Begun .primary (t :: (us ++ [])) := by
        rw [List.append_nil]
        exact (hsound.taken he htail).begun.parentheses hparen
      exact (tracks_expect ")" hended).andThen fun _ _ _ _ _ => tracks_ok
    by_cases hbracket : t.isPunctuation "[" = true
    · refine .cons (fun tail => by rw [answer_primary_cons, if_neg hparen, if_pos hbracket]) ?_
      exact ((elements_tracks hsound h tail).mono fun us hus => hus.array hbracket).andThen
        fun _ _ _ _ _ => tracks_ok.unlessHigh
    by_cases hbrace : t.isPunctuation "\x7b" = true
    · refine .cons (fun tail => by
        rw [answer_primary_cons, if_neg hparen, if_neg hbracket, if_pos hbrace]) ?_
      exact ((properties_tracks hsound h tail).mono fun us hus => hus.object hbrace).andThen
        fun _ _ _ _ _ => tracks_ok.unlessHigh
    have hread : ∀ tail, answer (primary limits inner (t :: tail)) = leaf t tail := fun tail => by
      rw [answer_primary_cons, if_neg hparen, if_neg hbracket, if_neg hbrace]
    cases hkind : t.kind with
    | identifier => exact tracks_take fun tail => by rw [hread, leaf, hkind]
    | literal value => exact tracks_take fun tail => by rw [hread, leaf, hkind]
    | punctuation => exact tracks_unexpected (fun tail => by rw [hread, leaf, hkind]) (begun_nil _)

/-- The members and calls that follow an operand. -/
theorem postfixRest_tracks (hsound : Sound .expression inner) (h : Tracked .expression inner)
    (ts ts₀ : List Token) (base : Node) (hbase : Derives .member ts₀ base.tree) :
    Tracks (fun ts => answer (postfixRest limits inner base ts))
      (fun us => Begun .member (ts₀ ++ us)) ts := by
  induction hn : ts.length using Nat.strongRecOn generalizing ts ts₀ base with
  | _ n ih =>
    -- one member or call more, after which the loop goes on
    have step : ∀ (us mid : List Token) (e : Expression), ts = us ++ mid → us ≠ [] →
        Derives .member (ts₀ ++ us) e →
        Tracks (fun ts => unlessHigh limits e (answer (postfixRest limits inner (.of e) ts)))
          (fun vs => Begun .member (ts₀ ++ (us ++ vs))) mid := by
      intro us mid e hts hne hderives
      have hlt : mid.length < n := by
        have := List.length_pos_iff.mpr hne
        rw [← hn, hts, List.length_append]
        omega
      have hmore := ih _ hlt mid (ts₀ ++ us) (.of e) hderives rfl
      exact (hmore.mono fun vs hvs => by rwa [List.append_assoc] at hvs).unlessHigh
    cases ts with
    | nil => exact .nil answer_postfixRest_nil tracks_ok
    | cons t tail =>
      by_cases hdot : t.isPunctuation "." = true
      · refine .cons (fun tail => by rw [answer_postfixRest_cons, if_pos hdot]) ?_
        refine (tracks_memberName (begun_dot hbase hdot)).andThen fun us name mid htail hname => ?_
        obtain ⟨n, rfl, hn, rfl⟩ := taken_memberName hname htail
        exact step [t, n] mid _ (by rw [htail]; rfl) (by simp) (.dot hbase hdot hn)
      by_cases hopen : t.isPunctuation "[" = true
      · refine .cons (fun tail => by
          rw [answer_postfixRest_cons, if_neg hdot, if_pos hopen]) ?_
        refine ((h tail).mono fun us hus => hus.index hbase hopen).andThen
          fun us k mid htail hk => ?_
        have hkey := hsound.taken hk htail
        have hended : Begun .member (ts₀ ++ t :: (us ++ [])) := by
          rw [List.append_nil]
          exact hkey.begun.index hbase hopen
        refine (tracks_expect "]" hended).andThen fun us' u mid' hmid hclose => ?_
        obtain ⟨c, rfl, hclose⟩ := taken_expect hclose hmid
        refine (step (t :: (us ++ [c])) mid' _ (by rw [htail, hmid]; simp) (by simp)
          (.index hbase hopen hkey hclose)).mono fun vs hvs => ?_
        simpa using hvs
      by_cases hcall : t.isPunctuation "(" = true
      · refine .cons (fun tail => by
          rw [answer_postfixRest_cons, if_neg hdot, if_neg hopen, if_pos hcall]) ?_
        refine ((arguments_tracks hsound h tail).mono fun us hus => hus.call hbase hcall).andThen
          fun us args mid htail hargs => ?_
        obtain ⟨us', htail', hderives⟩ :=
          arguments_sound hsound (answer_eq_ok.mp hargs) hbase hcall
        obtain rfl := List.append_cancel_right (htail.symm.trans htail')
        exact step (t :: us) mid _ (by rw [htail]; rfl) (by simp) hderives
      · exact .peek (fun tail => by
          rw [answer_postfixRest_cons, if_neg hdot, if_neg hopen, if_neg hcall]) tracks_ok

/-- An operand with its members and calls. -/
theorem postfixed_tracked (hsound : Sound .expression inner) (h : Tracked .expression inner) :
    Tracked .member (postfixed limits inner) := by
  intro ts
  refine .congr ?_ fun ts => answer_postfixed
  refine ((primary_tracked hsound h ts).mono fun us hus => hus.primary).andThen
    fun us base mid hts hbase => ?_
  exact postfixRest_tracks hsound h mid us base
    (.primary ((primary_sound hsound).taken hbase hts))

/-- Unary operators and their operand. -/
theorem unary_tracked (hsound : Sound .expression inner) (hoperand : Tracked .unary operand)
    (hinner : Tracked .expression inner) : Tracked .unary (unary limits operand inner) := by
  intro ts
  have hpostfixed : Tracks (fun ts => answer (postfixed limits inner ts)) (Begun .unary) ts :=
    (postfixed_tracked hsound hinner ts).mono fun us hus => hus.operand
  cases ts with
  | nil => exact .nil rfl hpostfixed
  | cons t tail =>
    cases hop : unaryOp? t with
    | none => exact .peek (fun tail => by rw [answer_unary_cons, hop]) hpostfixed
    | some op =>
      refine .cons (fun tail => by rw [answer_unary_cons, hop]) ?_
      exact ((hoperand tail).mono fun us hus => hus.unary (unaryOp?_eq_some hop)).andThen
        fun _ _ _ _ _ => tracks_ok.unlessHigh

/-! ## Expressions -/

/-- What follows the test of an expression. -/
theorem afterTest_tracks (hsound : Sound .expression inner) (h : Tracked .expression inner)
    {us : List Token} {test : Node} (htest : Derives (.chain Connective.levels) us test.tree)
    (ts : List Token) :
    Tracks (afterTest limits inner test) (fun vs => Begun .expression (us ++ vs)) ts := by
  cases ts with
  | nil => exact .nil (by rfl) tracks_ok
  | cons t tail =>
    by_cases hquestion : t.isPunctuation "?" = true
    · refine .cons (fun tail => by rw [afterTest, if_pos hquestion]) ?_
      refine ((h tail).mono fun vs hvs => hvs.consequent htest hquestion).andThen
        fun vs e₁ mid htail he₁ => ?_
      have hconsequent := hsound.taken he₁ htail
      have hended : Begun .expression (us ++ t :: (vs ++ [])) := by
        rw [List.append_nil]
        exact hconsequent.begun.consequent htest hquestion
      refine (tracks_expect ":" hended).andThen fun us' u mid' hmid hcolon => ?_
      obtain ⟨c, rfl, hcolon⟩ := taken_expect hcolon hmid
      exact ((h mid').mono fun ws hws =>
        hws.alternate htest hquestion hconsequent hcolon).andThen
          fun _ _ _ _ _ => tracks_ok.unlessHigh
    · exact .peek (fun tail => by rw [afterTest, if_neg hquestion]) tracks_ok

/-- A whole expression. -/
theorem conditional_tracked (hoperand_sound : Sound .unary operand)
    (hinner_sound : Sound .expression inner) (hoperand : Tracked .unary operand)
    (hinner : Tracked .expression inner) :
    Tracked .expression (conditional limits operand inner) := by
  intro ts
  refine .congr ?_ fun ts => answer_conditional
  have hsound : Sound .unary (unary limits operand inner) :=
    unary_sound hoperand_sound hinner_sound
  have hunary : Tracked .unary (unary limits operand inner) :=
    unary_tracked hinner_sound hoperand hinner
  refine ((foldr_chain_tracked hsound hunary Connective.levels ts).mono
    fun us hus => hus.plain).andThen fun us test mid hts htest => ?_
  exact afterTest_tracks hinner_sound hinner
    ((foldr_chain_sound hsound Connective.levels).taken htest hts) mid

/-- **Reading is tracked at every nesting level.** -/
theorem nested_tracked (limits : Limits) (depth : Nat) :
    Tracked .expression (nested limits depth .expression) ∧
      Tracked .unary (nested limits depth .operand) := by
  induction depth with
  | zero => exact ⟨fun ts => .stops rfl, fun ts => .stops rfl⟩
  | succ depth ih =>
    obtain ⟨hexpression, hoperand⟩ := nested_sound limits depth
    exact ⟨conditional_tracked hoperand hexpression ih.2 ih.1,
      unary_tracked hexpression ih.2 ih.1⟩

/-! ## Programs -/

/-- Tokens that begin like the ones behind semicolons have no semicolons before them. -/
theorem skipSemicolons_of_head? {ts tail : List Token}
    (h : ts.head? = (skipSemicolons tail).head?) : skipSemicolons ts = ts := by
  cases ts with
  | nil => rfl
  | cons t ts =>
    have hfirst := List.head?_dropWhile_not (fun t : Token => t.isPunctuation ";") tail
    rw [skipSemicolons] at h
    rw [← h] at hfirst
    have ht : ¬ t.isPunctuation ";" = true := by simpa using hfirst
    rw [skipSemicolons, List.dropWhile_cons, if_neg ht]

/-- An expression of a program and what follows it. -/
theorem fromExpression_tracks {begun : List Token → Prop} (ts : List Token)
    (hbegun : ∀ us, Begun .expression us → begun us)
    (hrest : ∀ us e mid, ts = us ++ mid → Derives .expression us e →
      Tracks (fun ts => whole (programRest limits ts)) (fun vs => begun (us ++ vs)) mid) :
    Tracks (fromExpression limits) begun ts := by
  obtain ⟨hsound, -⟩ := nested_sound limits limits.depth
  obtain ⟨htracked, -⟩ := nested_tracked limits limits.depth
  refine ((htracked ts).mono hbegun).andThen fun us e mid hts he => ?_
  exact (hrest us e.tree mid hts (hsound.taken he hts)).andThen fun _ _ _ _ _ => tracks_ok

/-- What follows the first expression of a program. -/
theorem programRest_tracks (ts : List Token) :
    Tracks (fun ts => whole (programRest limits ts)) BegunRest ts := by
  induction hn : ts.length using Nat.strongRecOn generalizing ts with
  | _ n ih =>
    cases ts with
    | nil => exact .nil (by rw [programRest_nil]; rfl) (tracks_ok (v := []))
    | cons t tail =>
      by_cases ht : t.isPunctuation ";" = true
      · obtain ⟨ss, hss, hsemicolons⟩ := append_skipSemicolons tail
        have hall : ∀ s ∈ t :: ss, s.isPunctuation ";" = true :=
          List.forall_mem_cons.mpr ⟨ht, hsemicolons⟩
        by_cases hskip : skipSemicolons tail = []
        · refine .takes (v := []) (List.append_nil _).symm fun rest' hhead => ?_
          obtain rfl := List.head?_eq_none_iff.mp hhead
          rw [List.append_nil, whole_programRest_cons, if_pos ht, if_pos hskip]
        · -- an expression behind the semicolons, and the rest behind it
          have hexpression : Tracks (fromExpression limits)
              (fun vs => BegunRest ((t :: ss) ++ vs)) (skipSemicolons tail) := by
            refine fromExpression_tracks _ (fun us hus => hus.rest (List.cons_ne_nil t ss) hall) ?_
            intro us e mid hmid he
            have hlt : mid.length < n := by
              rw [← hn, hss, hmid]
              simp only [List.length_cons, List.length_append]
              omega
            exact (ih _ hlt mid rfl).mono fun vs hvs => hvs.more (List.cons_ne_nil t ss) hall he
          have hread : ∀ ts', ts'.head? = (skipSemicolons tail).head? →
              whole (programRest limits ((t :: ss) ++ ts')) = fromExpression limits ts' := by
            intro ts' hhead
            have hts' : ts' ≠ [] := by
              rintro rfl
              exact hskip (List.head?_eq_none_iff.mp hhead.symm)
            rw [List.cons_append, whole_programRest_cons, if_pos ht,
              skipSemicolons_append hsemicolons, skipSemicolons_of_head? hhead, if_neg hts']
          have hwhole : Tracks (fun ts => whole (programRest limits ts)) BegunRest
              ((t :: ss) ++ skipSemicolons tail) := .shift (t :: ss) hread hexpression
          rwa [List.cons_append, ← hss] at hwhole
      · exact tracks_unexpected (fun tail => by rw [whole_programRest_cons, if_neg ht])
          begunRest_nil

/-- **The parser is tracked.** -/
theorem program_tracks (limits : Limits) (ts : List Token) :
    Tracks (fun ts => whole (program limits ts)) BegunProgram ts := by
  refine .congr ?_ fun ts => whole_program
  refine fromExpression_tracks ts (fun us hus => hus.program) fun us e mid hts he => ?_
  exact (programRest_tracks mid).mono fun vs hvs => hvs.program he

/-! ## Failures -/

/-- Tokens can be put behind the given ones so that all are read as a program, within all limits
that are no less than their number. -/
def Completable (ts : List Token) : Prop :=
  ∃ us p, ∀ limits : Limits, (ts ++ us).length ≤ limits.depth →
    (ts ++ us).length ≤ limits.height → program limits (ts ++ us) = .ok p

/-- The tokens are not read as a program whatever follows them, within any limits. -/
def Hopeless (ts : List Token) : Prop :=
  ∀ us limits p, program limits (ts ++ us) ≠ .ok p

/-- What begins a program can be completed. -/
theorem completable_of_begun {ts : List Token} (h : BegunProgram ts) : Completable ts := by
  obtain ⟨us, p, h⟩ := h
  exact ⟨us, p, fun limits => program_of_derives h⟩

/-- The failure of a parse is that of its answer. -/
theorem whole_eq_error {x : Except ParseError Program} {e : ParseError} :
    whole x = .error e ↔ x = .error e := by
  cases x with
  | error e' => exact ⟨fun h => congrArg _ (Except.error.inj h), fun h => congrArg whole h⟩
  | ok p => exact ⟨nofun, nofun⟩

/-- A failure within some limits, other than for a limit, leaves no success within any others. -/
theorem program_ne_ok_of_error {limits limits' : Limits} {ts : List Token} {e : ParseError}
    (h : program limits ts = .error e) (he : ∀ n, e ≠ .tooDeep n) (p : Program) :
    program limits' ts ≠ .ok p := by
  intro hok
  let both : Limits := ⟨max limits.depth limits'.depth, max limits.height limits'.height⟩
  have hfails : program both ts = program limits ts :=
    program_of_le (Nat.le_max_left _ _) (Nat.le_max_left _ _)
      fun n hn => he n (Except.error.inj (h.symm.trans hn))
  have hsucceeds : program both ts = program limits' ts :=
    program_of_le (Nat.le_max_right _ _) (Nat.le_max_right _ _) (by rw [hok]; exact nofun)
  rw [hsucceeds, hok, h] at hfails
  cases hfails

/-- What a failure of the parser is: it names no token, and all of them begin a program; or it
names a token behind the beginning of a program, whatever comes after that token; or it is one for
a limit. -/
theorem program_fails {limits : Limits} {ts : List Token} {e : ParseError}
    (h : program limits ts = .error e) : (e.found? = none ∧ BegunProgram ts) ∨
      (∃ us t rest, ts = us ++ t :: rest ∧ e.found? = some ⟨t.text, t.pos⟩ ∧ BegunProgram us ∧
        ∀ rest', program limits (us ++ t :: rest') = .error e) ∨
      ∃ n, e = .tooDeep n := by
  have hwhole := whole_eq_error.mpr h
  cases program_tracks limits ts with
  | @takes us rest v split steady =>
    have hsucceeds := steady rest rfl
    rw [← split, hwhole] at hsucceeds
    cases hsucceeds
  | ends fails names here =>
    obtain rfl := Except.error.inj (hwhole.symm.trans fails)
    exact .inl ⟨names, here⟩
  | @blames us rest t e' split names here fails =>
    have hfails := fails rest
    rw [← split] at hfails
    obtain rfl := Except.error.inj (hwhole.symm.trans hfails)
    have hsame : ∀ rest', program limits (us ++ t :: rest') = .error e :=
      fun rest' => whole_eq_error.mp (fails rest')
    exact .inr (.inl ⟨us, t, rest, split, names, here, hsame⟩)
  | stops fails => exact .inr (.inr ⟨_, Except.error.inj (hwhole.symm.trans fails)⟩)

/-- A failure that names a token: up to the token the program can be completed, and with it it
cannot. -/
theorem program_names {limits : Limits} {ts : List Token} {e : ParseError} {f : Found}
    (h : program limits ts = .error e) (hnames : e.found? = some f) :
    ∃ us t rest, ts = us ++ t :: rest ∧ f = ⟨t.text, t.pos⟩ ∧ Completable us ∧
      Hopeless (us ++ [t]) := by
  obtain ⟨hnone, -⟩ | ⟨us, t, rest, split, hsome, hbegun, hfails⟩ | ⟨n, rfl⟩ := program_fails h
  · rw [hnone] at hnames
    cases hnames
  · have hf : f = ⟨t.text, t.pos⟩ := Option.some.inj (hnames.symm.trans hsome)
    have hnotLimit : ∀ n, e ≠ .tooDeep n := by
      rintro n rfl
      cases hnames
    refine ⟨us, t, rest, split, hf, completable_of_begun hbegun, fun vs limits' p => ?_⟩
    rw [List.append_assoc]
    exact program_ne_ok_of_error (hfails vs) hnotLimit p
  · cases hnames

/-- A failure that names no token is one for a limit, or the tokens can be completed. -/
theorem program_unnamed {limits : Limits} {ts : List Token} {e : ParseError}
    (h : program limits ts = .error e) (hnames : e.found? = none) :
    (∃ n, e = .tooDeep n) ∨ Completable ts := by
  obtain ⟨-, hbegun⟩ | ⟨us, t, rest, -, hsome, -⟩ | hlimit := program_fails h
  · exact .inr (completable_of_begun hbegun)
  · rw [hsome] at hnames
    cases hnames
  · exact .inl hlimit

/-- Where positions increase, a token is known by its own. -/
theorem index_eq_of_pos_eq {ts : List Token} (h : ts.Pairwise fun t t' => t.pos < t'.pos)
    {i j : Nat} (hi : i < ts.length) (hj : j < ts.length) (hpos : ts[i].pos = ts[j].pos) :
    i = j := by
  have hnodup : (ts.map Token.pos).Nodup := List.pairwise_map.mpr (h.imp Nat.ne_of_lt)
  have hi' : i < (ts.map Token.pos).length := by rwa [List.length_map]
  have hj' : j < (ts.map Token.pos).length := by rwa [List.length_map]
  have hmapped : (ts.map Token.pos)[i] = (ts.map Token.pos)[j] := by
    rwa [List.getElem_map, List.getElem_map]
  exact (List.getElem_inj hnodup).mp hmapped

/-- **A parse fails at the first token that cannot be gone on with.**  If the error names a token,
the tokens before it can be completed to a program and those up to it, with it, cannot; where
positions increase it is the only token with its position.  If the error is that tokens are
missing, all of them can be completed. -/
theorem program_blames (limits : Limits) (ts : List Token) :
    (∀ f, (program limits ts = .error (.unexpectedToken f) ∨
        ∃ what, program limits ts = .error (.expected what (some f))) →
      ∃ i, ∃ h : i < ts.length, f = ⟨ts[i].text, ts[i].pos⟩ ∧ Completable (ts.take i) ∧
        Hopeless (ts.take (i + 1)) ∧
        (ts.Pairwise (fun t t' => t.pos < t'.pos) →
          ∀ j, ∀ hj : j < ts.length, ts[j].pos = f.pos → j = i)) ∧
    ((program limits ts = .error .incompleteExpression ∨
        ∃ what, program limits ts = .error (.expected what none)) → Completable ts) := by
  constructor
  · intro f hf
    obtain ⟨e, he, hnames⟩ : ∃ e, program limits ts = .error e ∧ e.found? = some f := by
      rcases hf with h | ⟨what, h⟩
      · exact ⟨_, h, rfl⟩
      · exact ⟨_, h, rfl⟩
    obtain ⟨us, t, rest, rfl, rfl, hbefore, hwith⟩ := program_names he hnames
    have hlt : us.length < (us ++ t :: rest).length := by simp
    have hat : (us ++ t :: rest)[us.length] = t := by simp
    have htake : (us ++ t :: rest).take (us.length + 1) = us ++ [t] := by
      rw [List.take_length_add_append]
      rfl
    refine ⟨us.length, hlt, ?_, ?_, ?_, fun hincreasing j hj hpos => ?_⟩
    · rw [hat]
    · rwa [List.take_left]
    · rwa [htake]
    · refine index_eq_of_pos_eq hincreasing hj hlt ?_
      rw [hat]
      exact hpos
  · intro hf
    obtain ⟨e, he, hnames, hnotLimit⟩ : ∃ e, program limits ts = .error e ∧ e.found? = none ∧
        ∀ n, e ≠ .tooDeep n := by
      rcases hf with h | ⟨what, h⟩
      · exact ⟨_, h, rfl, nofun⟩
      · exact ⟨_, h, rfl, nofun⟩
    rcases program_unnamed he hnames with ⟨n, hn⟩ | hcompletable
    · exact absurd hn (hnotLimit n)
    · exact hcompletable

/-- `f(a ; b` is blamed on its semicolon, behind which no program comes any more, and `f(a` wants
more tokens. -/
theorem program_blames_semicolon :
    let call : List Token := [⟨"f", .identifier, 0⟩, ⟨"(", .punctuation, 1⟩, ⟨"a", .identifier, 2⟩]
    let semicolon : Token := ⟨";", .punctuation, 4⟩
    let ts := call ++ [semicolon, ⟨"b", .identifier, 6⟩]
    program ⟨64, 256⟩ ts = .error (.expected ")" (some ⟨";", 4⟩)) ∧
      program ⟨64, 256⟩ call = .error (.expected ")" none) ∧
      ts.Pairwise (fun t t' => t.pos < t'.pos) ∧ Completable call ∧
      Hopeless (call ++ [semicolon]) := by
  intro call semicolon ts
  have hts : program ⟨64, 256⟩ ts = .error (.expected ")" (some ⟨";", 4⟩)) := by
    with_unfolding_all rfl
  have hcall : program ⟨64, 256⟩ call = .error (.expected ")" none) := by
    with_unfolding_all rfl
  have hincreasing : ts.Pairwise (fun t t' => t.pos < t'.pos) := by decide
  obtain ⟨i, hi, -, -, hhopeless, honly⟩ :=
    (program_blames ⟨64, 256⟩ ts).1 ⟨";", 4⟩ (.inr ⟨_, hts⟩)
  obtain rfl : 3 = i := honly hincreasing 3 (by decide) rfl
  exact ⟨hts, hcall, hincreasing, (program_blames ⟨64, 256⟩ call).2 (.inr ⟨_, hcall⟩), hhopeless⟩

end ExprSandbox.Parser
