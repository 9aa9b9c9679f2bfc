import ExprSandbox.Proofs.Depth
import ExprSandbox.Proofs.Lossless
import ExprSandbox.Proofs.ObjectLiterals
import ExprSandbox.Proofs.Printing

/-!
# Literals as keys

A number or a string is written before a colon and between square brackets by the same lexeme, and
both times it names the same member (`writtenAs_iff`).  So a property that is written under such a
literal is found under it (`evaluate_object_literal`), however the literal is spelled.
-/

namespace ExprSandbox

open Lexer ExprSandbox.Parser

/-! ## Keys -/

/-- The text is one lexeme that is the key, with blanks around it or not. -/
def PropertyKey.WrittenAs (key : PropertyKey) (text : String) : Prop :=
  ∃ t, tokenize text = .ok [t] ∧ DerivesKey t key

/-- The constant is a number or a string, which may be written as the key of a property. -/
def Constant.IsKey : Constant → Prop
  | .number _ => True
  | .string _ => True
  | _ => False

section Keys

variable {t u : Token} {text text' : String} {p : Constant} {key : PropertyKey}

/-- A text that is one lexeme is the lexeme wherever it stands. -/
theorem Lexer.lexes_of_tokenize (h : tokenize text = .ok [t]) (pos : Nat) :
    Lexes pos text.toList [t.shift pos] := by
  have hscan := scan_add pos 0 text.toList
  rw [← tokenize, h] at hscan
  exact scan_eq_ok_iff.mp hscan

/-- A text that is one lexeme spells it. -/
theorem Lexer.spells_of_tokenize (h : tokenize text = .ok [t]) : Spells t.text.toList t.kind := by
  obtain ⟨-, -, -, -, hspells, -⟩ := (scan_eq_ok_iff.mp h).spelled t (List.mem_singleton.mpr rfl)
  exact hspells

/-- A lexeme is of one kind. -/
theorem Lexer.Spells.unique {cs : List Char} {kind kind' : TokenKind} (h : Spells cs kind)
    (h' : Spells cs kind') : kind = kind' := by
  have htokens := scan_eq_ok_iff.mpr (Lexes.single h 0)
  rw [scan_eq_ok_iff.mpr (Lexes.single h' 0)] at htokens
  have htoken := (List.cons.inj (Except.ok.inj htokens)).1
  exact (congrArg Token.kind htoken).symm

/-- No keyword is a number or a string. -/
theorem Constant.not_isKey_of_ofKeyword? {word : String} (h : ofKeyword? word = some p) :
    ¬ p.IsKey := by
  unfold ofKeyword? at h
  split at h
  · exact Option.some.inj h ▸ id
  · exact Option.some.inj h ▸ id
  · exact Option.some.inj h ▸ id
  · exact Option.some.inj h ▸ id
  · cases h

/-- A number or a string is no name. -/
theorem isName_of_isKey (hspells : Spells t.text.toList t.kind) (hkind : t.kind = .literal p)
    (hp : p.IsKey) : t.isName = false := by
  rw [← Bool.not_eq_true]
  intro hname
  obtain ⟨c, cs, htext, hstart⟩ := hspells.isIdentStart_of_isName hname
  obtain ⟨hdigit, hpoint, hquote, -⟩ := word_head hstart
  rw [htext, hkind] at hspells
  -- of what starts like a name only a keyword is a literal, and it is neither number nor string
  generalize hliteral : TokenKind.literal p = kind at hspells
  cases hspells with
  | punctuation mem => cases hliteral
  | operator mem => cases hliteral
  | word start part =>
    rw [wordKind] at hliteral
    split at hliteral
    · next value hkeyword =>
      obtain rfl := TokenKind.literal.inj hliteral
      exact Constant.not_isKey_of_ofKeyword? hkeyword hp
    · cases hliteral
  | number number =>
    have hstarts := number.starts []
    rw [List.append_nil, starts_eq_false hdigit hpoint] at hstarts
    cases hstarts
  | string opening body => exact hquote opening

/-- The key that a number or a string is. -/
theorem derivesKey_iff (hspells : Spells t.text.toList t.kind) (hkind : t.kind = .literal p)
    (hp : p.IsKey) : DerivesKey t key ↔ key = .literal p.key := by
  have hname := isName_of_isKey hspells hkind hp
  have hvalue : t.value? = some p := by rw [Token.value?, hkind]
  constructor
  · intro h
    cases h with
    | name h => exact absurd h (Bool.eq_false_iff.mp hname)
    | string _ value =>
      obtain rfl := Option.some.inj (hvalue.symm.trans value)
      rfl
    | number _ value =>
      obtain rfl := Option.some.inj (hvalue.symm.trans value)
      rfl
  · rintro rfl
    cases p with
    | number x => exact .number hname hvalue
    | string s => exact .string hname hvalue
    | _ => exact hp.elim

/-- **A number or a string is the key of one name**, the one by which it addresses members,
whatever lexeme it is. -/
theorem PropertyKey.writtenAs_iff (h : tokenize text = .ok [t]) (hkind : t.kind = .literal p)
    (hp : p.IsKey) (h' : tokenize text' = .ok [u]) (htext : u.text = t.text) :
    key.WrittenAs text' ↔ key = .literal p.key := by
  have hspells := spells_of_tokenize h
  have hspells' := spells_of_tokenize h'
  -- the two lexemes may stand in different places, but their spelling decides the kind
  have hkind' : u.kind = .literal p := by
    rw [← hkind]
    exact (htext ▸ hspells').unique hspells
  rw [← derivesKey_iff hspells' hkind' hp]
  constructor
  · rintro ⟨t', ht', hkey⟩
    obtain rfl := (List.cons.inj (Except.ok.inj (ht'.symm.trans h'))).1
    exact hkey
  · exact fun hkey => ⟨u, h', hkey⟩

end Keys

/-! ## Sources -/

/-- A key and a value as they are written on the two sides of a colon. -/
def WritesProperty (texts : String × String) (property : PropertyKey × Expression) : Prop :=
  property.1.WrittenAs texts.1 ∧ Prints .expression texts.2.toList property.2

/-- An object literal of properties that are written so, with a comma between each two. -/
def objectText (texts : List (String × String)) : String :=
  "\x7b" ++ ",".intercalate (texts.map fun text => text.1 ++ ":" ++ text.2) ++ "\x7d"

section Sources

variable {t : Token} {text k : String} {rest : List Char} {key : PropertyKey} {e : Expression}
variable {ps : List (PropertyKey × Expression)} {p : Constant}

/-- A token is the same key wherever it stands. -/
theorem DerivesKey.shift (h : DerivesKey t key) (n : Nat) : DerivesKey (t.shift n) key := by
  cases h with
  | name h => exact .name (t := t.shift n) h
  | string h value => exact .string h value
  | number h value => exact .number h value

/-- A key and a colon before a row of lexemes. -/
theorem PropertyKey.WrittenAs.lexes (h : key.WrittenAs text) (pos : Nat) : ∃ u c n,
    DerivesKey u key ∧ c.isPunctuation ":" = true ∧ ∀ {cs ts}, Lexes n cs ts →
      Lexes pos (text.toList ++ ':' :: cs) (u :: c :: ts) := by
  obtain ⟨t, ht, hkey⟩ := h
  exact ⟨_, _, _, hkey.shift pos, isPunctuation_text ":" _, fun hlexes =>
    (lexes_of_tokenize ht pos).append (.punctuation (by decide) (by decide) hlexes)
      (separates_head (by decide))⟩

/-- What is written stands among the properties. -/
theorem exists_property {texts : List (String × String)} (h : List.Forall₂ WritesProperty texts ps)
    {text : String × String} (hmem : text ∈ texts) :
    ∃ property ∈ ps, WritesProperty text property := by
  induction h with
  | nil => cases hmem
  | @cons first property texts ps hfirst rest ih =>
    rcases List.mem_cons.mp hmem with rfl | hrest
    · exact ⟨property, List.mem_cons_self, hfirst⟩
    · obtain ⟨found, hfound, hwrites⟩ := ih hrest
      exact ⟨found, List.mem_cons_of_mem _ hfound, hwrites⟩

/-- **Properties that are written one by one** are properties with commas between them. -/
theorem prints_properties {texts : List (String × String)}
    (h : List.Forall₂ WritesProperty texts ps) : Prints .properties
      (",".intercalate (texts.map fun text => text.1 ++ ":" ++ text.2)).toList ps := by
  induction h with
  | nil => exact .noProperties
  | @cons text property texts ps first rest ih =>
    intro pos
    obtain ⟨u, c, n, hkey, hcolon, hrow⟩ := first.1.lexes pos
    obtain ⟨ts, hlexes, hvalue⟩ := first.2 n
    cases rest with
    | nil =>
      rw [List.map_singleton, String.intercalate_singleton]
      simp only [String.toList_append, List.append_assoc]
      exact ⟨_, hrow hlexes, .lastProperty hkey hcolon hvalue⟩
    | cons second rest =>
      obtain ⟨us, hlexes', hmore⟩ := ih (n + byteWidth text.2.toList + byteWidth [','])
      rw [List.map_cons, List.map_cons, String.intercalate_cons_cons]
      simp only [String.toList_append, List.append_assoc]
      exact ⟨_, hrow (hlexes.append (.punctuation (by decide) (by decide) hlexes')
        (separates_head (by decide))),
        .property hkey hcolon hvalue (isPunctuation_text _ _) hmore⟩

/-- A text that is one literal prints it. -/
theorem prints_literal (h : tokenize k = .ok [t]) (hkind : t.kind = .literal p) :
    Prints .expression k.toList (.literal p) :=
  fun pos => ⟨_, lexes_of_tokenize h pos,
    .plain (derives_chain (.operand (.primary (.literal (t := t.shift pos) hkind))) _)⟩

/-- An expression in square brackets behind a phrase is a computed key. -/
theorem prints_member {cs : List Char} {property : Expression} (h : Prints .primary rest e)
    (hkey : Prints .expression cs property) :
    Prints .expression (rest ++ '[' :: (cs ++ [']'])) (.member e property true) := by
  intro pos
  obtain ⟨ts, hlexes, hbase⟩ := h pos
  obtain ⟨us, hlexes', hproperty⟩ := hkey (pos + byteWidth rest + byteWidth ['['])
  have hbracket : Spells [']'] .punctuation := .punctuation (by decide)
  have hclose := Lexes.single hbracket (pos + byteWidth rest + byteWidth ['['] + byteWidth cs)
  exact ⟨_, hlexes.append (.punctuation (by decide) (by decide)
    (hlexes'.append hclose (separates_head (by decide)))) (separates_head (by decide)),
    .plain (derives_chain (.operand (.index (.primary hbase) (isPunctuation_text _ _) hproperty
      (isPunctuation_text _ _))) _)⟩

/-- An object literal that is read under a key. -/
theorem prints_objectText {texts : List (String × String)} {property : Expression}
    (h : List.Forall₂ WritesProperty texts ps) (hkey : Prints .expression k.toList property) :
    Prints .expression (objectText texts ++ "[" ++ k ++ "]").toList
      (.member (.object ps) property true) := by
  have hmember := prints_member (prints_properties h).object hkey
  simpa [objectText] using hmember

/-- A text that prints an expression compiles to the expression, unless a limit is met. -/
theorem Evaluator.ofSource_of_prints (h : Prints .expression text.toList e) (options : Options) :
    (∀ ev, ofSource options text = .ok ev → ev = ofProgram options.denied [e]) ∧
    (text.length ≤ options.limits.depth → text.length ≤ options.limits.height →
      ofSource options text = .ok (ofProgram options.denied [e])) := by
  obtain ⟨ts, hlexes, hderives⟩ := h 0
  have htokens : tokenize text = .ok ts := scan_eq_ok_iff.mpr hlexes
  have hrest : DerivesRest [] [] := .done nofun
  have hprogram := DerivesProgram.program hderives hrest
  rw [List.append_nil] at hprogram
  refine ⟨fun ev hev => ?_, fun hdepth hheight => ?_⟩
  · -- whatever is read within the limits has a derivation, and within greater limits there is one
    obtain ⟨ts', q, htokens', hq, rfl⟩ := ofSource_eq_ok_iff.mp hev
    obtain rfl := Except.ok.inj (htokens'.symm.trans htokens)
    have hread : Parser.program ⟨ts'.length, ts'.length⟩ ts' = .ok q :=
      program_of_derives (derives_of_program hq) (Nat.le_refl _) (Nat.le_refl _)
    rw [program_of_derives hprogram (Nat.le_refl _) (Nat.le_refl _)] at hread
    rw [Except.ok.inj hread]
  · have hlength : ts.length ≤ text.length := hlexes.length_le
    exact ofSource_eq_ok_iff.mpr ⟨ts, [e], htokens, program_of_derives hprogram
      (Nat.le_trans hlength hdepth) (Nat.le_trans hlength hheight), rfl⟩

end Sources

/-! ## Object literals -/

/-- **Object literals store and find keys alike.**  An object literal is read under a literal key
behind all that its values ask for, in their order, and the read gives what stands last under the
name of the key.  A source of an object literal and a computed key compiles to that read, whatever
properties are written in it.  A number or a string before a colon is a key with the name that the
same lexeme has between square brackets, so it is found there. -/
theorem Evaluator.evaluate_object_literal {σ : Type} (host : Host σ) (context : Option Value)
    (run : Nat) (s : σ) :
    (∀ denied ps p,
      ReadsLast denied (fun q => (ofProgram denied q).evaluate host context run s) ps p) ∧
    (∀ (options : Options) (texts : List (String × String))
      (ps : List (PropertyKey × Expression)) (k : String) (t : Token) (p : Constant),
      List.Forall₂ WritesProperty texts ps → tokenize k = .ok [t] → t.kind = .literal p →
      let source := objectText texts ++ "[" ++ k ++ "]"
      let ev := ofProgram options.denied [.member (.object ps) (.literal p) true]
      (∀ ev', ofSource options source = .ok ev' → ev' = ev) ∧
      (source.length ≤ options.limits.depth → source.length ≤ options.limits.height →
        ofSource options source = .ok ev) ∧
      (p.IsKey → ∀ text ∈ texts, (∃ u, tokenize text.1 = .ok [u] ∧ u.text = t.text) →
        p.key ∈ ps.map (·.1.name))) ∧
    ∀ (text text' : String) (t u : Token) (p : Constant), tokenize text = .ok [t] →
      t.kind = .literal p → p.IsKey → tokenize text' = .ok [u] → u.text = t.text →
      ∀ key : PropertyKey, key.WrittenAs text' ↔ key = .literal p.key := by
  refine ⟨fun denied ps p => evaluate_object_key denied host context run s ps p, ?_, ?_⟩
  · intro options texts ps k t p htexts hk hkind
    have hprints := prints_objectText htexts (prints_literal hk hkind)
    obtain ⟨hread, hcompiles⟩ := ofSource_of_prints hprints options
    refine ⟨hread, hcompiles, fun hp text htext ⟨u, hu, hlexeme⟩ => ?_⟩
    obtain ⟨property, hproperty, hwritten, -⟩ := exists_property htexts htext
    have hname := (PropertyKey.writtenAs_iff hk hkind hp hu hlexeme).mp hwritten
    exact List.mem_map.mpr ⟨property, hproperty, by rw [hname, PropertyKey.name]⟩
  · intro text text' t u p h hkind hp h' htext key
    exact PropertyKey.writtenAs_iff h hkind hp h' htext

/-- One name as a string and as a number, which is the computed key as well, with a property under
another name between them. -/
theorem Evaluator.evaluate_object_literal_respelled :
    let number (text : String) : Constant := .number (NumberLiteral.value text.toList)
    let texts := [("'1'", "10"), ("b", "30"), ("1.0", "20")]
    let ps : List (PropertyKey × Expression) := [(.literal "1", .literal (number "10")),
      (.identifier "b", .literal (number "30")), (.literal "1", .literal (number "20"))]
    let token : Token := ⟨"1.0", .literal (number "1.0"), 0⟩
    let member : Program := [.member (.object ps) (.literal (number "1.0")) true]
    let evaluate (q : Program) := (ofProgram .standard q).evaluate Host.recording none 0 []
    (List.Forall₂ WritesProperty texts ps ∧ tokenize "1.0" = .ok [token] ∧
      ofSource ⟨⟨64, 64⟩, .standard⟩ "\x7b'1':10,b:30,1.0:20\x7d[1.0]" =
        .ok (ofProgram .standard member) ∧ (number "1.0").key ∈ ps.map (·.1.name)) ∧
    ((number "1.0").IsKey ∧ PropertyKey.WrittenAs (.literal (number "1.0").key) "1.0") ∧
    (evaluate (ps.map Prod.snd)).outcome = .ok (.ofConstant (number "20")) ∧
      ReadsLast .standard evaluate ps (number "1.0") ∧
      (evaluate member).outcome = .ok (.ofConstant (number "20")) := by
  intro number texts ps token member evaluate
  have hkey : (number "1.0").key = "1" := by decide +kernel
  have htoken : tokenize "1.0" = .ok [token] := by with_unfolding_all rfl
  have hliteral (text : String) (c : Constant) (h : tokenize text = .ok [⟨text, .literal c, 0⟩]) :
      Prints .expression text.toList (.literal c) := prints_literal h rfl
  obtain ⟨hreads, hsource, hwritten⟩ := evaluate_object_literal Host.recording none 0 []
  have hnumber : PropertyKey.WrittenAs (.literal (number "1.0").key) "1.0" :=
    (hwritten "1.0" "1.0" token token _ htoken rfl trivial htoken rfl _).mpr rfl
  have htexts : List.Forall₂ WritesProperty texts ps := by
    refine .cons ⟨⟨⟨"'1'", .literal (.string "1"), 0⟩, by with_unfolding_all rfl, ?_⟩, ?_⟩
      (.cons ⟨⟨⟨"b", .identifier, 0⟩, by with_unfolding_all rfl, .name rfl⟩, ?_⟩
        (.cons ⟨hkey ▸ hnumber, ?_⟩ .nil))
    · exact .string (by decide) rfl
    · exact hliteral "10" _ (by with_unfolding_all rfl)
    · exact hliteral "30" _ (by with_unfolding_all rfl)
    · exact hliteral "20" _ (by with_unfolding_all rfl)
  obtain ⟨-, hcompiles, hfound⟩ :=
    hsource ⟨⟨64, 64⟩, .standard⟩ texts ps "1.0" token (number "1.0") htexts htoken rfl
  have hname := hfound trivial ("1.0", "20") (by simp [texts]) ⟨token, htoken, rfl⟩
  have hvalue : (evaluate (ps.map Prod.snd)).outcome = .ok (.ofConstant (number "20")) := rfl
  have htext : objectText texts ++ "[" ++ "1.0" ++ "]" = "\x7b'1':10,b:30,1.0:20\x7d[1.0]" := by
    decide
  rw [htext] at hcompiles
  refine ⟨⟨htexts, htoken, hcompiles (by decide) (by decide), hname⟩, ⟨trivial, hnumber⟩, hvalue,
    hreads .standard ps _, ?_⟩
  with_unfolding_all rfl

end ExprSandbox
