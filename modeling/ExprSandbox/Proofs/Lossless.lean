import ExprSandbox.Proofs.Offsets

/-!
# Tokens and their source

What the tokens of a source say about it (`Lexed`): each text is the slice of the source at its
position, the slices stand in order and apart from each other, only blanks stand between them, none
of them could be longer, and each of them is the only token of its own text.
-/

namespace ExprSandbox.Lexer

/-! ## Offsets -/

/-- A byte offset cuts a source in one way. -/
theorem append_inj_of_byteWidth {before before' after after' : List Char}
    (h : before ++ after = before' ++ after') (hwidth : byteWidth before = byteWidth before') :
    before = before' ∧ after = after' := by
  have hnil : ∀ {cs ds : List Char}, byteWidth cs = byteWidth (cs ++ ds) → ds = [] := by
    intro cs ds hds
    rw [byteWidth_append] at hds
    cases ds with
    | nil => rfl
    | cons d ds =>
      have hpos := Char.utf8Size_pos d
      rw [byteWidth] at hds
      omega
  rcases List.append_eq_append_iff.mp h with ⟨ds, rfl, rfl⟩ | ⟨ds, rfl, rfl⟩
  · obtain rfl := hnil hwidth
    simp
  · obtain rfl := hnil hwidth.symm
    simp

/-- A source that is cut before a slice. -/
theorem toList_eq_append {source before text after : String}
    (h : source = before ++ text ++ after) :
    source.toList = before.toList ++ (text.toList ++ after.toList) := by
  rw [h, String.toList_append, String.toList_append, List.append_assoc]

/-! ## Tokens in a row -/

section Lexes

variable {pos : Nat} {cs : List Char} {ts : List Token}

/-- No token begins before the row does. -/
theorem Lexes.le_pos (h : Lexes pos cs ts) : ∀ t ∈ ts, pos ≤ t.pos := by
  induction h with
  | done => simp
  | blank _ _ ih => exact fun t ht => Nat.le_trans (Nat.le_add_right _ _) (ih t ht)
  | token _ _ _ ih =>
    intro t ht
    rcases List.mem_cons.mp ht with rfl | ht
    · exact Nat.le_refl _
    · exact Nat.le_trans (Nat.le_add_right _ _) (ih t ht)

/-- A token is spelled where it stands, and ends there. -/
theorem Lexes.spelled (h : Lexes pos cs ts) : ∀ t ∈ ts, ∃ before after,
    cs = before ++ (t.text.toList ++ after) ∧ pos + byteWidth before = t.pos ∧
      Spells t.text.toList t.kind ∧ Ends t.text.toList after := by
  induction h with
  | done => simp
  | @blank pos c cs ts _ _ ih =>
    intro t ht
    obtain ⟨before, after, rfl, hpos, hspells, hends⟩ := ih t ht
    refine ⟨c :: before, after, rfl, ?_, hspells, hends⟩
    rw [byteWidth, ← Nat.add_assoc, hpos]
  | @token pos text rest kind ts spells ends _ ih =>
    intro t ht
    rcases List.mem_cons.mp ht with rfl | ht
    · refine ⟨[], rest, ?_, rfl, ?_, ?_⟩
      all_goals rw [String.toList_ofList]
      · rfl
      · exact spells
      · exact ends
    · obtain ⟨before, after, rfl, hpos, hspells, hends⟩ := ih t ht
      refine ⟨text ++ before, after, (List.append_assoc _ _ _).symm, ?_, hspells, hends⟩
      rw [byteWidth_append, ← Nat.add_assoc, hpos]

/-- Every cut at a token is the one where the token is spelled. -/
theorem Lexes.spelled_at (h : Lexes pos cs ts) {t : Token} (ht : t ∈ ts)
    {before after : List Char} (hcut : cs = before ++ after)
    (hwidth : pos + byteWidth before = t.pos) : ∃ rest, after = t.text.toList ++ rest ∧
      Spells t.text.toList t.kind ∧ Ends t.text.toList rest := by
  obtain ⟨before', rest, hsplit, hpos, hspells, hends⟩ := h.spelled t ht
  have hbefore : byteWidth before = byteWidth before' :=
    Nat.add_left_cancel (hwidth.trans hpos.symm)
  obtain ⟨-, rfl⟩ := append_inj_of_byteWidth (hcut.symm.trans hsplit) hbefore
  exact ⟨rest, rfl, hspells, hends⟩

/-- A token ends before the next one begins. -/
theorem Lexes.apart (h : Lexes pos cs ts) :
    ts.Pairwise fun t u => t.pos + t.text.utf8ByteSize ≤ u.pos := by
  induction h with
  | done => exact .nil
  | blank _ _ ih => exact ih
  | token _ _ tail ih =>
    refine .cons (fun u hu => ?_) ih
    rw [← byteWidth_toList, String.toList_ofList]
    exact tail.le_pos u hu

/-- A character that is in no token is a blank. -/
theorem Lexes.blank_of_gap (h : Lexes pos cs ts) (before : List Char) {after : List Char}
    {c : Char} (hcut : cs = before ++ c :: after)
    (hgap : ∀ t ∈ ts, pos + byteWidth before < t.pos ∨
      t.pos + t.text.utf8ByteSize ≤ pos + byteWidth before) : isBlank c = true := by
  induction h generalizing before with
  | done => simp at hcut
  | @blank pos d cs ts blank _ ih =>
    cases before with
    | nil =>
      obtain ⟨rfl, -⟩ := List.cons.inj hcut
      exact blank
    | cons b before =>
      obtain ⟨rfl, rfl⟩ := List.cons.inj hcut
      refine ih before rfl ?_
      rw [Nat.add_assoc]
      exact hgap
  | @token pos text rest kind ts spells _ _ ih =>
    have hfirst := hgap _ List.mem_cons_self
    rw [← byteWidth_toList, String.toList_ofList] at hfirst
    rcases List.append_eq_append_iff.mp hcut with ⟨ds, rfl, rfl⟩ | ⟨ds, hds, hrest⟩
    · -- the character stands behind the first token
      refine ih ds rfl fun t ht => ?_
      have hrest := hgap t (List.mem_cons_of_mem _ ht)
      rwa [byteWidth_append, ← Nat.add_assoc] at hrest
    · cases ds with
      | nil =>
        rw [List.append_nil] at hds
        subst hds
        exact ih [] hrest.symm fun t ht => hgap t (List.mem_cons_of_mem _ ht)
      | cons d ds =>
        -- the character would be one of the first token
        have hpos := Char.utf8Size_pos d
        rw [hds, byteWidth_append, byteWidth] at hfirst
        dsimp only at hfirst
        omega

end Lexes

/-- What is spelled as a name begins as names do. -/
theorem Spells.isIdentStart_of_identifier {text : List Char} {kind : TokenKind}
    (h : Spells text kind) (hkind : kind = .identifier) :
    ∃ c cs, text = c :: cs ∧ isIdentStart c = true := by
  cases h with
  | word start part => exact ⟨_, _, rfl, start⟩
  | punctuation mem => cases hkind
  | operator mem => cases hkind
  | number number => cases hkind
  | string opening body => cases hkind

/-- A keyword begins as names do. -/
theorem isIdentStart_of_ofKeyword? {s : String} (h : (Constant.ofKeyword? s).isSome = true) :
    ∃ c cs, s.toList = c :: cs ∧ isIdentStart c = true := by
  unfold Constant.ofKeyword? at h
  split at h
  · exact ⟨'t', _, rfl, rfl⟩
  · exact ⟨'f', _, rfl, rfl⟩
  · exact ⟨'n', _, rfl, rfl⟩
  · exact ⟨'u', _, rfl, rfl⟩
  · cases h

/-- A name or a keyword begins as names do. -/
theorem Spells.isIdentStart_of_isName {t : Token} (h : Spells t.text.toList t.kind)
    (hname : t.isName = true) : ∃ c cs, t.text.toList = c :: cs ∧ isIdentStart c = true := by
  rw [Token.isName, Bool.or_eq_true] at hname
  rcases hname with hkind | hkeyword
  · exact h.isIdentStart_of_identifier (of_decide_eq_true hkind)
  · exact isIdentStart_of_ofKeyword? hkeyword

/-- What the tokens of a source say about it. -/
structure Lexed (source : String) (ts : List Token) : Prop where
  /-- The text of a token is the slice of the source at its position. -/
  slice : ∀ t ∈ ts, ∃ before after, source = before ++ t.text ++ after ∧
    before.utf8ByteSize = t.pos
  /-- Positions increase. -/
  increasing : ts.Pairwise fun t u => t.pos < u.pos
  /-- A token ends before the next one begins. -/
  apart : ts.Pairwise fun t u => t.pos + t.text.utf8ByteSize ≤ u.pos
  /-- A character that is in no token is a blank. -/
  blank : ∀ before c after, source = before ++ String.singleton c ++ after →
    (∀ t ∈ ts, before.utf8ByteSize < t.pos ∨
      t.pos + t.text.utf8ByteSize ≤ before.utf8ByteSize) → isBlank c = true
  /-- A name or a keyword goes on to its last character. -/
  name : ∀ t ∈ ts, t.isName = true → ∀ before c after,
    source = before ++ t.text ++ (String.singleton c ++ after) → before.utf8ByteSize = t.pos →
      isIdentPart c = false
  /-- An operator is the longest one at its position. -/
  operator : ∀ t ∈ ts, t.text.toList ∈ operators → ∀ before after, source = before ++ after →
    before.utf8ByteSize = t.pos → ∀ op ∈ operators, op <+: after.toList →
      op.length ≤ t.text.toList.length
  /-- The text of a token alone is that token. -/
  alone : ∀ t ∈ ts, tokenize t.text = .ok [{ t with pos := 0 }]

/-- **The tokens of a source are its lexemes.** -/
theorem Lexes.lexed {source : String} {ts : List Token} (h : Lexes 0 source.toList ts) :
    Lexed source ts := by
  refine ⟨?slice, ?increasing, h.apart, ?blank, ?name, ?operator, ?alone⟩
  case slice =>
    intro t ht
    obtain ⟨before, after, hsplit, hpos, -⟩ := h.spelled t ht
    refine ⟨String.ofList before, String.ofList after, ?_, ?_⟩
    · rw [← String.toList_inj, hsplit]
      simp
    · rw [← byteWidth_toList, String.toList_ofList, ← hpos, Nat.zero_add]
  case increasing =>
    refine h.apart.imp_of_mem fun {t u} ht _ hle => ?_
    obtain ⟨-, -, -, -, hspells, -⟩ := h.spelled t ht
    have hpos := hspells.byteWidth_pos
    rw [byteWidth_toList] at hpos
    omega
  case blank =>
    intro before c after hsource hgap
    have hsplit : source.toList = before.toList ++ c :: after.toList := by
      simp [toList_eq_append hsource]
    refine h.blank_of_gap before.toList hsplit ?_
    rw [byteWidth_toList, Nat.zero_add]
    exact hgap
  case name =>
    intro t ht hname before c after hsource hwidth
    rw [← byteWidth_toList, ← Nat.zero_add (byteWidth _)] at hwidth
    obtain ⟨rest, hrest, hspells, hends⟩ := h.spelled_at ht (toList_eq_append hsource) hwidth
    obtain rfl := List.append_cancel_left hrest
    obtain ⟨d, cs, htext, hstart⟩ := hspells.isIdentStart_of_isName hname
    rw [htext] at hends
    exact (ends_word hstart).mp hends c (by simp)
  case operator =>
    intro t ht hmem before after hsource hwidth op hop hprefix
    rw [← byteWidth_toList, ← Nat.zero_add (byteWidth _)] at hwidth
    have hsplit : source.toList = before.toList ++ after.toList := by
      rw [hsource, String.toList_append]
    obtain ⟨rest, hrest, -, hends⟩ := h.spelled_at ht hsplit hwidth
    rw [hrest] at hprefix
    exact (ends_operator hmem).mp hends op hop hprefix
  case alone =>
    intro t ht
    obtain ⟨-, -, -, -, hspells, -⟩ := h.spelled t ht
    have hscan : scan 0 (t.text.toList ++ []) = _ := scan_spelled hspells (ends_nil _)
    rw [List.append_nil, scan, String.ofList_toList] at hscan
    exact hscan

/-- **Lexing is lossless, maximal and total.**  Every source is scanned by byte offsets without a
cut inside a character, and the tokens it has, if it has any, are its lexemes. -/
theorem tokenize_lossless (source : String) :
    Cursor.tokenize? source = some (tokenize source) ∧
      ∀ ts, tokenize source = .ok ts → Lexed source ts :=
  ⟨Cursor.tokenize?_eq source, fun _ h => (scan_eq_ok_iff.mp h).lexed⟩

/-- A name stands behind a string and a blank that both have characters of more than one byte. -/
theorem tokenize_lossless_wide :
    tokenize "'é'\u00a0<=a" = .ok [⟨"'é'", .literal (.string "é"), 0⟩, ⟨"<=", .punctuation, 6⟩,
        ⟨"a", .identifier, 8⟩] ∧
      Lexed "'é'\u00a0<=a" [⟨"'é'", .literal (.string "é"), 0⟩, ⟨"<=", .punctuation, 6⟩,
        ⟨"a", .identifier, 8⟩] := by
  have h : tokenize "'é'\u00a0<=a" = .ok [⟨"'é'", .literal (.string "é"), 0⟩,
      ⟨"<=", .punctuation, 6⟩, ⟨"a", .identifier, 8⟩] := by with_unfolding_all rfl
  exact ⟨h, (tokenize_lossless _).2 _ h⟩

end ExprSandbox.Lexer
