import ExprSandbox.Evaluator
import ExprSandbox.Proofs.Lossless
import ExprSandbox.Proofs.Numerals
import ExprSandbox.Proofs.Printing
import ExprSandbox.Proofs.Quoting

/-!
# Rendered operands

The text of an operand is read back as one expression: the operand itself, with names in the place
of the context and of the temporaries (`Program.ofSource_render`).  Three kinds of literals are
left out, because their texts stand for something else: a number that is not finite is written as a
name, one with a sign has its sign read as an operator, and a backspace is read back as the letter
`b`.
-/

namespace ExprSandbox

open Lexer ExprSandbox.Parser

/-! ## What is read back -/

/-- The literal of the constant stands for the constant. -/
def Constant.Readable : Constant → Prop
  | .number x => x.isFinite = true ∧ x.toBits.toNat < 2 ^ 63
  | .string s => '\x08' ∉ s.toList
  | _ => True

/-- The key of a property as it is read back: a name where it is written as one. -/
def PropertyKey.ofName (name : String) : PropertyKey :=
  if isIdentifier name then .identifier name else .literal name

namespace Operand

mutual
/-- Every literal of the operand and every key of its objects is read back. -/
def Readable : Operand → Prop
  | .literal value => value.Readable
  | .temp _ => True
  | .context => True
  | .array slots => ReadableSlots slots
  | .object entries => ReadableEntries entries
  | .unary _ argument => argument.Readable
  | .binary _ left right => left.Readable ∧ right.Readable

/-- Every slot of an array that is no hole is read back. -/
def ReadableSlots : List (Option Operand) → Prop
  | [] => True
  | none :: rest => ReadableSlots rest
  | some e :: rest => e.Readable ∧ ReadableSlots rest

/-- Every key and every value of an object is read back. -/
def ReadableEntries : List (String × Operand) → Prop
  | [] => True
  | (key, e) :: rest => '\x08' ∉ key.toList ∧ e.Readable ∧ ReadableEntries rest
end

mutual
/-- The operand as an expression. -/
def image : Operand → Expression
  | .literal value => .literal value
  | .temp index => .identifier (tempName index)
  | .context => .identifier contextName
  | .array slots => .array (imageSlots slots)
  | .object entries => .object (imageEntries entries)
  | .unary operator argument => .unary operator argument.image
  | .binary operator left right => .binary operator left.image right.image

/-- The slots of an array as elements. -/
def imageSlots : List (Option Operand) → List (Option Expression)
  | [] => []
  | none :: rest => none :: imageSlots rest
  | some e :: rest => some e.image :: imageSlots rest

/-- The entries of an object as properties. -/
def imageEntries : List (String × Operand) → List (PropertyKey × Expression)
  | [] => []
  | (key, e) :: rest => (.ofName key, e.image) :: imageEntries rest
end

end Operand

/-! ## Names and literals -/

/-- A name is spelled as a word. -/
theorem spells_word {s : String} (h : isIdentifier s = true) :
    Spells s.toList (wordKind s.toList) := by
  unfold isIdentifier at h
  split at h
  · cases h
  · next c cs htext =>
    rw [Bool.and_eq_true, List.all_eq_true] at h
    rw [htext]
    exact .word h.1 h.2

/-- The literal of a constant is spelled as a literal of the constant. -/
theorem Constant.spells_render {c : Constant} (h : c.Readable) :
    Spells c.render.toList (.literal c) := by
  cases c with
  | undefined => exact spells_word (s := "undefined") (by decide)
  | null => exact spells_word (s := "null") (by decide)
  | bool b =>
    cases b with
    | true => exact spells_word (s := "true") (by decide)
    | false => exact spells_word (s := "false") (by decide)
  | number x => exact Number.spells_text h.1 h.2
  | string s =>
    have hspells := Quoted.spells_quote s
    rwa [Quoted.map_readBack h] at hspells

/-- A name that begins as no keyword does. -/
theorem prints_identifier {name : String} (h : isIdentifier name = true)
    (hkeyword : Constant.ofKeyword? name = none) :
    Prints .unary name.toList (.identifier name) := by
  have hkind : wordKind name.toList = .identifier := by
    rw [wordKind, String.ofList_toList, hkeyword]
  have hspells := spells_word h
  rw [hkind] at hspells
  refine Prints.operand (.of_spells hspells fun pos => ?_)
  have hderives := Derives.identifier (t := ⟨name, .identifier, pos⟩) rfl
  rwa [String.ofList_toList]

/-- The characters of the name of a temporary. -/
theorem toList_tempName (index : Nat) : (tempName index).toList = 'v' :: Nat.toDigits 10 index := by
  simp [tempName, Nat.repr]

/-- The name of a temporary is a name, and no keyword. -/
theorem prints_temp (index : Nat) :
    Prints .unary (tempName index).toList (.identifier (tempName index)) := by
  refine prints_identifier ?_ ?_
  · have hpart : ∀ c ∈ Nat.toDigits 10 index, isIdentPart c = true := by
      intro c hc
      rw [isIdentPart, Numeral.isDigit_of_mem_toDigits hc, Bool.or_true]
    rw [isIdentifier, toList_tempName]
    exact List.all_eq_true.mpr hpart
  · have hhead : (tempName index).toList.head? = some 'v' := by
      rw [toList_tempName]
      rfl
    unfold Constant.ofKeyword?
    split
    case h_5 => rfl
    all_goals
      next heq =>
      rw [heq] at hhead
      exact absurd hhead (by decide)

/-- A quoted text is no keyword. -/
theorem ofKeyword?_quote (s : String) : (Constant.ofKeyword? (Quoted.quote s)).isSome = false := by
  rw [← Bool.not_eq_true]
  intro hkeyword
  obtain ⟨c, cs, htext, hstart⟩ := isIdentStart_of_ofKeyword? hkeyword
  rw [Quoted.toList_quote] at htext
  obtain rfl := (List.cons.inj htext).1
  cases hstart

/-- The key of a property is read back. -/
theorem printsKey {key : String} (h : '\x08' ∉ key.toList) :
    PrintsKey (keyText key).toList (.ofName key) := by
  unfold keyText PropertyKey.ofName
  by_cases hname : isIdentifier key = true
  · rw [if_pos hname, if_pos hname]
    refine ⟨_, spells_word hname, fun pos => ?_⟩
    rw [String.ofList_toList]
    refine .name (t := ⟨key, wordKind key.toList, pos⟩) ?_
    -- a keyword is a literal, and it may stand as a key all the same
    rw [Token.isName, Token.isIdentifier, wordKind, String.ofList_toList]
    cases Constant.ofKeyword? key <;> rfl
  · rw [if_neg hname, if_neg hname]
    have hspells := Quoted.spells_quote key
    rw [Quoted.map_readBack h] at hspells
    refine ⟨_, hspells, fun pos => ?_⟩
    rw [String.ofList_toList]
    exact .string (t := ⟨Quoted.quote key, .literal (.string key), pos⟩)
      (ofKeyword?_quote key) rfl

/-! ## Operands -/

namespace Operand

mutual
/-- **An operand prints its image.** -/
theorem prints : (o : Operand) → o.Readable → Prints .unary o.render.toList o.image
  | .literal value, h => by
    rw [render, image]
    exact .operand (.of_spells (Constant.spells_render h) fun pos => .literal rfl)
  | .temp index, _ => by
    rw [render, image]
    exact prints_temp index
  | .context, _ => by
    rw [render, image]
    exact prints_identifier (by decide) (by decide)
  | .array slots, h => by
    have harray := (printsSlots slots h).array.operand
    rw [render, image]
    simpa using harray
  | .object [], _ => by
    have hobject := Prints.noProperties.object.operand
    rw [render, image, imageEntries]
    simpa using hobject
  | .object (entry :: entries), h => by
    have hobject := (printsEntries (entry :: entries) h).blank.object.operand
    rw [render, image]
    · simpa using hobject
    · exact nofun
  | .unary operator argument, h => by
    have hargument := prints argument h
    rw [render, image]
    by_cases hunary : argument.isUnary = true
    · have hparentheses := hargument.expression.parentheses.operand.unary operator
      rw [if_pos hunary]
      simpa using hparentheses
    · rw [if_neg hunary, String.toList_append]
      exact hargument.unary operator
  | .binary operator left right, h => by
    have hbinary := ((prints left h.1).binary operator (prints right h.2)).parentheses.operand
    rw [render, image]
    simpa using hbinary

/-- The slots of an array print their elements. -/
theorem printsSlots : (slots : List (Option Operand)) → ReadableSlots slots →
    Prints .elements (renderSlots slots).toList (imageSlots slots)
  | [], _ => by
    rw [renderSlots, imageSlots]
    exact .noElements
  | [none], _ => by
    rw [renderSlots, imageSlots, imageSlots]
    exact .lastHole
  | [some e], h => by
    rw [renderSlots, imageSlots, imageSlots]
    exact (prints e h.1).lastElement
  | none :: slot :: rest, h => by
    have hslots := (printsSlots (slot :: rest) h).hole
    rw [renderSlots, imageSlots]
    · simpa using hslots
    · exact nofun
  | some e :: slot :: rest, h => by
    have hslots := (prints e h.1).element (printsSlots (slot :: rest) h.2)
    rw [renderSlots, imageSlots]
    · simpa using hslots
    · exact nofun

/-- The entries of an object print their properties. -/
theorem printsEntries : (entries : List (String × Operand)) → ReadableEntries entries →
    Prints .properties (renderEntries entries).toList (imageEntries entries)
  | [], _ => by
    rw [renderEntries, imageEntries]
    exact .noProperties
  | [(key, e)], h => by
    have hentries := (prints e h.2.1).lastProperty (printsKey h.1)
    rw [renderEntries, imageEntries, imageEntries]
    simpa using hentries
  | (key, e) :: entry :: rest, h => by
    have hentries := Prints.property (printsKey h.1) (prints e h.2.1)
      (printsEntries (entry :: rest) h.2.2)
    rw [renderEntries, imageEntries]
    · simpa using hentries
    · exact nofun
end

end Operand

/-- **A rendered operand is read back as one expression, its image.** -/
theorem Program.ofSource_render {o : Operand} (h : o.Readable) {limits : Limits}
    (hdepth : o.render.length ≤ limits.depth) (hheight : o.render.length ≤ limits.height) :
    Program.ofSource limits o.render = .ok [o.image] := by
  obtain ⟨ts, hlexes, hderives⟩ := (Operand.prints o h).expression 0
  have hlength : ts.length ≤ o.render.length := hlexes.length_le
  have hrest : DerivesRest [] [] := .done nofun
  have hprogram := DerivesProgram.program hderives hrest
  rw [List.append_nil] at hprogram
  have htokens : tokenize o.render = .ok ts := scan_eq_ok_iff.mpr hlexes
  rw [ofSource, htokens]
  show (Parser.program limits ts).mapError CompileError.parse = _
  rw [program_of_derives hprogram (Nat.le_trans hlength hdepth) (Nat.le_trans hlength hheight)]
  rfl

/-- Holes, a quoted key, a keyword as a key, and operators that need parentheses. -/
theorem Program.ofSource_render_nested :
    Program.ofSource ⟨64, 64⟩ "\x7b 'a b': [, 1.5, ,], true: -(!(v3 + s)) \x7d" =
      .ok [.object [
        (.literal "a b", .array [none, some (.literal (.number (Decimal.toFloat ⟨15, -1⟩))), none]),
        (.identifier "true",
          .unary .minus (.unary .not (.binary .add (.identifier "v3") (.identifier "s"))))]] := by
  have hnumber : Constant.Readable (.number (Decimal.toFloat ⟨15, -1⟩)) :=
    ⟨by decide +kernel, by decide +kernel⟩
  have hoperand : Operand.Readable (.object [
      ("a b", .array [none, some (.literal (.number (Decimal.toFloat ⟨15, -1⟩))), none]),
      ("true", .unary .minus (.unary .not (.binary .add (.temp 3) .context)))]) :=
    ⟨by decide, ⟨hnumber, trivial⟩, by decide, ⟨trivial, trivial⟩, trivial⟩
  have htext : Operand.render (.object [
      ("a b", .array [none, some (.literal (.number (Decimal.toFloat ⟨15, -1⟩))), none]),
      ("true", .unary .minus (.unary .not (.binary .add (.temp 3) .context)))]) =
        "\x7b 'a b': [, 1.5, ,], true: -(!(v3 + s)) \x7d" := by decide +kernel
  have h := @Program.ofSource_render _ hoperand ⟨64, 64⟩ (by rw [htext]; decide)
    (by rw [htext]; decide)
  rwa [htext] at h

end ExprSandbox
