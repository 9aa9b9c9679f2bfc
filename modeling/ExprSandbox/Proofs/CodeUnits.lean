import ExprSandbox.Proofs.Decoding
import ExprSandbox.Proofs.Indices

/-!
# Characters under indices

A string has as many members as code units, each a string of one character.  A unit that is half of
a pair is no character of its own: the members in order are the string with two replacement
characters for each character that is a pair (`map_charOfUnit_units`, `get_string`).
-/

namespace ExprSandbox

namespace Utf16

/-! ## Units one by one -/

/-- The character itself where it is one unit, and a replacement character for each half of a
pair. -/
def lossyChar (c : Char) : List Char :=
  if c.toNat < 0x10000 then [c] else [replacement, replacement]

/-- The text with two replacement characters for each character above `U+FFFF`. -/
def lossy (s : String) : String :=
  String.ofList (s.toList.flatMap lossyChar)

/-- A text without characters above `U+FFFF` loses nothing. -/
theorem lossy_eq_self {s : String} (h : ∀ c ∈ s.toList, c.toNat < 0x10000) : lossy s = s := by
  have hchars : s.toList.flatMap lossyChar = s.toList.flatMap ([·]) :=
    List.flatMap_congr fun c hc => if_pos (h c hc)
  rw [lossy, hchars, List.flatMap_singleton', String.ofList_toList]

/-- The units of a character, each on its own. -/
theorem map_charOfUnit_ofChar (c : Char) : (ofChar c).map charOfUnit = lossyChar c := by
  obtain ⟨hhigh, hlow⟩ := Quoted.not_surrogate c
  have hvalid : c.toNat < 0xD800 ∨ 0xDFFF < c.toNat ∧ c.toNat < 0x110000 := c.valid
  unfold ofChar lossyChar
  split
  · simp [charOfUnit, hhigh, hlow]
  · have hfirst : isHigh (0xD800 + (c.toNat - 0x10000) / 0x400) = true := by
      simp only [isHigh, Bool.and_eq_true, decide_eq_true_eq]
      omega
    have hsecond : isLow (0xDC00 + (c.toNat - 0x10000) % 0x400) = true := by
      simp only [isLow, Bool.and_eq_true, decide_eq_true_eq]
      omega
    simp [charOfUnit, hfirst, hsecond]

/-- **The units of a text, each on its own**, are the text with its pairs replaced. -/
theorem map_charOfUnit_units (s : String) :
    (units s).map charOfUnit = (lossy s).toList := by
  rw [units, lossy, String.toList_ofList, List.map_flatMap]
  exact List.flatMap_congr fun c _ => map_charOfUnit_ofChar c

/-- A character above `U+FFFF` is two units, and any other one. -/
theorem length_ofChar (c : Char) : (ofChar c).length = 1 + if 0x10000 ≤ c.toNat then 1 else 0 := by
  unfold ofChar
  rcases Nat.lt_or_ge c.toNat 0x10000 with h | h
  · rw [if_pos h, if_neg (Nat.not_le.mpr h)]
    rfl
  · rw [if_neg (Nat.not_lt.mpr h), if_pos h]
    rfl

/-- A text is as long as it has characters, those above `U+FFFF` counted twice. -/
theorem length_eq (s : String) :
    length s = s.toList.length + s.toList.countP (0x10000 ≤ ·.toNat) := by
  rw [length, units]
  induction s.toList with
  | nil => rfl
  | cons c cs ih =>
    rw [List.flatMap_cons, List.length_append, ih, length_ofChar, List.length_cons,
      List.countP_cons]
    simp only [decide_eq_true_eq]
    omega

/-- A text without its surrogates is as long as the text. -/
theorem length_lossy (s : String) : (lossy s).toList.length = length s := by
  rw [← map_charOfUnit_units, List.length_map, length]

end Utf16

namespace Value

/-! ## Reads of strings -/

section Text

variable {s name : String} {i : Nat}

/-- Under the digits of an index a string reads the unit on its own. -/
theorem get_string_of_lt (hi : i < (Utf16.lossy s).toList.length) :
    get (.string s) (Nat.repr i) = .string (String.singleton (Utf16.lossy s).toList[i]) := by
  have hunit : ((Utf16.units s)[i]?).map Utf16.charOfUnit = some (Utf16.lossy s).toList[i] := by
    rw [← List.getElem?_map, Utf16.map_charOfUnit_units, List.getElem?_eq_getElem hi]
  obtain ⟨unit, hunit, hchar⟩ := Option.map_eq_some_iff.mp hunit
  rw [get, if_neg (repr_ne_length i), index?_repr, Option.bind_some, hunit, Option.map_some,
    Option.getD_some, hchar]

/-- Under any other name than that of its length a string reads nothing. -/
theorem get_string_of_ne (hlength : name ≠ "length")
    (h : ∀ i < Utf16.length s, name ≠ Nat.repr i) : get (.string s) name = .undefined := by
  rw [get, if_neg hlength, index?_bind_eq_none h]
  rfl

/-- The characters under all indices, one after the other. -/
theorem join_get_string (s : String) :
    String.join ((List.range (Utf16.length s)).map fun i => (get (.string s) (Nat.repr i)).text) =
      Utf16.lossy s := by
  -- index by index, so that no place of a character has to be found
  have hchars : ((List.range (Utf16.length s)).map fun i => (get (.string s) (Nat.repr i)).text) =
      (Utf16.lossy s).toList.map String.singleton := by
    refine List.ext_getElem (by simp [Utf16.length_lossy]) fun i hi hi' => ?_
    rw [List.length_map] at hi'
    rw [List.getElem_map, List.getElem_map, List.getElem_range, get_string_of_lt hi']
    rfl
  rw [← String.toList_inj, String.toList_join, hchars, List.flatMap_map]
  simp

end Text

/-- **The members of a string are its UTF-16 code units.**  Its length is the number of them, where
a character above `U+FFFF` counts twice.  Under the digits of each index stands a string of one
character, and these are in order the string with two replacement characters for each character
above `U+FFFF`: the string itself where there are none.  Every other name than `length`, digits of
an index beyond the last one, with a sign or with zeros before them included, gives `undefined`. -/
theorem get_string (s : String) :
    get (.string s) "length" = .number (Number.ofNat (Utf16.length s)) ∧
    Utf16.length s = s.toList.length + s.toList.countP (0x10000 ≤ ·.toNat) ∧
    (∀ i < Utf16.length s, ∃ c, get (.string s) (Nat.repr i) = .string (String.singleton c)) ∧
    String.join ((List.range (Utf16.length s)).map fun i =>
      (get (.string s) (Nat.repr i)).text) = Utf16.lossy s ∧
    ((∀ c ∈ s.toList, c.toNat < 0x10000) → Utf16.lossy s = s) ∧
    ∀ name, name ≠ "length" → (∀ i < Utf16.length s, name ≠ Nat.repr i) →
      get (.string s) name = .undefined := by
  refine ⟨rfl, Utf16.length_eq s, fun i hi => ?_, join_get_string s, Utf16.lossy_eq_self,
    fun _ => get_string_of_ne⟩
  rw [← Utf16.length_lossy] at hi
  exact ⟨_, get_string_of_lt hi⟩

/-- A string with a character of two units, read under an index, behind its end and under padded
digits, and one without such a character. -/
theorem get_string_astral :
    (1 < Utf16.length "a😀" ∧
      ∃ c, get (.string "a😀") (Nat.repr 1) = .string (String.singleton c)) ∧
    String.join ((List.range (Utf16.length "a😀")).map fun i =>
      (get (.string "a😀") (Nat.repr i)).text) = "a\uFFFD\uFFFD" ∧
    ((∀ c ∈ "ab".toList, c.toNat < 0x10000) ∧ Utf16.lossy "ab" = "ab") ∧
    ("3" ≠ "length" ∧ (∀ i < Utf16.length "a😀", "3" ≠ Nat.repr i) ∧
      get (.string "a😀") "3" = .undefined) ∧
    "01" ≠ "length" ∧ (∀ i < Utf16.length "a😀", "01" ≠ Nat.repr i) ∧
      get (.string "a😀") "01" = .undefined := by
  have hlength : Utf16.length "a😀" = 3 := by decide
  have hindex : 1 < Utf16.length "a😀" := by decide
  have hplain : ∀ c ∈ "ab".toList, c.toNat < 0x10000 := by simp
  have hend : ∀ i < Utf16.length "a😀", "3" ≠ Nat.repr i := by
    rw [hlength]
    decide
  have hpadded : ∀ i < Utf16.length "a😀", "01" ≠ Nat.repr i := by
    rw [hlength]
    decide
  have hlossy : Utf16.lossy "a😀" = "a\uFFFD\uFFFD" := by decide
  obtain ⟨-, -, hunit, hjoin, -, hother⟩ := get_string "a😀"
  exact ⟨⟨hindex, hunit 1 hindex⟩, hjoin.trans hlossy,
    ⟨hplain, (get_string "ab").2.2.2.2.1 hplain⟩,
    ⟨by decide, hend, hother "3" (by decide) hend⟩,
    by decide, hpadded, hother "01" (by decide) hpadded⟩

end Value

end ExprSandbox
