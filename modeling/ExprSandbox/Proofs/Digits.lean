import Mathlib.Data.Nat.Digits.Defs
import ExprSandbox.Text.CharClass

/-!
# Digits of a radix

Which characters spell which natural number in a radix (`SpellsInteger`).  The four digits of an
escape, the digits behind a radix prefix and decimal digits are read as the number that they spell.
-/

namespace ExprSandbox

/-- The characters are digits of the radix, and they spell the number. -/
def SpellsInteger (radix : Nat) (cs : List Char) (n : Nat) : Prop :=
  ∃ ds : List Nat, cs.map (radixDigit? radix) = ds.map some ∧ Nat.ofDigits radix ds.reverse = n

section SpellsInteger

variable {radix n : Nat} {cs : List Char}

/-- Digits spell one number. -/
theorem SpellsInteger.unique {m : Nat} (h : SpellsInteger radix cs m)
    (h' : SpellsInteger radix cs n) : m = n := by
  obtain ⟨ds, hds, rfl⟩ := h
  obtain ⟨es, hes, rfl⟩ := h'
  have hmap : ds.map some = es.map some := hds.symm.trans hes
  rw [(List.map_inj_right fun _ _ => Option.some.inj).mp hmap]

/-- No digits spell zero. -/
theorem spellsInteger_nil : SpellsInteger radix [] n ↔ n = 0 := by
  constructor
  · rintro ⟨ds, hds, rfl⟩
    obtain rfl : ds = [] := by simpa using hds.symm
    rfl
  · rintro rfl
    exact ⟨[], rfl, rfl⟩

/-- A further digit multiplies by the radix. -/
theorem ofDigits_reverse_concat (radix : Nat) (ds : List Nat) (d : Nat) :
    Nat.ofDigits radix (ds ++ [d]).reverse = Nat.ofDigits radix ds.reverse * radix + d := by
  rw [List.reverse_append, List.reverse_singleton, List.singleton_append, Nat.ofDigits_cons,
    Nat.mul_comm, Nat.add_comm]

/-- A further digit of a text multiplies by the radix. -/
theorem spellsInteger_concat {c : Char} : SpellsInteger radix (cs ++ [c]) n ↔
    ∃ m d, SpellsInteger radix cs m ∧ radixDigit? radix c = some d ∧ n = m * radix + d := by
  constructor
  · rintro ⟨ds, hds, rfl⟩
    rw [List.map_append, List.map_singleton] at hds
    obtain ⟨ds', last, rfl, hds', hlast⟩ := List.append_eq_map_iff.mp hds
    obtain ⟨d, rfl, hd⟩ := List.map_eq_singleton_iff.mp hlast
    exact ⟨_, d, ⟨ds', hds'.symm, rfl⟩, hd.symm, ofDigits_reverse_concat radix ds' d⟩
  · rintro ⟨m, d, ⟨ds, hds, rfl⟩, hd, rfl⟩
    refine ⟨ds ++ [d], ?_, ofDigits_reverse_concat radix ds d⟩
    rw [List.map_append, List.map_append, hds, List.map_singleton, List.map_singleton, hd]

end SpellsInteger

/-! ## Hexadecimal digits -/

/-- The hexadecimal digits are the characters that have a value. -/
theorem isSome_digitValue? (c : Char) : (digitValue? c).isSome = isHexDigit c := by
  unfold digitValue? isHexDigit
  split
  · simp [*]
  split
  · simp [*]
  split <;> simp_all

/-- The value of a digit is less than sixteen. -/
theorem digitValue?_lt {c : Char} {d : Nat} (h : digitValue? c = some d) : d < 16 := by
  have hle : ∀ a b : Char, a ≤ b ↔ a.toNat ≤ b.toNat := fun _ _ => Iff.rfl
  unfold digitValue? isDigit at h
  simp only [Bool.and_eq_true, decide_eq_true_eq, hle] at h
  split at h
  · next hc =>
    obtain rfl := Option.some.inj h
    exact Nat.lt_of_le_of_lt (Nat.sub_le_sub_right hc.2 _) (by decide)
  split at h
  · next hc =>
    obtain rfl := Option.some.inj h
    exact Nat.lt_of_le_of_lt (Nat.add_le_add_right (Nat.sub_le_sub_right hc.2 _) 10) (by decide)
  split at h
  · next hc =>
    obtain rfl := Option.some.inj h
    exact Nat.lt_of_le_of_lt (Nat.add_le_add_right (Nat.sub_le_sub_right hc.2 _) 10) (by decide)
  · cases h

/-- Every hexadecimal digit is a digit of the radix sixteen. -/
theorem radixDigit?_sixteen (c : Char) : radixDigit? 16 c = digitValue? c := by
  unfold radixDigit?
  cases h : digitValue? c with
  | none => rfl
  | some d => exact Option.filter_some_pos (decide_eq_true (digitValue?_lt h))

end ExprSandbox
