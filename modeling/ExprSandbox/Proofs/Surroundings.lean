import ExprSandbox.Proofs.WellFormed

/-!
# Code around code

A piece of code stands somewhere in other code: behind some statements and before others, in a
block of a conditional that stands somewhere itself.  Surroundings are the rest of the code, with a
place in it that the piece fills.

The piece is *laid* in them when it shares no target with what is around it.  That can not be put
together from outside to inside alone, for the blocks of a conditional may share the target that the
conditional is for, and yet a piece of one block has its targets for itself (`Laid.consequent`,
`Laid.alternate`).
-/

namespace ExprSandbox

open Statement

/-- The targets of code are those of its first statement and those of the rest. -/
theorem Statement.assigns_cons {first : Statement} {rest : List Statement} {t : Nat} :
    Assigns (first :: rest) t ↔ Assigns [first] t ∨ Assigns rest t := by
  rw [← assigns_append, List.singleton_append]

/-! ## Surroundings -/

/-- What stands around a piece of code, which is `here`: other code of the same block, and the
conditionals whose blocks it is in. -/
inductive Surroundings where
  | here
  | sequence (before : List Statement) (inner : Surroundings) (after : List Statement)
  | consequent (test : Operand) (inner : Surroundings) (other : List Statement)
  | alternate (test : Operand) (other : List Statement) (inner : Surroundings)

namespace Surroundings

/-- The whole code, with the piece in it. -/
def fill (K : Surroundings) (code : List Statement) : List Statement :=
  match K with
  | here => code
  | sequence before inner after => before ++ (inner.fill code ++ after)
  | consequent test inner other => [.branch test (inner.fill code) other]
  | alternate test other inner => [.branch test other (inner.fill code)]

/-- The statements of the surroundings: all those of the whole that are none of the piece, apart
from the conditionals that the piece is inside of. -/
def others : Surroundings → List Statement
  | here => []
  | sequence before inner after => before ++ (inner.others ++ after)
  | consequent _ inner other => inner.others ++ other
  | alternate _ other inner => other ++ inner.others

/-- What is run behind the piece: the rest of its block, then the rest of the block around that
one, and so on. -/
def rest : Surroundings → List Statement
  | here => []
  | sequence _ inner after => inner.rest ++ after
  | consequent _ inner _ => inner.rest
  | alternate _ _ inner => inner.rest

/-- Surroundings within surroundings. -/
def around (K inner : Surroundings) : Surroundings :=
  match K with
  | here => inner
  | sequence before K after => sequence before (K.around inner) after
  | consequent test K other => consequent test (K.around inner) other
  | alternate test other K => alternate test other (K.around inner)

variable {K inner : Surroundings} {code : List Statement} {t : Nat}

/-- Surroundings within surroundings are filled from the inside. -/
theorem fill_around : (K.around inner).fill code = K.fill (inner.fill code) := by
  induction K with
  | here => rfl
  | sequence before K after ih => rw [around, fill, fill, ih]
  | consequent test K other ih => rw [around, fill, fill, ih]
  | alternate test other K ih => rw [around, fill, fill, ih]

/-- The targets of the whole are those of the piece and those of the surroundings. -/
theorem assigns_fill : Assigns (K.fill code) t ↔ Assigns code t ∨ Assigns K.others t := by
  induction K with
  | here => exact (or_iff_left not_assigns_nil).symm
  | sequence before K after ih =>
    simp only [fill, others, assigns_append, ih]
    tauto
  | consequent test K other ih =>
    simp only [fill, others, assigns_append, assigns_branch, ih]
    tauto
  | alternate test other K ih =>
    simp only [fill, others, assigns_append, assigns_branch, ih]
    tauto

/-- The targets of surroundings within surroundings. -/
theorem assigns_around :
    Assigns (K.around inner).others t ↔ Assigns K.others t ∨ Assigns inner.others t := by
  induction K with
  | here => exact (or_iff_right not_assigns_nil).symm
  | sequence before K after ih =>
    simp only [around, others, assigns_append, ih]
    tauto
  | consequent test K other ih =>
    simp only [around, others, assigns_append, ih]
    tauto
  | alternate test other K ih =>
    simp only [around, others, assigns_append, ih]
    tauto

/-- What is run behind the piece belongs to the surroundings. -/
theorem assigns_rest (h : Assigns K.rest t) : Assigns K.others t := by
  induction K with
  | here => exact h
  | sequence before K after ih =>
    rw [rest, assigns_append] at h
    rw [others, assigns_append, assigns_append]
    exact .inr (h.imp_left ih)
  | consequent test K other ih =>
    rw [others, assigns_append]
    exact .inl (ih h)
  | alternate test other K ih =>
    rw [others, assigns_append]
    exact .inr (ih h)

end Surroundings

/-! ## Pieces with targets of their own -/

/-- The whole is the part with `K` around it, and no temporary is a target both in the part and in
what is around it. -/
structure Laid (K : Surroundings) (part whole : List Statement) : Prop where
  code : whole = K.fill part
  apart : ∀ t, Assigns part t → ¬ Assigns K.others t

namespace Laid

variable {K K' : Surroundings} {inner part whole before after : List Statement}

/-- Code has nothing around it in itself. -/
theorem refl (code : List Statement) : Laid .here code code :=
  ⟨rfl, fun _ _ => not_assigns_nil⟩

/-- A part of a part. -/
theorem trans (h : Laid K part whole) (h' : Laid K' inner part) :
    Laid (K.around K') inner whole where
  code := by rw [Surroundings.fill_around, ← h'.code, h.code]
  apart t ht := by
    have hpart : Assigns part t := by
      rw [h'.code]
      exact Surroundings.assigns_fill.mpr (.inl ht)
    rw [Surroundings.assigns_around]
    exact not_or.mpr ⟨h.apart t hpart, h'.apart t ht⟩

/-- A part with other code before it and behind it. -/
theorem sequence (h : ∀ t, Assigns part t → ¬ (Assigns before t ∨ Assigns after t)) :
    Laid (.sequence before .here after) part (before ++ (part ++ after)) where
  code := rfl
  apart t ht := by
    rw [Surroundings.others, assigns_append]
    exact h t ht

/-- A part with other code behind it. -/
theorem first (h : ∀ t, Assigns part t → ¬ Assigns after t) :
    Laid (.sequence [] .here after) part (part ++ after) where
  code := rfl
  apart := h

/-- A part with other code before it. -/
theorem last (h : ∀ t, Assigns part t → ¬ Assigns before t) :
    Laid (.sequence before .here []) part (before ++ part) where
  code := by rw [Surroundings.fill, Surroundings.fill, List.append_nil]
  apart t ht := by
    rw [Surroundings.others, Surroundings.others, List.nil_append, List.append_nil]
    exact h t ht

/-- A part of the first block of a conditional, with other code behind it in the block. -/
theorem consequent {test : Operand} {other : List Statement}
    (h : ∀ t, Assigns part t → ¬ (Assigns before t ∨ Assigns after t ∨ Assigns other t)) :
    Laid (.sequence before (.consequent test (.sequence [] .here after) other) []) part
      (before ++ [.branch test (part ++ after) other]) where
  code := rfl
  apart t ht := by
    simp only [Surroundings.others, List.nil_append, List.append_nil, assigns_append]
    exact h t ht

/-- A part of the second block of a conditional, with other code behind it in the block. -/
theorem alternate {test : Operand} {other : List Statement}
    (h : ∀ t, Assigns part t → ¬ (Assigns before t ∨ Assigns other t ∨ Assigns after t)) :
    Laid (.sequence before (.alternate test other (.sequence [] .here after)) []) part
      (before ++ [.branch test other (part ++ after)]) where
  code := rfl
  apart t ht := by
    simp only [Surroundings.others, List.nil_append, List.append_nil, assigns_append]
    exact h t ht

end Laid

end ExprSandbox
