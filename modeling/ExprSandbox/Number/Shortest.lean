import ExprSandbox.Number.Basic
import ExprSandbox.Number.Decimal

/-!
# The shortest decimal that reads back

A finite float is written with the fewest digits that read back as the same float.  For 1, 2, …
17 digits the two neighbours of the value on that decimal grid are tried: the first grid on which
one of them reads back wins, of two that do the nearer is taken, and the upper one when both are
equally near.  A whole number of at most fifteen or sixteen digits needs no search, because every
other decimal of no more digits is another integer.
-/

namespace ExprSandbox.Decimal

/-- A positive rational number `num / den`. -/
structure Ratio where
  num : Nat
  den : Nat
  deriving DecidableEq, Repr

namespace Ratio

/-- The number `m · 2 ^ e`. -/
def ofBinary (m : Nat) (e : Int) : Ratio :=
  if 0 ≤ e then ⟨m * Nat.pow 2 e.toNat, 1⟩ else ⟨m, Nat.pow 2 (-e).toNat⟩

/-- The number divided by `10 ^ g`. -/
def scale (r : Ratio) (g : Int) : Ratio :=
  if 0 ≤ g then ⟨r.num, r.den * Nat.pow 10 g.toNat⟩ else ⟨r.num * Nat.pow 10 (-g).toNat, r.den⟩

/-- The greatest power of ten that is not above the number. -/
def magnitude (r : Ratio) : Int :=
  if r.den ≤ r.num then (Nat.toDigits 10 (r.num / r.den)).length - 1
  else - ((Nat.toDigits 10 ((r.den - 1) / r.num)).length : Int)

end Ratio

/-- The decimal that equals `m · 2 ^ e`. -/
def exact (m : Nat) (e : Int) : Decimal :=
  if 0 ≤ e then ⟨m * Nat.pow 2 e.toNat, 0⟩ else ⟨m * Nat.pow 5 (-e).toNat, e⟩

/-- The neighbours of a number among the multiples of `10 ^ g`, the nearer one first and the
upper one when both are equally near. -/
def neighbours (r : Ratio) (g : Int) : List Decimal :=
  let s := r.scale g
  let lower := (Decimal.mk (s.num / s.den) g).strip
  let upper := (Decimal.mk (s.num / s.den + 1) g).strip
  if 2 * (s.num % s.den) < s.den then [lower, upper] else [upper, lower]

/-- The decimals that are tried for a number, grid by grid from one digit to seventeen. -/
def candidates (r : Ratio) : List Decimal :=
  (List.range 17).flatMap fun n : Nat => neighbours r (r.magnitude - n)

/-- The shortest decimal that reads back as the positive float `x`, which is `m · 2 ^ e`. -/
def shortestOf (x : Float) (m : Nat) (e : Int) : Decimal :=
  match (Number.safeWhole? x).map Int.toNat with
  | some n => (Decimal.mk n 0).strip
  | none => ((candidates (.ofBinary m e)).find? (fun d => d.toFloat = x)).getD (exact m e)

/-- The shortest decimal that reads back as the magnitude of a float; zero, the infinities and
the value that is no number give `0`. -/
def shortest (x : Float) : Decimal :=
  match x.toModel.unpack with
  | .finite _ m e _ => shortestOf x.abs m e
  | _ => ⟨0, 0⟩

end ExprSandbox.Decimal
