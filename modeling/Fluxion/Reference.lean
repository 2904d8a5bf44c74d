import Fluxion.Tree.Conversion
import Fluxion.Tree.Evaluation

/-!
# Comparing derivatives

A derivative is compared with a reference at a list of points. The reference comes from outside: an
algebra system is handed the expression, and gives its derivative as a function of the points. Points
where one of the two has no finite value are left out.

* `Reference.compare` is the comparison.
-/

namespace Fluxion

/-- The values of the derivative at all points, how many of them could be compared, and whether all
those lie within the tolerance of the reference. -/
structure Verdict (κ : Type) where
  ours : List κ
  compared : Nat
  agrees : Bool

/-- Where references come from: of an expression, the variable, the order of the derivative and the
values of the other variables, the derivative as a function of the points. -/
abbrev Oracle (κ : Type) := Tree κ → Name → Nat → Valuation κ → Except Fault (κ → κ)

namespace Reference

variable {κ : Type} [Scalar κ]

/-- Whether two values are within a tolerance of each other. -/
def within (tolerance a b : κ) : Bool := Scalar.le (Scalar.abs (Scalar.sub a b)) tolerance

/-- Compares the derivative `d` of order `n` of the expression `t` with the reference. -/
def compare (oracle : Oracle κ) (t d : Tree κ) (v : Name) (n : Nat) (points : List κ)
    (ρ : Valuation κ) (tolerance : κ) : Except Fault (Verdict κ) := do
  t.convertible
  let reference ← oracle t v n ρ
  let ours ← d.evaluateOn ρ v points
  let pairs := (ours.zip (points.map reference)).filter fun (a, b) =>
    Scalar.isFinite a && Scalar.isFinite b
  pure ⟨ours, pairs.length, !pairs.isEmpty && pairs.all fun (a, b) => within tolerance a b⟩

end Reference

end Fluxion
