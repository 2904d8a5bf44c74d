/-!
# Scalars

Trees carry literals of a type of scalars. Doubles are the scalars of the running library; the
definitions only use the operations below, so the same definitions also speak about exact numbers.

* `Coefficient` is what the rules of differentiation write into a tree: whole numbers, a half, minus
  one, and the predecessor of an exponent.
* `Scalar` adds the arithmetic and the elementary functions that evaluation needs, together with the
  comparisons on which its guards rest. `nan` is the value of anything outside a domain.
-/

namespace Fluxion

/-- The constants of the rules of differentiation. -/
class Coefficient (κ : Type) where
  ofNat : Nat → κ
  half : κ
  minusOne : κ
  pred : κ → κ

/-- Scalars that expressions can be evaluated in. -/
class Scalar (κ : Type) extends Coefficient κ where
  nan : κ
  threshold : κ
  quarterTurn : κ
  add : κ → κ → κ
  sub : κ → κ → κ
  mul : κ → κ → κ
  div : κ → κ → κ
  pow : κ → κ → κ
  abs : κ → κ
  log : κ → κ
  sin : κ → κ
  cos : κ → κ
  tan : κ → κ
  sinh : κ → κ
  cosh : κ → κ
  arcsin : κ → κ
  arccos : κ → κ
  arctan : κ → κ
  arsinh : κ → κ
  arccosh : κ → κ
  artanh : κ → κ
  isNaN : κ → Bool
  isFinite : κ → Bool
  isWhole : κ → Bool
  eq : κ → κ → Bool
  lt : κ → κ → Bool
  le : κ → κ → Bool

namespace Scalar

variable {κ : Type} [Scalar κ]

/-- The scalar nought. -/
def zero : κ := Coefficient.ofNat 0

/-- The scalar one. -/
def one : κ := Coefficient.ofNat 1

/-- Whether `a` lies closer to `b` than `tolerance`. -/
def near (tolerance a b : κ) : Bool := lt (abs (sub a b)) tolerance

end Scalar

end Fluxion
