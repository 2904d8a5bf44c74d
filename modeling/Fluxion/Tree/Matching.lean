import Fluxion.Scalar.Basic
import Fluxion.Tree.Basic

/-!
# Equality of trees up to a tolerance

Two trees match when they have the same shape, the same names, operators that compare equal, and
literals that are equal or closer than the tolerance. Two literals without a value match as well.

* `Tree.agrees` is the test.
* `Tree.isNear` is the test for a single literal.
-/

namespace Fluxion

namespace Tree

variable {κ : Type} [Scalar κ]

open Scalar

/-- Whether two literals match. -/
def literalsAgree (tolerance a b : κ) : Bool :=
  (isNaN a && isNaN b) || eq a b || near tolerance a b

/-- Whether two trees match. -/
def agrees (tolerance : κ) : Tree κ → Tree κ → Bool
  | absent, absent => true
  | literal a, literal b => literalsAgree tolerance a b
  | var m, var n => m = n
  | binary o l r, binary p l' r' => o.same p && l.agrees tolerance l' && r.agrees tolerance r'
  | unary o x, unary p x' => o.same p && x.agrees tolerance x'
  | _, _ => false

/-- Whether a tree is a literal closer to `value` than the tolerance. -/
def isNear (tolerance value : κ) : Tree κ → Bool
  | literal v => near tolerance v value
  | _ => false

end Tree

end Fluxion
