import Fluxion.Proofs.Shape
import Mathlib.Analysis.SpecialFunctions.Arcosh
import Mathlib.Analysis.SpecialFunctions.Arsinh
import Mathlib.Analysis.SpecialFunctions.Artanh
import Mathlib.Analysis.SpecialFunctions.Pow.Real
import Mathlib.Analysis.SpecialFunctions.Trigonometric.Arctan
import Mathlib.Analysis.SpecialFunctions.Trigonometric.Inverse

/-!
# The exact meaning of a tree

A tree over the reals means a real number under a valuation of its variables, or nothing. Literals
mean themselves and an operation means the real function it is named after, on the whole of its
natural domain: a quotient is undefined at the denominator zero only, a logarithm is the quotient of
two natural logarithms, and the inverse cotangent is `π / 2 - arctan`. None of the guards of
evaluation are here; this is the yardstick for what a derivative should be.

* `Operation.Domain₂` and `Operation.Domain₁` are the domains, `Operation.real₂` and
  `Operation.real₁` the functions.
* `Tree.meaning` is the number that a tree means.
-/

namespace Fluxion

open Real

/-- The constants of the rules of differentiation, without rounding. -/
noncomputable instance : Coefficient ℝ where
  ofNat n := n
  half := 1 / 2
  minusOne := -1
  pred c := c - 1

/-- A real number that is a whole number. -/
def IsWhole (c : ℝ) : Prop := ∃ n : ℤ, c = n

/-! ## The operations as partial real functions -/

namespace Operation

/-- Where an operation of two arguments has a value. A negative base needs a whole exponent, and zero
has no negative power. -/
def Domain₂ : Operation → ℝ → ℝ → Prop
  | add, _, _ => True
  | sub, _, _ => True
  | mul, _, _ => True
  | div, _, b => b ≠ 0
  | pow, a, b => 0 < a ∨ a < 0 ∧ IsWhole b ∨ a = 0 ∧ 0 ≤ b
  | log, a, b => 0 < a ∧ a ≠ 1 ∧ 0 < b
  | _, _, _ => False

/-- What an operation of two arguments computes on its domain. -/
noncomputable def real₂ : Operation → ℝ → ℝ → ℝ
  | add, a, b => a + b
  | sub, a, b => a - b
  | mul, a, b => a * b
  | div, a, b => a / b
  | pow, a, b => a ^ b
  | log, a, b => Real.log b / Real.log a
  | _, _, _ => 0

/-- Where an operation of one argument has a value. -/
def Domain₁ : Operation → ℝ → Prop
  | sin, _ => True
  | cos, _ => True
  | tan, x => Real.cos x ≠ 0
  | cot, x => Real.sin x ≠ 0
  | sinh, _ => True
  | cosh, _ => True
  | arcsin, x => -1 ≤ x ∧ x ≤ 1
  | arccos, x => -1 ≤ x ∧ x ≤ 1
  | arctan, _ => True
  | arccot, _ => True
  | arsinh, _ => True
  | arccosh, x => 1 ≤ x
  | artanh, x => -1 < x ∧ x < 1
  | ln, x => 0 < x
  | _, _ => False

/-- What an operation of one argument computes on its domain. -/
noncomputable def real₁ : Operation → ℝ → ℝ
  | sin, x => Real.sin x
  | cos, x => Real.cos x
  | tan, x => Real.tan x
  | cot, x => Real.cos x / Real.sin x
  | sinh, x => Real.sinh x
  | cosh, x => Real.cosh x
  | arcsin, x => Real.arcsin x
  | arccos, x => Real.arccos x
  | arctan, x => Real.arctan x
  | arccot, x => π / 2 - Real.arctan x
  | arsinh, x => Real.arsinh x
  | arccosh, x => Real.arcosh x
  | artanh, x => Real.artanh x
  | ln, x => Real.log x
  | _, _ => 0

open Classical in
/-- The value of an operation of two arguments, if it has one. -/
noncomputable def apply₂ (op : Operation) (a b : ℝ) : Option ℝ :=
  if op.Domain₂ a b then some (op.real₂ a b) else none

open Classical in
/-- The value of an operation of one argument, if it has one. -/
noncomputable def apply₁ (op : Operation) (x : ℝ) : Option ℝ :=
  if op.Domain₁ x then some (op.real₁ x) else none

theorem apply₂_of_domain {op : Operation} {a b : ℝ} (h : op.Domain₂ a b) :
    op.apply₂ a b = some (op.real₂ a b) :=
  if_pos h

theorem apply₁_of_domain {op : Operation} {x : ℝ} (h : op.Domain₁ x) :
    op.apply₁ x = some (op.real₁ x) :=
  if_pos h

/-- A square has a value everywhere. -/
theorem domain_square (a : ℝ) : pow.Domain₂ a 2 := by
  rcases lt_trichotomy a 0 with h | h | h
  · exact .inr (.inl ⟨h, 2, by norm_num⟩)
  · exact .inr (.inr ⟨h, by norm_num⟩)
  · exact .inl h

end Operation

/-! ## Meaning -/

namespace Tree

/-- The real number that a tree means, if it means one. -/
noncomputable def meaning (ρ : Name → ℝ) : Tree ℝ → Option ℝ
  | absent => none
  | literal c => some c
  | var n => some (ρ n)
  | binary op l r =>
    match op.resolveArity 2, l.meaning ρ, r.meaning ρ with
    | some o, some a, some b => o.apply₂ a b
    | _, _, _ => none
  | unary op x =>
    match op.resolveArity 1, x.meaning ρ with
    | some o, some a => o.apply₁ a
    | _, _ => none

variable {ρ : Name → ℝ}

theorem meaning_binary {op : Operator} {o : Operation} {l r : Tree ℝ} {a b : ℝ}
    (ho : op.resolveArity 2 = some o) (hl : l.meaning ρ = some a) (hr : r.meaning ρ = some b) :
    (binary op l r).meaning ρ = o.apply₂ a b := by
  rw [meaning, ho, hl, hr]

theorem meaning_unary {op : Operator} {o : Operation} {x : Tree ℝ} {a : ℝ}
    (ho : op.resolveArity 1 = some o) (hx : x.meaning ρ = some a) :
    (unary op x).meaning ρ = o.apply₁ a := by
  rw [meaning, ho, hx]

/-- The meaning of an operation of two operands inside its domain. -/
theorem meaning_apply₂ {o : Operation} {l r : Tree ℝ} {a b : ℝ} (ho : o.arity = 2)
    (hl : l.meaning ρ = some a) (hr : r.meaning ρ = some b) (hd : o.Domain₂ a b) :
    (apply₂ o l r).meaning ρ = some (o.real₂ a b) := by
  rw [apply₂, meaning_binary (Operator.resolveArity_known ho) hl hr, Operation.apply₂_of_domain hd]

/-- The meaning of an operation of one operand inside its domain. -/
theorem meaning_apply₁ {o : Operation} {x : Tree ℝ} {a : ℝ} (ho : o.arity = 1)
    (hx : x.meaning ρ = some a) (hd : o.Domain₁ a) :
    (apply₁ o x).meaning ρ = some (o.real₁ a) := by
  rw [apply₁, meaning_unary (Operator.resolveArity_known ho) hx, Operation.apply₁_of_domain hd]

end Tree

end Fluxion
