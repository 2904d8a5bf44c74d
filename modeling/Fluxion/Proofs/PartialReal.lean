import Fluxion.Proofs.Meaning
import Fluxion.Scalar.Kernel
import Mathlib

/-!
# Real numbers that may be undefined

A partial real is a real number or nothing. It takes the place of a scalar when evaluation is read
without rounding: nothing stands for `nan`, every function is the exact one on its natural domain and
gives nothing outside of it, and nothing is passed on. The guards of the kernel then work on exact
numbers, with their thresholds as they are.

* The instance of `Scalar` is the exact arithmetic.
* `Kernel.guardedBinary_eq_some` and `Kernel.guardedUnary_eq_some` say that the guarded kernel has a
  value at defined arguments only, and which one.
-/

namespace Fluxion

open Real

/-- A real number, or nothing. -/
abbrev PartialReal := Option ℝ

namespace PartialReal

/-- An operation of two arguments, undefined at undefined arguments. -/
noncomputable def apply₂ (op : Operation) : PartialReal → PartialReal → PartialReal
  | some a, some b => op.apply₂ a b
  | _, _ => none

/-- An operation of one argument, undefined at an undefined argument. -/
noncomputable def apply₁ (op : Operation) (x : PartialReal) : PartialReal := x.bind op.apply₁

open Classical in
/-- A comparison, which nothing undefined passes. -/
noncomputable def compare (rel : ℝ → ℝ → Prop) : PartialReal → PartialReal → Bool
  | some a, some b => decide (rel a b)
  | _, _ => false

end PartialReal

open Classical PartialReal in
/-- Exact arithmetic. -/
noncomputable instance : Scalar PartialReal where
  ofNat n := some (Coefficient.ofNat n)
  half := some Coefficient.half
  minusOne := some Coefficient.minusOne
  pred := Option.map Coefficient.pred
  nan := none
  threshold := some (1 / 10 ^ 10)
  quarterTurn := some (Coefficient.half * π)
  add := apply₂ .add
  sub := apply₂ .sub
  mul := apply₂ .mul
  div := apply₂ .div
  pow := apply₂ .pow
  abs := Option.map (|·|)
  log := apply₁ .ln
  sin := apply₁ .sin
  cos := apply₁ .cos
  tan := apply₁ .tan
  sinh := apply₁ .sinh
  cosh := apply₁ .cosh
  arcsin := apply₁ .arcsin
  arccos := apply₁ .arccos
  arctan := apply₁ .arctan
  arsinh := apply₁ .arsinh
  arccosh := apply₁ .arccosh
  artanh := apply₁ .artanh
  isNaN := Option.isNone
  isFinite := Option.isSome
  isWhole x := x.any fun c => decide (IsWhole c)
  eq := compare (· = ·)
  lt := compare (· < ·)
  le := compare (· ≤ ·)

namespace PartialReal

/-- The threshold as a number: a denominator nearer to zero than this counts as zero. -/
noncomputable def leastDenominator : ℝ := 1 / 10 ^ 10

theorem leastDenominator_pos : 0 < leastDenominator := by norm_num [leastDenominator]

variable {op : Operation} {x y z : PartialReal} {c : ℝ}

/-- An operation has a value at defined arguments only. -/
theorem apply₂_eq_some (h : apply₂ op x y = some c) :
    ∃ a b, x = some a ∧ y = some b ∧ c = op.real₂ a b := by
  cases x with
  | none => cases h
  | some a =>
    cases y with
    | none => cases h
    | some b =>
      refine ⟨a, b, rfl, rfl, ?_⟩
      simp only [apply₂, Operation.apply₂] at h
      split at h
      · exact (Option.some.inj h).symm
      · cases h

theorem apply₁_eq_some (h : apply₁ op x = some c) : ∃ a, x = some a ∧ c = op.real₁ a := by
  obtain ⟨a, rfl, ha⟩ := Option.bind_eq_some_iff.mp h
  refine ⟨a, rfl, ?_⟩
  simp only [Operation.apply₁] at ha
  split at ha
  · exact (Option.some.inj ha).symm
  · cases ha

theorem zero_eq : (Scalar.zero : PartialReal) = some 0 := congrArg some Nat.cast_zero

theorem one_eq : (Scalar.one : PartialReal) = some 1 := congrArg some Nat.cast_one

section Comparisons

variable {a b : ℝ}

theorem eq_some_iff : Scalar.eq (some a : PartialReal) (some b) = true ↔ a = b := decide_eq_true_iff

theorem lt_some_iff : Scalar.lt (some a : PartialReal) (some b) = true ↔ a < b := decide_eq_true_iff

theorem le_some_iff : Scalar.le (some a : PartialReal) (some b) = true ↔ a ≤ b := decide_eq_true_iff

end Comparisons

/-- Two numbers are near when they differ by less than the tolerance. -/
theorem near_iff {τ a b : ℝ} : Scalar.near (some τ) (some a) (some b) = true ↔ |a - b| < τ := by
  have hsub : apply₂ .sub (some a) (some b) = some (a - b) := Operation.apply₂_of_domain trivial
  have hnear : Scalar.near (some τ) (some a) (some b) =
      compare (· < ·) (Option.map (|·|) (apply₂ .sub (some a) (some b))) (some τ) := rfl
  rw [hnear, hsub]
  exact decide_eq_true_iff

end PartialReal

namespace Kernel

open PartialReal

variable {op : Operation} {x y : PartialReal} {c : ℝ}

theorem divide_eq_some (h : divide x y = some c) : ∃ a b, x = some a ∧ y = some b ∧ c = a / b := by
  unfold divide at h
  split at h
  · cases h
  · exact apply₂_eq_some h

theorem power_eq_some (h : power x y = some c) : ∃ a b, x = some a ∧ y = some b ∧ c = a ^ b := by
  unfold power at h
  split at h
  · cases h
  split at h
  · cases h
  split at h
  · cases h
  · exact apply₂_eq_some h

theorem logarithm_eq_some (h : logarithm x y = some c) :
    ∃ a b, x = some a ∧ y = some b ∧ c = Real.log b / Real.log a := by
  unfold logarithm at h
  split at h
  · cases h
  · obtain ⟨u, v, hu, hv, hc⟩ := apply₂_eq_some h
    obtain ⟨b, hb, rfl⟩ := apply₁_eq_some hu
    obtain ⟨a, ha, rfl⟩ := apply₁_eq_some hv
    exact ⟨a, b, ha, hb, hc⟩

/-- **What the guarded kernel computes**, wherever it has a value. -/
theorem guardedBinary_eq_some (h : guardedBinary op x y = some c) :
    ∃ a b, x = some a ∧ y = some b ∧ c = op.real₂ a b := by
  cases op with
  | add => exact apply₂_eq_some h
  | sub => exact apply₂_eq_some h
  | mul => exact apply₂_eq_some h
  | div => exact divide_eq_some h
  | pow => exact power_eq_some h
  | log => exact logarithm_eq_some h
  | _ => cases h

/-- An operation of one argument has a value at a defined argument only. -/
theorem guardedUnary_eq_some (h : guardedUnary op x = some c) : ∃ a, x = some a := by
  cases x with
  | none => cases h
  | some a => exact ⟨a, rfl⟩

end Kernel

end Fluxion
