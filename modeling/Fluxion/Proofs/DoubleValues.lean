import Fluxion.Proofs.Doubles
import Fluxion.Proofs.Meaning
import Fluxion.Scalar.Double

/-!
# The real numbers that doubles are

A finite double is a real number. Whatever is not finite stays so under multiplication: a product with
it is not finite either, and a quotient by it is a zero if it is finite at all.

* `Doubles.value` is the real number.
* `Doubles.isFinite_mul` and `Doubles.isZero_div` say how numbers that are not finite spread.
-/

namespace Fluxion

open Float.Model (UnpackedFloat Format)
open Float.Model.UnpackedFloat

/-- The real number that a finite double is; nought stands for the others. -/
noncomputable def Binary64.value : Binary64 → ℝ
  | finite negative m e => (if negative then -(m : ℝ) else m) * ((2 : ℕ) : ℝ) ^ e
  | _ => 0

theorem Binary64.value_finite (negative : Bool) (m : ℕ) (e : ℤ) :
    (finite negative m e).value = (if negative then -(m : ℝ) else m) * 2 ^ e := by
  rw [value, Nat.cast_ofNat]

namespace Doubles

/-- The real number that a finite double is; nought stands for the others. -/
noncomputable def value (x : Float) : ℝ := (Binary64.ofFloat x).value

/-- Both zeros are nought. -/
theorem value_of_isZero {x : Float} (h : (Binary64.ofFloat x).isZero = true) : value x = 0 := by
  rw [value]
  cases hx : Binary64.ofFloat x with
  | nan => rfl
  | infinite negative => rfl
  | finite negative m e =>
    rw [hx] at h
    have hm : m = 0 := eq_of_beq h
    rw [Binary64.value_finite, hm, Nat.cast_zero, neg_zero, ite_self, zero_mul]

/-- No other finite double is nought. -/
theorem value_ne_zero {x : Float} (hf : x.isFinite = true) (h : (Binary64.ofFloat x).isZero = false) :
    value x ≠ 0 := by
  have hfinite : x.toModel.unpack.isFinite = true := hf
  rw [value]
  rw [Binary64.ofFloat_eq] at h ⊢
  cases hx : x.toModel.unpack with
  | notANumber =>
    rw [hx] at hfinite
    cases hfinite
  | infinity s =>
    rw [hx] at hfinite
    cases hfinite
  | zero s =>
    rw [hx] at h
    cases h
  | finite s m e hm =>
    have hm' : (m : ℝ) ≠ 0 := Nat.cast_ne_zero.mpr (Nat.ne_of_gt hm)
    rw [Binary64.ofUnpacked, Binary64.value_finite]
    refine mul_ne_zero ?_ (zpow_ne_zero _ two_ne_zero)
    split
    · exact neg_ne_zero.mpr hm'
    · exact hm'

/-! ## Numbers that are not finite -/

theorem isNaN_iff {x : Float} : x.isNaN = true ↔ x.toModel.unpack = .notANumber := by
  have hmodel : x.isNaN = x.toModel.unpack.isNaN := rfl
  rw [hmodel]
  cases x.toModel.unpack with
  | notANumber => exact iff_of_true rfl rfl
  | _ => exact iff_of_false Bool.false_ne_true nofun

/-- What a number unpacks to after it was packed. -/
abbrev repacked (u : UnpackedFloat) : UnpackedFloat :=
  UnpackedFloat.unpack Format.binary64 (UnpackedFloat.pack Format.binary64 u)

theorem repacked_nan : repacked .notANumber = .notANumber := rfl

theorem repacked_infinity (s : Sign) : repacked (.infinity s) = .infinity s := by
  cases s <;> rfl

theorem repacked_zero (s : Sign) : repacked (.zero s) = .zero s := by
  cases s <;> rfl

theorem isFinite_eq (x : Float) : x.isFinite = x.toModel.unpack.isFinite := rfl

theorem unpack_mul (x y : Float) :
    (x * y).toModel.unpack = repacked (x.toModel.unpack.mul Format.binary64 y.toModel.unpack) := rfl

theorem unpack_div (x y : Float) :
    (x / y).toModel.unpack = repacked (x.toModel.unpack.div Format.binary64 y.toModel.unpack) := rfl

/-- A product with a factor that is not finite is not finite. -/
theorem isFinite_mul {x : Float} (h : x.isFinite = false) (y : Float) : (x * y).isFinite = false := by
  have hproduct : ∀ u v : UnpackedFloat, u.isFinite = false →
      u.mul Format.binary64 v = .notANumber ∨ ∃ s, u.mul Format.binary64 v = .infinity s := by
    intro u v hu
    cases u with
    | notANumber => exact .inl rfl
    | infinity s =>
      cases v with
      | notANumber => exact .inl rfl
      | infinity t => exact .inr ⟨_, rfl⟩
      | zero t => exact .inl rfl
      | finite t m e hm => exact .inr ⟨_, rfl⟩
    | zero s => cases hu
    | finite s m e hm => cases hu
  rw [isFinite_eq, unpack_mul]
  rcases hproduct _ y.toModel.unpack h with hnan | ⟨s, hinfinity⟩
  · rw [hnan, repacked_nan]
    rfl
  · rw [hinfinity, repacked_infinity]
    rfl

/-- A finite quotient by a number that is not finite is a zero. -/
theorem isZero_div {x y : Float} (hy : y.isFinite = false) (h : (x / y).isFinite = true) :
    (Binary64.ofFloat (x / y)).isZero = true := by
  have hquotient : ∀ u v : UnpackedFloat, v.isFinite = false → u.div Format.binary64 v = .notANumber ∨
      ∃ s, u.div Format.binary64 v = .zero s := by
    intro u v hv
    cases v with
    | notANumber => cases u <;> exact .inl rfl
    | infinity t =>
      cases u with
      | notANumber => exact .inl rfl
      | infinity s => exact .inl rfl
      | zero s => exact .inr ⟨_, rfl⟩
      | finite s m e hm => exact .inr ⟨_, rfl⟩
    | zero t => cases hv
    | finite t m e hm => cases hv
  rw [isFinite_eq, unpack_div] at h
  rw [Binary64.ofFloat_eq, unpack_div]
  rcases hquotient x.toModel.unpack _ hy with hnan | ⟨s, hzero⟩
  · rw [hnan, repacked_nan] at h
    cases h
  · rw [hzero, repacked_zero]
    rfl

end Doubles

end Fluxion
