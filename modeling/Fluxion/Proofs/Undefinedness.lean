import Fluxion.Proofs.Audit
import Fluxion.Proofs.DoubleValues
import Fluxion.Proofs.Evaluation
import Fluxion.Proofs.PartialReal

/-!
# Undefined values

An argument outside the domain of an operation is no fault: the operation is undefined there, and so is
every expression around it. This needs the guards of the kernel, since the elementary functions by
themselves may forget that an operand was undefined, as a power with the exponent zero does. The guards
also keep every division away from zero.

Neither needs much of the arithmetic. `Scalar.Conforms` says what: sums, differences, products, quotients
and logarithms pass an undefined operand on, and the logarithm is zero only near one.

* `Scalar.withDiv` changes the quotient. A kernel that it does not change, whatever the quotients by zero
  become, never divides by zero.
* `Kernel.guarded_withDiv`, `Kernel.isNaN_guardedBinary` and `Kernel.isNaN_guardedUnary` are the facts about
  the guarded kernel.
* `Tree.isNaN_of_mem_subtrees` carries an undefined value to the root.
* `Doubles.conforms` and `PartialReal.conforms` are the two kinds of scalars; for doubles the facts about
  the logarithm are assumed, since it is not defined here.
* `Work.evaluate_undefined` is the statement on trees of a store.
-/

namespace Fluxion

open Act

namespace Scalar

/-- The same scalars with another quotient. -/
@[reducible] def withDiv {κ : Type} [S : Scalar κ] (quotient : κ → κ → κ) : Scalar κ :=
  { S with div := quotient }

/-- What evaluation relies on. -/
structure Conforms (κ : Type) [Scalar κ] : Prop where
  isNaN_nan : isNaN (nan : κ) = true
  isNaN_add (a b : κ) (h : isNaN a = true ∨ isNaN b = true) : isNaN (add a b) = true
  isNaN_sub (a b : κ) (h : isNaN a = true ∨ isNaN b = true) : isNaN (sub a b) = true
  isNaN_mul (a b : κ) (h : isNaN a = true ∨ isNaN b = true) : isNaN (mul a b) = true
  isNaN_div (a b : κ) (h : isNaN a = true ∨ isNaN b = true) : isNaN (div a b) = true
  isNaN_log (a : κ) (h : isNaN a = true) : isNaN (log a) = true
  log_ne_zero (a : κ) (h : lt zero a = true) (hone : near threshold a one = false) :
    eq (log a) zero = false
  /-- Zero is a number, and as a denominator it is recognised. -/
  of_eq_zero (a : κ) (h : eq a zero = true) : isNaN a = false ∧ lt (abs a) threshold = true
  /-- A number that is not at most zero is positive. -/
  pos_of_not_le (a : κ) (hnan : isNaN a = false) (h : le a zero = false) : lt zero a = true

end Scalar

namespace Kernel

open Scalar

variable {κ : Type} [Scalar κ] {a b : κ}

/-- **The guarded kernel does not divide by zero**: it does not depend on what a quotient by zero is. -/
theorem guarded_withDiv (hκ : Conforms κ) {quotient : κ → κ → κ}
    (h : ∀ a b : κ, eq b zero = false → quotient a b = div a b) :
    @guarded κ (withDiv quotient) = guarded := by
  have hguard : ∀ {b : κ}, ¬lt (abs b) threshold = true → eq b zero = false := fun hb =>
    Bool.eq_false_iff.mpr fun hzero => hb (hκ.of_eq_zero _ hzero).2
  have hdivide : ∀ l r : κ, @divide κ (withDiv quotient) l r = divide l r := fun l r =>
    ite_congr rfl (fun _ => rfl) fun hr => h l r (hguard hr)
  have hlogarithm : ∀ l r : κ, @logarithm κ (withDiv quotient) l r = logarithm l r := by
    refine fun l r => ite_congr rfl (fun _ => rfl) fun hinside => h _ _ ?_
    simp only [Bool.or_eq_true, not_or, Bool.not_eq_true] at hinside
    obtain ⟨⟨hl, -⟩, hone⟩ := hinside
    cases hnan : isNaN l with
    | false => exact hκ.log_ne_zero l (hκ.pos_of_not_le l hnan hl) hone
    | true =>
      refine Bool.eq_false_iff.mpr fun hzero => ?_
      cases (hκ.isNaN_log l hnan).symm.trans (hκ.of_eq_zero _ hzero).1
  have hcot : ∀ x : κ, @guardedFunction κ (withDiv quotient) .cot x = guardedFunction .cot x := by
    refine fun x => ite_congr rfl (fun hinside => h one (tan x) (hguard ?_)) fun _ => rfl
    rwa [Bool.not_eq_true', ← Bool.not_eq_true] at hinside
  have hbinary : @guardedBinary κ (withDiv quotient) = guardedBinary := by
    funext o l r
    cases o with
    | div => exact hdivide l r
    | log => exact hlogarithm l r
    | _ => rfl
  have hunary : @guardedUnary κ (withDiv quotient) = guardedUnary := by
    funext o x
    refine ite_congr rfl (fun _ => rfl) fun _ => ?_
    cases o with
    | cot => exact hcot x
    | _ => rfl
  unfold guarded
  rw [hbinary, hunary]

/-- An operation of two arguments passes an undefined one on. -/
theorem isNaN_guardedBinary (hκ : Conforms κ) (o : Operation) (h : isNaN a = true ∨ isNaN b = true) :
    isNaN (guardedBinary o a b) = true := by
  cases o with
  | add => exact hκ.isNaN_add a b h
  | sub => exact hκ.isNaN_sub a b h
  | mul => exact hκ.isNaN_mul a b h
  | div =>
    change isNaN (divide a b) = true
    unfold divide
    split
    · exact hκ.isNaN_nan
    · exact hκ.isNaN_div a b h
  | pow =>
    change isNaN (power a b) = true
    rw [power, if_pos (Bool.or_eq_true_iff.mpr h)]
    exact hκ.isNaN_nan
  | log =>
    change isNaN (logarithm a b) = true
    unfold logarithm
    split
    · exact hκ.isNaN_nan
    · exact hκ.isNaN_div _ _ (h.symm.imp (hκ.isNaN_log b) (hκ.isNaN_log a))
  | _ => exact hκ.isNaN_nan

/-- An operation of one argument passes an undefined one on. -/
theorem isNaN_guardedUnary (hκ : Conforms κ) (o : Operation) (h : isNaN a = true) :
    isNaN (guardedUnary o a) = true := by
  rw [guardedUnary, if_pos h]
  exact hκ.isNaN_nan

end Kernel

namespace Tree

open Scalar

variable {κ : Type} [Scalar κ] {ρ : Valuation κ} {t x : Tree κ} {u v : κ}

/-- **An undefined value is passed on to the root.** -/
theorem isNaN_of_mem_subtrees (hκ : Conforms κ) (hv : t.Yields .guarded ρ v) (hx : x ∈ t.subtrees)
    (hu : x.value .guarded ρ = .ok u) (h : isNaN u = true) : isNaN v = true := by
  have hroot : ∀ {t : Tree κ} {v : κ}, t.Yields .guarded ρ v → x = t → isNaN v = true := by
    rintro t v hv rfl
    rwa [← Except.ok.inj (hu.symm.trans hv.value_eq)]
  induction hv with
  | literal v => exact hroot (.literal v) (List.mem_singleton.mp hx)
  | var h => exact hroot (.var h) (List.mem_singleton.mp hx)
  | binary hop hl hr ihl ihr =>
    rw [subtrees, List.mem_append, List.mem_append, List.mem_singleton] at hx
    obtain (hx | hx) | hx := hx
    · exact Kernel.isNaN_guardedBinary hκ _ (.inl (ihl hx))
    · exact Kernel.isNaN_guardedBinary hκ _ (.inr (ihr hx))
    · exact hroot (.binary hop hl hr) hx
  | unary hop hy ih =>
    rw [subtrees, List.mem_append, List.mem_singleton] at hx
    obtain hx | hx := hx
    · exact Kernel.isNaN_guardedUnary hκ _ (ih hx)
    · exact hroot (.unary hop hy) hx

end Tree

/-! ## Two kinds of scalars -/

namespace Doubles

open Float.Model (UnpackedFloat Format)

variable {x y : Float}

/-- An operation on unpacked numbers that passes an undefined one on does so on doubles. -/
theorem isNaN_of_unpack {z : Float} (op : UnpackedFloat → UnpackedFloat → UnpackedFloat)
    (hz : z.toModel.unpack = repacked (op x.toModel.unpack y.toModel.unpack))
    (hleft : ∀ v, op .notANumber v = .notANumber) (hright : ∀ u, op u .notANumber = .notANumber)
    (h : x.isNaN = true ∨ y.isNaN = true) : z.isNaN = true := by
  rw [isNaN_iff, hz]
  rcases h with h | h
  · rw [isNaN_iff.mp h, hleft, repacked_nan]
  · rw [isNaN_iff.mp h, hright, repacked_nan]

/-- A number is at most zero or positive. -/
theorem zero_lt_of_not_le (hnan : x.isNaN = false) (h : ¬x ≤ Float.ofNat 0) : Float.ofNat 0 < x := by
  have hle : x ≤ Float.ofNat 0 ↔ x.toModel.unpack.le (.zero .positive) = true := decide_eq_true_iff
  have hlt : Float.ofNat 0 < x ↔ UnpackedFloat.lt (.zero .positive) x.toModel.unpack = true :=
    decide_eq_true_iff
  rw [hle] at h
  rw [hlt]
  rw [← Bool.not_eq_true, isNaN_iff] at hnan
  cases hx : x.toModel.unpack with
  | notANumber => exact absurd hx hnan
  | infinity s =>
    rw [hx] at h
    cases s with
    | negative => exact absurd rfl h
    | positive => rfl
  | zero s =>
    rw [hx] at h
    cases s <;> exact absurd rfl h
  | finite s m e hm =>
    rw [hx] at h
    cases s with
    | negative => exact absurd rfl h
    | positive => rfl

/-- **Doubles conform**, given what is known of their logarithm. -/
theorem conforms (hnan : ∀ x : Float, x.isNaN = true → x.log.isNaN = true)
    (hzero : ∀ x : Float, Scalar.lt Scalar.zero x = true → Scalar.near Scalar.threshold x Scalar.one = false →
      Scalar.eq x.log Scalar.zero = false) :
    Scalar.Conforms Float where
  isNaN_nan := by decide +kernel
  isNaN_add _ _ := isNaN_of_unpack (.add Format.binary64) rfl (fun _ => rfl) fun u => by cases u <;> rfl
  isNaN_sub _ _ := isNaN_of_unpack (.sub Format.binary64) rfl (fun _ => rfl) fun u => by cases u <;> rfl
  isNaN_mul _ _ := isNaN_of_unpack (.mul Format.binary64) rfl (fun _ => rfl) fun u => by cases u <;> rfl
  isNaN_div _ _ := isNaN_of_unpack (.div Format.binary64) rfl (fun _ => rfl) fun u => by cases u <;> rfl
  isNaN_log := hnan
  log_ne_zero := hzero
  of_eq_zero x h := by
    obtain rfl | rfl := Binary64.eq_zero_of_beq h
    · exact ⟨by decide +kernel, by decide +kernel⟩
    · exact ⟨by decide +kernel, by decide +kernel⟩
  pos_of_not_le x hx h := decide_eq_true (zero_lt_of_not_le hx (of_decide_eq_false h))

end Doubles

namespace PartialReal

open Scalar

variable {op : Operation} {x y : PartialReal}

theorem isNaN_apply₂ (h : isNaN x = true ∨ isNaN y = true) : isNaN (apply₂ op x y) = true := by
  cases x with
  | none => rfl
  | some a =>
    cases y with
    | none => rfl
    | some b => exact absurd h (not_or.mpr ⟨Bool.false_ne_true, Bool.false_ne_true⟩)

theorem isNaN_apply₁ (h : isNaN x = true) : isNaN (apply₁ op x) = true := by
  cases x with
  | none => rfl
  | some a => cases h

/-- The logarithm of a positive number is zero at one only, and one is near one. -/
theorem log_ne_zero {a : ℝ} (ha : 0 < a) (hone : near (some leastDenominator) (some a) (some 1) = false) :
    Real.log a ≠ 0 := by
  intro hlog
  rw [← Bool.not_eq_true, near_iff] at hone
  refine hone ?_
  rw [Real.eq_one_of_pos_of_log_eq_zero ha hlog, sub_self, abs_zero]
  exact leastDenominator_pos

/-- **Exact arithmetic conforms.** -/
theorem conforms : Conforms PartialReal where
  isNaN_nan := rfl
  isNaN_add _ _ := isNaN_apply₂
  isNaN_sub _ _ := isNaN_apply₂
  isNaN_mul _ _ := isNaN_apply₂
  isNaN_div _ _ := isNaN_apply₂
  isNaN_log _ := isNaN_apply₁
  log_ne_zero x h hone := by
    cases x with
    | none => cases h
    | some a =>
      rw [zero_eq, lt_some_iff] at h
      rw [one_eq] at hone
      have hlog : log (some a) = (some (Real.log a) : PartialReal) := Operation.apply₁_of_domain h
      rw [hlog, zero_eq, ← Bool.not_eq_true, eq_some_iff]
      exact log_ne_zero h hone
  of_eq_zero x h := by
    cases x with
    | none => cases h
    | some a =>
      rw [zero_eq, eq_some_iff] at h
      have hlt : |a| < leastDenominator := by
        rw [h, abs_zero]
        exact leastDenominator_pos
      exact ⟨rfl, lt_some_iff.mpr hlt⟩
  pos_of_not_le x hx h := by
    cases x with
    | none => cases hx
    | some a =>
      rw [zero_eq, ← Bool.not_eq_true, le_some_iff, not_le] at h
      rwa [zero_eq, lt_some_iff]

end PartialReal

namespace Work

variable {κ : Type} [Scalar κ] {w : Workspace κ} {p : Planted κ} {used : List Ref} {parent : Option Ref}
  {ρ : Valuation κ}

/-- **Undefined values are not masked.** A well-formed tree with values for its variables is evaluated
without a fault, and undefined if any subtree is. No quotient by zero is formed on the way: with any other
values for these the evaluation would be the same. -/
theorem evaluate_undefined (hκ : Scalar.Conforms κ) (h : p.Stands w.store used parent)
    (ha : w.store.Apart used) (hwf : p.tree.isWellFormed = true) (hρ : ρ.Covers p.tree) :
    ((evaluate ρ p.ref?).Succeeds w fun v w' => w'.store = w.store ∧
      ∀ x ∈ p.tree.subtrees, ∀ u, x.evaluate ρ = .ok u → Scalar.isNaN u = true → Scalar.isNaN v = true) ∧
    ∀ quotient : κ → κ → κ,
      (∀ a b, Scalar.eq b Scalar.zero = false → quotient a b = Scalar.div a b) →
      @evaluate κ (Scalar.withDiv quotient) ρ p.ref? = evaluate ρ p.ref? := by
  have hne : p ≠ .absent := by
    rintro rfl
    cases hwf
  refine ⟨(evaluate_of_stands h ha hne ρ).mono ?_ ?_, fun quotient hquotient => ?_⟩
  · rintro v w' ⟨hv, hw'⟩
    refine ⟨hw', fun x hx u hu hnan => ?_⟩
    have hvalue : x.value .guarded ρ = .ok u := by
      rw [Tree.evaluate_eq] at hu
      split at hu
      · cases hu
      · exact hu
    exact Tree.isNaN_of_mem_subtrees hκ (Tree.value_eq_ok hv).2 hx hvalue hnan
  · rintro f w' ⟨hf, -⟩
    have hfault := Tree.value_of_covers (K := .guarded) hρ
    rw [hf] at hfault
    cases ((Tree.isWellFormed_iff p.tree).mp hwf).1.symm.trans hfault.1
  · unfold evaluate Tree.evaluate
    rw [Kernel.guarded_withDiv hκ hquotient]

/-- The power `ln (x) ^ 0`. -/
noncomputable def masked : Planted PartialReal :=
  .binary 3 (.known .pow) (.unary 1 (.known .ln) (.var 0 (some "x"))) (.literal 2 Scalar.zero)

/-- A workspace in which this power stands. -/
noncomputable def withMasked : Workspace PartialReal :=
  ⟨((Store.plant masked.tree).perform (.stocked 0 0)).2, .opened .minimal, []⟩

/-- At minus one `ln (x) ^ 0` is undefined, since the logarithm is, and not one. -/
theorem evaluate_undefined_masked :
    let ρ : Valuation PartialReal := Valuation.empty.bind (some "x") (some (-1))
    Scalar.Conforms PartialReal ∧ masked.Stands withMasked.store masked.refs none ∧
      withMasked.store.Apart masked.refs ∧ masked.tree.isWellFormed = true ∧ ρ.Covers masked.tree ∧
      (evaluate ρ (some 3)).Succeeds withMasked fun v _ => v = none := by
  intro ρ
  have hstands : masked.Stands withMasked.store masked.refs none :=
    ⟨⟨rfl, ⟨rfl, rfl⟩, rfl⟩, List.Subset.refl _, by decide⟩
  have hapart : withMasked.store.Apart masked.refs := ⟨by decide +kernel, by decide +kernel⟩
  have hcovers : ρ.Covers masked.tree := by
    intro n hn
    have hx : some "x" = n := by simpa [masked, Planted.tree, Tree.mentions] using hn
    exact hx ▸ rfl
  have hle : Scalar.le (some (-1)) (Scalar.zero : PartialReal) = true := by
    rw [PartialReal.zero_eq, PartialReal.le_some_iff]
    norm_num
  have hln : Kernel.guardedUnary .ln (some (-1) : PartialReal) = none := by
    have hnan : Scalar.isNaN (some (-1) : PartialReal) = false := rfl
    rw [Kernel.guardedUnary, hnan, if_neg Bool.false_ne_true, Kernel.guardedFunction, hle]
    rfl
  have hvalue : (Tree.unary (.known .ln) (.var (some "x")) : Tree PartialReal).evaluate ρ = .ok none := by
    rw [Tree.evaluate_eq_value ρ rfl]
    exact congrArg Except.ok hln
  refine ⟨PartialReal.conforms, hstands, hapart, rfl, hcovers, ?_⟩
  refine (evaluate_undefined PartialReal.conforms hstands hapart rfl hcovers).1.mono ?_
  rintro v - ⟨-, hmasked⟩
  exact Option.isNone_iff_eq_none.mp
    (hmasked _ (List.mem_append_left _ (List.mem_append_left _ (Tree.mem_subtrees_self _))) _ hvalue rfl)

end Work

end Fluxion
