import Fluxion.Proofs.Expansion
import Fluxion.Proofs.Ownership
import Fluxion.Proofs.Reading
import Fluxion.Scalar.Double

/-!
# Runs of calls

A call reads, copies, differentiates, simplifies, expands or gives back an expression. It may be
refused, and then leaves what it did before the refusal. A run is a sequence of calls on expressions
that are there and have valid trees.

Nothing a call does, refused or not, takes a store out of strict ownership or touches an expression
besides the one it simplifies or gives back; so this is true over all runs.

* `Call.keeps_after` says what one call keeps.
* `Run.strictlyOwned_and_untouched` says what runs keep.
-/

namespace Fluxion

open Act

/-- A call on a workspace. -/
inductive Call (κ : Type) where
  | readFormula (limit : Int) (text : String)
  | readPolish (text : String)
  | copy (e : Expression)
  | differentiate (e : Expression) (v : Name) (order : Int) (simplifier : Option (Simplifier κ))
  | simplify (simplifier : Simplifier κ) (e : Expression)
  | expand (plan : TaylorPlan κ) (e : Expression)
  | release (e : Expression)

namespace Call

variable {κ : Type}

/-- The expression a call is made on. -/
def operand? : Call κ → Option Expression
  | readFormula .. | readPolish .. => none
  | copy e | differentiate e .. | simplify _ e | expand _ e | release e => some e

/-- The expression a call may change. -/
def changed? : Call κ → Option Expression
  | simplify _ e | release e => some e
  | _ => none

/-- A call is allowed on an expression that is there and has a valid tree. -/
def Allowed (call : Call κ) (w : Workspace κ) : Prop :=
  ∀ e, call.operand? = some e →
    e.place < w.store.roots.size ∧ (w.store.expressionTree e).Valid

variable [Scalar κ] [Literal κ]

/-- The workspace a call leaves, whether it is refused or not. -/
def after : Call κ → Workspace κ → Workspace κ
  | readFormula limit text, w => ((Work.readFormula limit text).perform w).2
  | readPolish text, w => ((Work.readPolish text).perform w).2
  | copy e, w => ((Work.onStore (Store.copyExpression e)).perform w).2
  | differentiate e v order simplifier, w => ((Work.differentiate e v order simplifier).perform w).2
  | simplify σ e, w => ((σ.run e).perform w).2
  | expand plan e, w => ((plan.polynomial e).perform w).2
  | release e, w => ((Work.onStore (Store.releaseExpression e)).perform w).2

end Call

/-- A run of calls from one workspace to another. -/
inductive Run {κ : Type} [Scalar κ] [Literal κ] (w₀ : Workspace κ) :
    List (Call κ) → Workspace κ → Prop
  | start : Run w₀ [] w₀
  | call {calls : List (Call κ)} {w : Workspace κ} (call : Call κ) (run : Run w₀ calls w)
      (allowed : call.Allowed w) : Run w₀ (calls ++ [call]) (call.after w)

/-! ## What a call keeps -/

variable {κ : Type} {w : Workspace κ} {b : Int} {own : Holdings κ} {e : Expression} {p : Planted κ}

/-- All expressions are held, and those listed with the same trees as before, but for one. -/
def Keeps (own : Holdings κ) (changed? : Option Expression) (w : Workspace κ) : Prop :=
  ∃ b' own', w.store.Holds b' 0 own' ∧ ∀ x ∈ own, changed? ≠ some x.1 → x ∈ own'

/-- Expressions that are added keep the ones before. -/
theorem keeps_of_holds {changed? : Option Expression} (extra : Holdings κ)
    (h : w.store.Holds b 0 (extra ++ own)) : Keeps own changed? w :=
  ⟨b, extra ++ own, h, fun _ hx _ => List.mem_append_right _ hx⟩

/-- One expression may get another tree. -/
theorem keeps_of_changed {q : Planted κ} {rest : Holdings κ} (hp : own.Perm ((e, p) :: rest))
    (h : w.store.Holds b 0 ((e, q) :: rest)) : Keeps own (some e) w := by
  refine ⟨b, _, h, fun x hx hne => ?_⟩
  rcases List.mem_cons.mp (hp.mem_iff.mp hx) with rfl | hx
  · exact absurd rfl hne
  · exact List.mem_cons_of_mem _ hx

/-- What holds after an act, refused or not, holds of the state it leaves. -/
theorem Act.Ensures.left {σ α : Type} {act : Act σ α} {s : σ} {P : σ → Prop}
    (h : act.Ensures s (fun _ => P) fun _ => P) : P (act.perform s).2 := by
  unfold Ensures at h
  rcases hr : act.perform s with ⟨_ | _, t⟩ <;> rw [hr] at h <;> exact h

namespace Call

/-- The operand of an allowed call is listed, with a valid tree. -/
theorem Allowed.mem {call : Call κ} (ha : call.Allowed w) (h : w.store.Holds b 0 own)
    (he : call.operand? = some e) : ∃ p, (e, p) ∈ own ∧ p.tree.Valid := by
  obtain ⟨hlt, hv⟩ := ha e he
  obtain ⟨p, hp⟩ := h.exists_mem hlt
  rw [h.expressionTree_eq hp] at hv
  exact ⟨p, hp, hv⟩

variable [Scalar κ] [Literal κ]

/-- **What one call keeps.** -/
theorem keeps_after (call : Call κ) (h : w.store.Holds b 0 own) (ha : call.Allowed w) :
    Keeps own call.changed? (call.after w) := by
  cases call with
  | readFormula limit text =>
    refine Ensures.left ((Work.readFormula_spec h limit text).mono ?_ ?_)
    · rintro e w' ⟨q, -, h'⟩
      exact keeps_of_holds [(e, q)] h'
    · rintro f w' ⟨-, h', -⟩
      exact keeps_of_holds [] h'
  | readPolish text =>
    refine Ensures.left ((Work.readPolish_spec h text).mono ?_ ?_)
    · rintro e w' ⟨q, -, h'⟩
      exact keeps_of_holds [(e, q)] h'
    · rintro f w' ⟨-, h', -⟩
      exact keeps_of_holds [] h'
  | copy e =>
    obtain ⟨p, hp, -⟩ := ha.mem h rfl
    refine Ensures.left ((Work.ensures_onStore (Store.copyExpression_spec h hp)).mono ?_ ?_)
    · rintro e' w' ⟨-, q, -, h'⟩
      exact keeps_of_holds [(e', q)] h'
    · rintro f w' ⟨-, -, b', h'⟩
      exact keeps_of_holds [] h'
  | differentiate e v order simplifier =>
    obtain ⟨p, hp, -⟩ := ha.mem h rfl
    refine Ensures.left ((Work.differentiate_spec h hp order).mono ?_ ?_)
    · rintro e' w' ⟨q, extra, -, -, h'⟩
      exact keeps_of_holds ((e', q) :: extra) h'
    · rintro f w' (⟨-, rfl⟩ | hf)
      · exact keeps_of_holds [] h
      · cases hf with
        | noRule _ h' => exact keeps_of_holds [] h'
        | stopped _ h' => exact keeps_of_holds [] h'
  | simplify σ e =>
    obtain ⟨p, hp, hv⟩ := ha.mem h rfl
    obtain ⟨rest, hperm⟩ := Store.perm_of_mem hp
    have hv' : p = .absent ∨ p.tree.isWellFormed = true := hv.imp_left Planted.eq_absent_of_tree
    refine Ensures.left ((σ.run_spec (h.perm hperm.symm) hv').ensures.mono ?_ fun _ _ => False.elim)
    rintro - w' ⟨q, h', -⟩
    exact keeps_of_changed hperm h'
  | expand plan e =>
    obtain ⟨p, hp, -⟩ := ha.mem h rfl
    refine Ensures.left ?_
    unfold TaylorPlan.polynomial
    refine (plan.build_spec h hp).bind ?_
    rintro result w' ⟨b', extra, -, -, h', -, -⟩
    have hkeep : Keeps own (expand plan e).changed? w' := keeps_of_holds extra h'
    cases ho : result.outcome with
    | ok _ => exact ensures_of_ok rfl hkeep
    | error _ => exact ensures_of_error rfl hkeep
  | release e =>
    obtain ⟨p, hp, -⟩ := ha.mem h rfl
    obtain ⟨rest, hperm⟩ := Store.perm_of_mem hp
    have hrel := Store.releaseExpression_spec (h.perm hperm.symm)
    refine Ensures.left ((Work.succeeds_onStore hrel).ensures.mono ?_ fun _ _ => False.elim)
    intro _ w' h'
    exact keeps_of_changed hperm h'

/-- A call touches no expression but the one it changes. -/
theorem untouched_after (call : Call κ) (h : w.store.StrictlyOwned) (ha : call.Allowed w)
    (he : e.place < w.store.roots.size) (hne : call.changed? ≠ some e) :
    Store.Untouched e w.store (call.after w).store := by
  obtain ⟨b, own, hown⟩ := h.holds
  obtain ⟨p, hp⟩ := hown.exists_mem he
  obtain ⟨b', own', hown', hkeep⟩ := call.keeps_after hown ha
  exact hown.untouched hown' hp (hkeep _ hp hne)

/-- A call keeps a store strictly owned. -/
theorem strictlyOwned_after (call : Call κ) (h : w.store.StrictlyOwned) (ha : call.Allowed w) :
    (call.after w).store.StrictlyOwned := by
  obtain ⟨b, own, hown⟩ := h.holds
  obtain ⟨b', own', hown', -⟩ := call.keeps_after hown ha
  exact hown'.strictlyOwned

end Call

namespace Run

variable [Scalar κ] [Literal κ] {w₀ : Workspace κ} {calls : List (Call κ)}

/-- A run keeps a store strictly owned. -/
theorem strictlyOwned (run : Run w₀ calls w) (h : w₀.store.StrictlyOwned) :
    w.store.StrictlyOwned := by
  induction run with
  | start => exact h
  | call call _ allowed ih => exact call.strictlyOwned_after ih allowed

/-- **Strict ownership over runs.** A new store is strictly owned. Over any run of calls, refused or
not, a strictly owned store stays so, and every expression that is there keeps its tree at every
call, but for the one that the call simplifies or gives back. -/
theorem strictlyOwned_and_untouched :
    (∀ initial room : Int, (Store.stocked initial room : Store κ).StrictlyOwned) ∧
    ∀ (w₀ w : Workspace κ) (calls : List (Call κ)), w₀.store.StrictlyOwned → Run w₀ calls w →
      w.store.StrictlyOwned ∧
      ∀ (call : Call κ) (e : Expression), call.Allowed w → e.place < w.store.roots.size →
        call.changed? ≠ some e → Store.Untouched e w.store (call.after w).store := by
  refine ⟨Store.stocked_strictlyOwned, fun w₀ w calls h₀ run => ?_⟩
  have h := run.strictlyOwned h₀
  exact ⟨h, fun call e ha he hne => call.untouched_after h ha he hne⟩

/-- The workspace after `x+x` was read into a new store, differentiated and given back. -/
@[irreducible] def sumDifferentiated : Workspace Float :=
  (Call.release ⟨0⟩).after ((Call.differentiate ⟨0⟩ (some "x") 1 none).after
    ((Call.readFormula 100 "x+x").after ⟨.stocked 4 2, .opened .minimal, []⟩))

theorem run_sumDifferentiated :
    Run ⟨.stocked 4 2, .opened .minimal, []⟩
      [.readFormula 100 "x+x", .differentiate ⟨0⟩ (some "x") 1 none, .release ⟨0⟩]
      sumDifferentiated := by
  unfold sumDifferentiated
  refine .call _ (.call _ (.call _ .start ?_) ?_) ?_
  · rintro e ⟨⟩
  · rintro e ⟨⟩
    exact ⟨by decide +kernel, .inr (by decide +kernel)⟩
  · rintro e ⟨⟩
    exact ⟨by decide +kernel, .inr (by decide +kernel)⟩

/-- A reading that fails, on nodes that were given back, does not touch the derivative. -/
theorem untouched_by_failed_reading :
    sumDifferentiated.store.StrictlyOwned ∧
      Store.Untouched ⟨1⟩ sumDifferentiated.store
        ((Call.readFormula 100 "y*(z+x").after sumDifferentiated).store := by
  obtain ⟨hnew, hruns⟩ := strictlyOwned_and_untouched (κ := Float)
  obtain ⟨howned, hkept⟩ := hruns _ _ _ (hnew 4 2) run_sumDifferentiated
  refine ⟨howned, hkept (.readFormula 100 "y*(z+x") ⟨1⟩ ?_ ?_ ?_⟩
  · rintro e ⟨⟩
  · decide +kernel
  · rintro ⟨⟩

end Run

end Fluxion
