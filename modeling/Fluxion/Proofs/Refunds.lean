import Fluxion.Proofs.Accounting
import Fluxion.Proofs.TaylorSum

/-!
# What a refused Taylor polynomial costs

A build that is refused leaves the expression as it was. If an operation has no rule, a variable has no
value or a slot is empty, every node that was handed out on the way has been taken back. That fails for one
fault only: the name of the variable is first needed for the term of order one, and if it is not a letter,
the constant made before stays behind and the node that was to carry the name is lost.

* `TaylorPlan.Leaves.spent` counts what a refused build spends.
* `TaylorPlan.build_refunds_iff` says when it spends nothing.
-/

namespace Fluxion

open Act Store

namespace TaylorPlan

variable {κ : Type} {plan : TaylorPlan κ} {w w' : Workspace κ} {b : Int} {c : Nat}
  {own : Holdings κ} {e : Expression} {p : Planted κ} {t : Tree κ} {f : Fault}

/-- What a build leaves does not touch the expressions there were. -/
theorem Leaves.untouched (h : w.store.Holds b c own) (hl : plan.Leaves b c own t f w') (he : (e, p) ∈ own)
    (ht : t.isSpelled = true) : Untouched e w.store w'.store := by
  cases hl with
  | nothing _ _ h' => exact h.untouched h' he (List.mem_append_right _ he)
  | constant _ _ _ _ h' => exact h.untouched h' he (List.mem_cons_of_mem _ (List.mem_append_right _ he))
  | misspelled hs => cases hs.symm.trans ht

theorem refs_of_emptied {extra : Holdings κ} (h : Work.Emptied extra) (own : Holdings κ) :
    Holdings.refs (extra ++ own) = own.refs := by
  induction extra with
  | nil => rfl
  | cons x extra ih =>
    obtain ⟨e, p⟩ := x
    rw [Work.Emptied, List.forall_mem_cons] at h
    obtain ⟨rfl, hextra⟩ := h
    rw [List.cons_append, refs_cons, ih hextra]
    rfl

/-- A refused build spends nothing, or the node of the constant and the one for the name. -/
theorem Leaves.spent (h : w.store.Holds b c own) (hl : plan.Leaves b c own t f w')
    (ht : t.isSpelled = true) :
    (∀ n, f ≠ .invalidName n) ∧ w.store.pool.spent w'.store.pool = 0 ∨
      f = .invalidName plan.argument ∧ plan.argument.isLetter = false ∧ 0 < plan.order ∧
        w.store.pool.spent w'.store.pool = 2 := by
  cases hl with
  | nothing hf hextra h' =>
    refine .inl ⟨hf, ?_⟩
    rw [h.spent_eq h', refs_of_emptied hextra, sub_self]
  | constant hn horder hq hextra h' =>
    refine .inr ⟨rfl, hn, horder, ?_⟩
    rw [Pool.spent_eq, h'.accounted.balance, h.accounted.balance, refs_cons, refs_of_emptied hextra,
      List.length_append, Planted.length_refs, hq, Tree.size]
    omega
  | misspelled hs => cases hs.symm.trans ht

variable [Scalar κ] [Literal κ]

/-- **A refused build spends nothing, save for the name of its variable.** The names in the expression are
letters; its operators and slots, the variable, the point, the order, the bindings and the simplification
may be any. A build that is refused leaves the expression untouched, and it takes back as many nodes as it
handed out just when it was not refused for a name. The name is then that of the variable, it is not a
letter, the order is positive, and two nodes are not taken back. -/
theorem build_refunds_iff (hw : w.store.StrictlyOwned) (he : e.place < w.store.roots.size)
    (hs : (w.store.expressionTree e).isSpelled = true) :
    (plan.build e).Succeeds w fun result w' => ∀ f, result.outcome = .error f →
      Untouched e w.store w'.store ∧
      (w.store.pool.spent w'.store.pool = 0 ↔ ∀ n, f ≠ .invalidName n) ∧
      ∀ n, f = .invalidName n → n = plan.argument ∧ n.isLetter = false ∧ 0 < plan.order ∧
        w.store.pool.spent w'.store.pool = 2 := by
  obtain ⟨b, own, hown⟩ := hw.holds
  obtain ⟨p, hp⟩ := hown.exists_mem he
  rw [hown.expressionTree_eq hp] at hs
  refine (plan.build_outcome hown hp).mono ?_
  rintro result w' ⟨-, hleaves⟩ f hf
  refine ⟨(hleaves f hf).untouched hown hp hs, ?_⟩
  obtain ⟨hname, hspent⟩ | ⟨rfl, hn, horder, hspent⟩ := (hleaves f hf).spent hown hs
  · exact ⟨iff_of_true hspent hname, fun n hn => absurd hn (hname n)⟩
  · refine ⟨iff_of_false (fun h => ?_) fun h => h plan.argument rfl, ?_⟩
    · cases hspent.symm.trans h
    · rintro _ ⟨⟩
      exact ⟨rfl, hn, horder, hspent⟩

/-- The plan to expand to the first order in a variable. -/
@[irreducible] def firstOrder (argument : String) : TaylorPlan Float :=
  ⟨some argument, 0.0, 1, .empty, true, 100⟩

/-- The polynomial of `a` in `x` is refused for want of a value for `a`, and all nodes are taken back. -/
theorem build_refunds_unbound :
    (reading "a").store.StrictlyOwned ∧ 0 < (reading "a").store.roots.size ∧
      ((reading "a").store.expressionTree ⟨0⟩).isSpelled = true ∧
      ((firstOrder "x").build ⟨0⟩).Succeeds (reading "a") fun result w' =>
        result.outcome = .error (.unbound (some "a")) ∧
          (reading "a").store.pool.spent w'.store.pool = 0 := by
  have howned : (reading "a").store.StrictlyOwned := strictlyOwned_reading "a"
  have hlive : (0 : Nat) < (reading "a").store.roots.size := by decide +kernel
  have hspelled : ((reading "a").store.expressionTree ⟨0⟩).isSpelled = true := by decide +kernel
  have houtcome : (((firstOrder "x").build ⟨0⟩).perform (reading "a")).1.map (·.outcome) =
      .ok (.error (.unbound (some "a"))) := by decide +kernel
  have hrefunds : ((firstOrder "x").build ⟨0⟩).Succeeds (reading "a") _ :=
    build_refunds_iff howned hlive hspelled
  obtain ⟨result, w', hrun, hrefund⟩ := hrefunds.exists
  rw [hrun] at houtcome
  have hf := Except.ok.inj houtcome
  exact ⟨howned, hlive, hspelled, ensures_of_ok hrun ⟨hf, (hrefund _ hf).2.1.mpr nofun⟩⟩

/-- **A variable that is not a letter costs two nodes.** The polynomial of the constant two in `xy` is
refused, with the constant made and not taken back. -/
theorem build_loses_misnamed :
    (reading "2").store.StrictlyOwned ∧ ((reading "2").store.expressionTree ⟨0⟩).isWellFormed = true ∧
      ((firstOrder "xy").build ⟨0⟩).Succeeds (reading "2") fun result w' =>
        result.outcome = .error (.invalidName (some "xy")) ∧
          (reading "2").store.pool.spent w'.store.pool = 2 := by
  have houtcome : (((firstOrder "xy").build ⟨0⟩).perform (reading "2")).1.map (·.outcome) =
      .ok (.error (.invalidName (some "xy"))) := by decide +kernel
  have hspent : (reading "2").store.pool.spent
      (((firstOrder "xy").build ⟨0⟩).perform (reading "2")).2.store.pool = 2 := by decide +kernel
  refine ⟨strictlyOwned_reading "2", by decide +kernel, ?_⟩
  cases hrun : ((firstOrder "xy").build ⟨0⟩).perform (reading "2") with
  | mk r w' =>
    rw [hrun] at houtcome hspent
    cases r with
    | error f => cases houtcome
    | ok result => exact ensures_of_ok hrun ⟨Except.ok.inj houtcome, hspent⟩

end TaylorPlan

end Fluxion
