import Fluxion.Differentiation
import Fluxion.Proofs.Simplification

/-!
# Derivatives of expressions

The derivative of an expression is a new expression with the derivative of its tree, simplified if
asked. Higher derivatives are made one from the other, and each of them is given back when the next
one is there, so in the end the result is all that is left besides empty expressions. Every
derivative is well-formed, whatever it was made from; so only the first one can fail.

* `Tree.nextDerivative` and `Tree.higherDerivative` are the derivatives on plain trees.
* `Work.deriveExpression_spec` makes one derivative.
* `Work.differentiate_spec` makes the derivative of any order.
-/

namespace Fluxion

open Act

namespace Tree

variable {κ : Type} [Scalar κ]

/-- The derivative, simplified if a simplifier is given. -/
def nextDerivative (v : Name) (simplifier : Option (Simplifier κ)) (t : Tree κ) :
    Except Operator (Tree κ) :=
  match t.derivative v, simplifier with
  | .error op, _ => .error op
  | .ok d, some σ => .ok (σ.normalize d)
  | .ok d, none => .ok d

/-- The derivative of an order, each one made from the one before. -/
def higherDerivative (v : Name) (simplifier : Option (Simplifier κ)) :
    Nat → Tree κ → Except Operator (Tree κ)
  | 0, t => .ok t
  | order + 1, t =>
    match t.nextDerivative v simplifier with
    | .error op => .error op
    | .ok d => d.higherDerivative v simplifier order

end Tree

namespace Work

open Store

variable {κ : Type} {w : Workspace κ} {b : Int} {c : Nat} {own : Holdings κ} {e : Expression}
  {p : Planted κ} {v : Name} {unknown : Operator → Prop} {misspelled : Prop}

/-- How differentiating an expression fails: an operator without a rule leaves the holdings as they
were, and nothing is lost; a name that is not a letter may lose nodes. -/
inductive Halted (b : Int) (c : Nat) (own : Holdings κ) (unknown : Operator → Prop)
    (misspelled : Prop) : Fault → Workspace κ → Prop
  | noRule {op : Operator} {w : Workspace κ} (h : unknown op) (holds : w.store.Holds b c own) :
      Halted b c own unknown misspelled (.unknownOperation op) w
  | stopped {n : Name} {b' : Int} {w : Workspace κ} (h : misspelled)
      (holds : w.store.Holds b' c own) : Halted b c own unknown misspelled (.invalidName n) w

/-- A well-formed tree has a derivative, and its names are letters. -/
theorem Halted.isWellFormed [Scalar κ] {t : Tree κ} {f : Fault}
    (h : Halted b c own (fun op => t.derivative v = .error op) (t.isSpelled = false) f w) :
    t.isWellFormed = false := by
  by_contra hwf
  obtain ⟨hop, hsp⟩ := t.isWellFormed_iff.mp (Bool.not_eq_false _ ▸ hwf)
  cases h with
  | noRule hu _ =>
    obtain ⟨d, hd⟩ := Tree.exists_derivative v hop
    cases hd.symm.trans hu
  | stopped hm _ => cases hm.symm.trans hsp

theorem Refused.halted {f : Fault} {w' : Workspace κ} (h : w.store.Holds b c own)
    (hr : Refused b own.refs unknown misspelled w.store f w'.store) :
    Halted b c own unknown misspelled f w' := by
  cases hr with
  | noRule hu ha hk => exact .noRule hu (h.kept hk ha)
  | stopped hm hs =>
    obtain ⟨n, rfl⟩ := hs.fault
    exact .stopped hm (h.kept hs.kept hs.apart.accounted)

/-- A source that is owned is given back. -/
theorem releaseIf_spec {q : Planted κ} {e' : Expression}
    (h : w.store.Holds b c ((e', q) :: (e, p) :: own)) :
    (releaseIf true e : Work κ Unit).Succeeds w fun _ w' =>
      w'.store.Holds b c ((e', q) :: (e, .absent) :: own) := by
  have hswap : w.store.Holds b c ((e, p) :: (e', q) :: own) := h.perm (.swap _ _ _)
  refine (succeeds_onStore (releaseExpression_spec hswap)).mono fun _ w' h' => ?_
  exact h'.perm (.swap _ _ _)

/-- Only empty expressions are listed. -/
def Emptied (extra : Holdings κ) : Prop := ∀ x ∈ extra, x.2 = .absent

theorem emptied_nil : Emptied ([] : Holdings κ) := fun _ hx => absurd hx List.not_mem_nil

variable [Scalar κ] [Literal κ] {simplifier : Option (Simplifier κ)}

/-- **The derivative of an expression.** -/
theorem deriveExpression_spec (h : w.store.Holds b c own) (he : (e, p) ∈ own) :
    (deriveExpression v simplifier e).Ensures w
      (fun e' w' => ∃ q : Planted κ, p.tree.nextDerivative v simplifier = .ok q.tree ∧
        q.tree.isWellFormed = true ∧ w'.store.Holds b c ((e', q) :: own))
      (Halted b c own (fun op => p.tree.derivative v = .error op) (p.tree.isSpelled = false)) := by
  unfold deriveExpression
  refine ensures_look ?_
  rw [h.root?_eq he]
  refine (Ensures.mono (derive_spec (h.stands he) h.accounted) (fun _ _ => id) ?_).bind ?_
  · exact fun f w' hr => Refused.halted h hr
  rintro _ w₁ ⟨q, hq, rfl, hs, hm⟩
  have hwf : q.tree.isWellFormed = true :=
    q.tree.isWellFormed_iff.mpr ⟨(Tree.isOperational_of_derivative hq).2, hs⟩
  refine (succeeds_onStore (newExpression_spec h hm)).bind fun e' w₂ h₂ => ?_
  cases simplifier with
  | none =>
    refine ensures_pure ⟨q, ?_, hwf, h₂⟩
    simp only [Tree.nextDerivative, hq]
  | some σ =>
    refine (Succeeds.discard (σ.run_spec h₂ (.inr hwf))).bind ?_
    rintro - w₃ ⟨-, q', h₃, ⟨-, rfl⟩ | ⟨hwf', hq'⟩⟩
    · cases hwf
    · refine ensures_pure ⟨q', ?_, hwf', h₃⟩
      simp only [Tree.nextDerivative, hq, hq']

/-- Further derivatives of a derivative never fail. -/
theorem furtherDerivatives_spec (count k : Nat) (h : w.store.Holds b c ((e, p) :: own))
    (hw : p.tree.isWellFormed = true) :
    (furtherDerivatives v simplifier count k true e).Succeeds w fun e' w' =>
      ∃ (q : Planted κ) (extra : Holdings κ),
        p.tree.higherDerivative v simplifier count = .ok q.tree ∧ q.tree.isWellFormed = true ∧
        Emptied extra ∧ w'.store.Holds b c ((e', q) :: (extra ++ own)) := by
  induction count generalizing w e p k own with
  | zero => exact ensures_pure ⟨p, [], rfl, hw, emptied_nil, h⟩
  | succ count ih =>
    unfold furtherDerivatives
    have hmem : (e, p) ∈ (e, p) :: own := List.mem_cons_self
    refine (deriveExpression_spec h hmem).attempt.bind ?_
    rintro (f | e') w₁ hr
    · cases (Halted.isWellFormed hr).symm.trans hw
    · obtain ⟨q, hq, hwq, h₁⟩ := hr
      simp only [pure_bind]
      refine (releaseIf_spec h₁).bind fun _ w₂ h₂ => ?_
      refine ensures_look ?_
      refine (succeeds_note _ w₂).bind fun _ w₃ hs => ?_
      have h₃ : w₃.store.Holds b c ((e', q) :: (e, .absent) :: own) := hs ▸ h₂
      refine (ih (k + 1) h₃ hwq).ensures.mono ?_ fun _ _ => id
      rintro e'' w' ⟨q', extra, hq', hw', hextra, h'⟩
      refine ⟨q', extra ++ [(e, .absent)], ?_, hw', ?_, by simpa using h'⟩
      · simp only [Tree.higherDerivative, hq]
        exact hq'
      · intro x hx
        rcases List.mem_append.mp hx with hx | hx
        · exact hextra x hx
        · rw [List.mem_singleton.mp hx]

/-- The derivatives of an expression that is kept: only the first one can fail. -/
theorem firstDerivatives_spec (count k : Nat) (h : w.store.Holds b c own) (he : (e, p) ∈ own) :
    (furtherDerivatives v simplifier (count + 1) k false e).Ensures w
      (fun e' w' => ∃ (q : Planted κ) (extra : Holdings κ),
        p.tree.higherDerivative v simplifier (count + 1) = .ok q.tree ∧
        q.tree.isWellFormed = true ∧ Emptied extra ∧
        w'.store.Holds b c ((e', q) :: (extra ++ own)))
      (Halted b c own (fun op => p.tree.derivative v = .error op) (p.tree.isSpelled = false)) := by
  unfold furtherDerivatives
  refine (deriveExpression_spec h he).attempt.bind ?_
  rintro (f | e') w₁ hr
  · cases hr with
    | noRule hu h₁ => exact ensures_throw (.noRule hu h₁)
    | stopped hm h₁ => exact ensures_throw (.stopped hm h₁)
  · obtain ⟨q, hq, hwq, h₁⟩ := hr
    simp only [pure_bind]
    have hkeep : (releaseIf false e : Work κ Unit).Succeeds w₁ fun _ w' => w₁ = w' := rfl
    refine hkeep.bind ?_
    rintro - _ rfl
    refine ensures_look ?_
    refine (succeeds_note _ w₁).bind fun _ w₂ hs => ?_
    have h₂ : w₂.store.Holds b c ((e', q) :: own) := hs ▸ h₁
    refine (furtherDerivatives_spec count (k + 1) h₂ hwq).ensures.mono ?_ fun _ _ => id
    rintro e'' w' ⟨q', extra, hq', hrest⟩
    refine ⟨q', extra, ?_, hrest⟩
    simp only [Tree.higherDerivative, hq]
    exact hq'

/-- The derivative of an order was made. Order zero, and any order of the empty expression, is a copy.
Nothing is left but the result and empty expressions. -/
def Differentiated (b : Int) (c : Nat) (own : Holdings κ) (p : Planted κ) (v : Name)
    (simplifier : Option (Simplifier κ)) (order : Int) (e : Expression) (w : Workspace κ) : Prop :=
  ∃ (q : Planted κ) (extra : Holdings κ), Emptied extra ∧
    (q.tree = p.tree ∧ (order.toNat = 0 ∨ p = .absent) ∨
      q.tree.isWellFormed = true ∧ p.tree.higherDerivative v simplifier order.toNat = .ok q.tree) ∧
    w.store.Holds b c ((e, q) :: (extra ++ own))

/-- **The derivative of any order.** -/
theorem differentiate_spec (h : w.store.Holds b c own) (he : (e, p) ∈ own) (order : Int) :
    (differentiate e v order simplifier).Ensures w
      (Differentiated b c own p v simplifier order)
      fun f w' => (f = .negativeOrder order ∧ order < 0) ∧ w' = w ∨
        Halted b c own (fun op => p.tree.derivative v = .error op) (p.tree.isSpelled = false) f w' := by
  have hcopy : order.toNat = 0 ∨ p = .absent →
      (onStore (copyExpression e)).Ensures w (Differentiated b c own p v simplifier order)
        fun f w' => (f = .negativeOrder order ∧ order < 0) ∧ w' = w ∨
          Halted b c own (fun op => p.tree.derivative v = .error op) (p.tree.isSpelled = false) f w' := by
    intro hsame
    refine (ensures_onStore (copyExpression_spec h he)).mono ?_ ?_
    · rintro e' w' ⟨-, q, hq, h'⟩
      exact ⟨q, [], emptied_nil, .inl ⟨hq, hsame⟩, h'⟩
    · rintro f w' ⟨hs, ⟨n, rfl⟩, b', h'⟩
      exact .inr (.stopped hs h')
  unfold differentiate
  by_cases ho : order < 0
  · rw [if_pos ho]
    exact ensures_throw (.inl ⟨⟨rfl, ho⟩, rfl⟩)
  · rw [if_neg ho]
    refine ensures_look ?_
    rw [h.root?_eq he]
    split
    · exact hcopy (.inl ‹_›)
    · exact hcopy (.inr (Planted.eq_absent_of_ref? ‹_›))
    · rename_i n r hn hr
      refine ((firstDerivatives_spec n 1 h he).mono (fun _ _ => id) fun f w' hf => .inr hf).bind ?_
      rintro e' w₁ ⟨q, extra, hq, hwf, hextra, h₁⟩
      refine ensures_look ?_
      refine (succeeds_note _ w₁).bind fun _ w₂ hs => ?_
      refine ensures_pure ⟨q, extra, hextra, .inr ⟨hwf, hn ▸ hq⟩, ?_⟩
      rw [hs]
      exact h₁

/-- **A well-formed tree has a derivative of any order**, and it is the one of the plain tree. -/
theorem differentiate_of_isWellFormed (h : w.store.Holds b c own) (he : (e, p) ∈ own)
    (hw : p.tree.isWellFormed = true) {order : Int} (ho : 0 ≤ order) :
    (differentiate e v order simplifier).Succeeds w fun e' w' =>
      ∃ (q : Planted κ) (extra : Holdings κ), Emptied extra ∧ q.tree.isWellFormed = true ∧
        p.tree.higherDerivative v simplifier order.toNat = .ok q.tree ∧
        w'.store.Holds b c ((e', q) :: (extra ++ own)) := by
  refine (differentiate_spec h he order).mono ?_ ?_
  · rintro e' w' ⟨q, extra, hextra, ⟨hq, hsame⟩ | ⟨hwq, hq⟩, h'⟩
    · have hzero : order.toNat = 0 := hsame.resolve_right fun habsent => by
        rw [habsent] at hw
        cases hw
      refine ⟨q, extra, hextra, hq ▸ hw, ?_, h'⟩
      rw [hzero, hq]
      rfl
    · exact ⟨q, extra, hextra, hwq, hq, h'⟩
  · rintro f w' (⟨⟨-, hneg⟩, -⟩ | hf)
    · omega
    · cases hf.isWellFormed.symm.trans hw

end Work

end Fluxion
