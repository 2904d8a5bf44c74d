import Fluxion.Proofs.TaylorSum

/-!
# What is bound to the variable leaves no trace

Simplifying, differentiating and expanding are done with respect to one variable, and that variable stays a
variable: whether it is bound meanwhile, and to what, changes nothing. The bindings are read in two places.
A fold evaluates a tree, but only one that does not mention the variable. An expansion evaluates the
derivatives, but with the variable bound to the point.

Two runs from one workspace, under valuations that agree on the other names, are therefore the same run: the
result or the fault, the trees left in the store, the warnings and the journal are equal.

* `Valuation.AgreeBut` says that valuations agree on every name but one.
* `Tree.value_eq_of_agreeBut`: a tree without the variable has one value under both, or one fault.
* `Simplifier.run_rebound`, `Work.differentiate_rebound` and `TaylorPlan.build_rebound` are the three runs.
* `Valuation.AgreeBut.outcomes_eq` puts them together.
-/

namespace Fluxion

variable {κ : Type}

/-- The valuations agree on every name but `v`, which may have different values or none. -/
structure Valuation.AgreeBut (v : Name) (ρ ρ' : Valuation κ) : Prop where
  elsewhere : ∀ {n}, n ≠ v → ρ n = ρ' n

variable {v : Name} {ρ ρ' : Valuation κ}

/-- Binding the variable hides what it was bound to. -/
theorem Valuation.AgreeBut.bind_eq (h : ρ.AgreeBut v ρ') (a : κ) : ρ.bind v a = ρ'.bind v a := by
  funext n
  unfold Valuation.bind
  by_cases hn : n = v
  · rw [if_pos hn, if_pos hn]
  · rw [if_neg hn, if_neg hn, h.elsewhere hn]

/-- **A tree that does not mention the variable** has the same value whatever is bound to it, or the same
fault. -/
theorem Tree.value_eq_of_agreeBut {K : Kernel κ} {t : Tree κ} (h : ρ.AgreeBut v ρ')
    (ht : t.mentions v = false) : t.value K ρ = t.value K ρ' := by
  induction t with
  | absent => rfl
  | literal c => rfl
  | var n =>
    have hn : n ≠ v := by simpa [mentions] using ht
    rw [value, value, h.elsewhere hn]
  | binary op l r ihl ihr =>
    obtain ⟨hl, hr⟩ := Bool.or_eq_false_iff.mp ht
    rw [value, value, ihl hl, ihr hr]
  | unary op x ih => rw [value, value, ih ht]

/-! ## Simplifying -/

namespace Simplifier

/-- The simplifier with other bindings. -/
def rebound (σ : Simplifier κ) (ρ : Valuation κ) : Simplifier κ := { σ with bindings := ρ }

variable [Scalar κ] {σ : Simplifier κ} (h : σ.bindings.AgreeBut σ.argument ρ)

include h

theorem folded?_rebound (t : Tree κ) : (σ.rebound ρ).folded? t = σ.folded? t := by
  -- what may be folded depends on the variable alone, and does not mention it
  have hsame : (σ.rebound ρ).isFoldable t = σ.isFoldable t := by cases t <;> rfl
  rw [folded?_eq, folded?_eq, hsame]
  cases hf : σ.isFoldable t with
  | false => rfl
  | true =>
    have hfree : t.mentions σ.argument = false := by
      cases t <;> simp_all [isFoldable]
    have hvalue : t.value .guarded (σ.rebound ρ).bindings = t.value .guarded σ.bindings :=
      (Tree.value_eq_of_agreeBut h hfree).symm
    rw [hvalue]

variable [Literal κ]

theorem foldPass_rebound (e : Expression) : (σ.rebound ρ).foldPass e = σ.foldPass e := by
  have hat : (σ.rebound ρ).foldAt e = σ.foldAt e := by
    funext r
    unfold foldAt foldedAt
    simp only [folded?_rebound h]
  rw [foldPass, foldPass, hat]

theorem iterate_rebound (e : Expression) (left done : Nat) (changed : Bool) :
    (σ.rebound ρ).iterate e left done changed = σ.iterate e left done changed := by
  induction left generalizing done changed with
  | zero => rfl
  | succ left ih =>
    have hreduce : (σ.rebound ρ).reducePass e = σ.reducePass e := rfl
    unfold iterate
    simp only [foldPass_rebound h, hreduce, ih]

/-- **Simplifying** is the same run whatever is bound to the variable. -/
theorem run_rebound (e : Expression) : (σ.rebound ρ).run e = σ.run e := by
  have hlimit : (σ.rebound ρ).maxIterations = σ.maxIterations := rfl
  unfold run
  simp only [iterate_rebound h, hlimit]

end Simplifier

variable [Scalar κ] [Literal κ]

/-! ## Differentiating -/

namespace Work

variable {σ : Simplifier κ} (h : σ.bindings.AgreeBut σ.argument ρ)

include h

theorem deriveExpression_rebound (v : Name) (e : Expression) :
    deriveExpression v (some (σ.rebound ρ)) e = deriveExpression v (some σ) e := by
  unfold deriveExpression
  simp only [σ.run_rebound h]

theorem furtherDerivatives_rebound (v : Name) (count k : Nat) (owned : Bool) (e : Expression) :
    furtherDerivatives v (some (σ.rebound ρ)) count k owned e =
      furtherDerivatives v (some σ) count k owned e := by
  induction count generalizing k owned e with
  | zero => rfl
  | succ count ih =>
    unfold furtherDerivatives
    simp only [deriveExpression_rebound h, ih]

/-- **Differentiating**, with every order simplified. -/
theorem differentiate_rebound (e : Expression) (v : Name) (order : Int) :
    differentiate e v order (some (σ.rebound ρ)) = differentiate e v order (some σ) := by
  unfold differentiate
  simp only [furtherDerivatives_rebound h]

end Work

/-! ## Expanding -/

namespace TaylorPlan

/-- The plan with other bindings. -/
def rebound (p : TaylorPlan κ) (ρ : Valuation κ) : TaylorPlan κ := { p with bindings := ρ }

variable {p : TaylorPlan κ} (h : p.bindings.AgreeBut p.argument ρ)

include h

theorem run_simplifier_rebound (e : Expression) : (p.rebound ρ).simplifier.run e = p.simplifier.run e :=
  p.simplifier.run_rebound h e

theorem derivativeOf_rebound (k : Nat) (e : Expression) :
    (p.rebound ρ).derivativeOf k e = p.derivativeOf k e := by
  have hderive : Work.deriveExpression (p.rebound ρ).argument
        (if (p.rebound ρ).simplifies then some (p.rebound ρ).simplifier else none) e =
      Work.deriveExpression p.argument (if p.simplifies then some p.simplifier else none) e := by
    change Work.deriveExpression p.argument (if p.simplifies then some (p.simplifier.rebound ρ) else none) e = _
    cases p.simplifies with
    | false => rfl
    | true => exact Work.deriveExpression_rebound h _ _
  unfold derivativeOf advance
  rw [hderive]

theorem expand_rebound (polynomial : Expression) (rounds k : Nat) (factorial : κ) (derivative : Expression)
    (terms : List (TaylorTerm κ)) :
    (p.rebound ρ).expand polynomial rounds k factorial derivative terms =
      p.expand polynomial rounds k factorial derivative terms := by
  induction rounds generalizing k factorial derivative terms with
  | zero => rfl
  | succ rounds ih =>
    have hbind : (p.rebound ρ).bindings.bind (p.rebound ρ).argument (p.rebound ρ).point =
        p.bindings.bind p.argument p.point := (h.bind_eq p.point).symm
    have hadd : (p.rebound ρ).addTerm = p.addTerm := rfl
    have hplace : (p.rebound ρ).place = p.place := rfl
    unfold expand
    simp only [derivativeOf_rebound h, hbind, hadd, hplace, ih]

/-- **Building a Taylor polynomial.** -/
theorem build_rebound (e : Expression) : (p.rebound ρ).build e = p.build e := by
  have hfinish : (p.rebound ρ).finish = p.finish := by
    have hplace : (p.rebound ρ).place = p.place := rfl
    have horder : (p.rebound ρ).order = p.order := rfl
    funext polynomial
    unfold finish
    simp only [run_simplifier_rebound h, hplace, horder]
  have horder : (p.rebound ρ).order = p.order := rfl
  unfold build
  simp only [expand_rebound h, hfinish, horder]

end TaylorPlan

/-! ## All three -/

/-- **The value of the variable leaves no trace.** From any workspace, an expression is simplified,
differentiated with its derivatives simplified, and expanded with the same outcome and the same workspace
left behind, under any two valuations that agree on the names other than the variable. -/
theorem Valuation.AgreeBut.outcomes_eq (h : ρ.AgreeBut v ρ') (w : Workspace κ) (e : Expression) :
    (∀ maxIterations tolerance,
      ((⟨v, ρ, maxIterations, tolerance⟩ : Simplifier κ).run e).perform w =
        ((⟨v, ρ', maxIterations, tolerance⟩ : Simplifier κ).run e).perform w) ∧
    (∀ order maxIterations,
      (Work.differentiate e v order (some (.standard v ρ maxIterations))).perform w =
        (Work.differentiate e v order (some (.standard v ρ' maxIterations))).perform w) ∧
    ∀ point order simplifies maxIterations,
      (do (← Act.ofExcept (TaylorPlan.make v point order ρ simplifies maxIterations)).build e :
          Work κ (TaylorResult κ)).perform w =
        (do (← Act.ofExcept (TaylorPlan.make v point order ρ' simplifies maxIterations)).build e :
          Work κ (TaylorResult κ)).perform w := by
  refine ⟨fun maxIterations tolerance => ?_, fun order maxIterations => ?_,
    fun point order simplifies maxIterations => ?_⟩
  · exact congrArg (Act.perform · w)
      (Simplifier.run_rebound (σ := ⟨v, ρ, maxIterations, tolerance⟩) h e).symm
  · exact congrArg (Act.perform · w)
      (Work.differentiate_rebound (σ := .standard v ρ maxIterations) h e v order).symm
  · unfold TaylorPlan.make
    split
    · rfl
    · exact congrArg (Act.perform · w)
        (TaylorPlan.build_rebound (p := ⟨v, point, order.toNat, ρ, simplifies, maxIterations⟩) h e).symm

/-! Two for `a`: the factor of `a * 3` is folded and `x` is kept, even if there is a value for `x`. -/

/-- Two for `a`. -/
@[irreducible] def two : Valuation Float := Valuation.empty.bind (some "a") 2.0

/-- Seven for `x` does not get into the tree. -/
theorem Valuation.AgreeBut.outcomes_eq_scaled :
    two.AgreeBut (some "x") (two.bind (some "x") 7.0) ∧
      ((Simplifier.standard (some "x") (two.bind (some "x") 7.0) 100).run ⟨0⟩).Succeeds
        (TaylorPlan.reading "x*(a*3)") (fun result w' => result = ⟨true, 2⟩ ∧
          w'.store.expressionTree ⟨0⟩ = .apply₂ .mul (.var (some "x")) (.literal 6.0)) := by
  have hagree : two.AgreeBut (some "x") (two.bind (some "x") 7.0) := ⟨fun hn => (if_neg hn).symm⟩
  have hrun : (((Simplifier.standard (some "x") two 100).run ⟨0⟩).perform
        (TaylorPlan.reading "x*(a*3)")).1 = .ok ⟨true, 2⟩ := by decide +kernel
  have htree : (((Simplifier.standard (some "x") two 100).run ⟨0⟩).perform
        (TaylorPlan.reading "x*(a*3)")).2.store.expressionTree ⟨0⟩ =
      .apply₂ .mul (.var (some "x")) (.literal 6.0) := by decide +kernel
  have hsame := (hagree.outcomes_eq (TaylorPlan.reading "x*(a*3)") ⟨0⟩).1 100 Scalar.threshold
  unfold Simplifier.standard at *
  rw [hsame] at hrun htree
  exact ⟨hagree, Act.ensures_of_ok (Prod.ext hrun rfl) ⟨rfl, htree⟩⟩

end Fluxion
