import Fluxion.Tree.Derivative
import Mathlib.Tactic.Tauto

/-!
# The shape of trees and of their derivatives

A tree is well-formed when it is operational, that is, when every node carries an operation of its
number of operands and no slot is empty, and spelled, that is, when every name is a letter. Only the
first matters for differentiating: the derivative exists for operational trees and for no others, and
it is operational again. Only the second matters for making nodes.

* `Tree.isWellFormed_iff` splits well-formedness.
* `Recipe.derivatives` lists the derivatives that a recipe takes; every rule takes the derivative of
  an operand once.
* `Tree.exists_derivative` and `Tree.isOperational_of_derivative` say which trees have a derivative.
-/

namespace Fluxion

namespace Operator

/-- An operation means itself where it has its number of operands. -/
theorem resolveArity_known {op : Operation} {n : Nat} (h : op.arity = n) :
    (known op).resolveArity n = some op :=
  if_pos h

/-- What an operator means with `n` operands takes `n` arguments. -/
theorem arity_of_resolveArity {op : Operator} {o : Operation} {n : Nat}
    (h : op.resolveArity n = some o) : o.arity = n := by
  unfold resolveArity at h
  split at h
  · split at h
    · cases h
      assumption
    · cases h
  · cases h

/-- What an operator means with some number of operands is what it means. -/
theorem resolve_of_resolveArity {op : Operator} {o : Operation} {n : Nat}
    (h : op.resolveArity n = some o) : op.resolve = some o := by
  unfold resolveArity at h
  split at h
  · split at h
    · cases h
      assumption
    · cases h
  · cases h

end Operator

namespace Tree

variable {κ : Type}

/-- Whether every node carries an operation of the right number of operands and no slot is empty. -/
def isOperational : Tree κ → Bool
  | absent => false
  | literal _ => true
  | var _ => true
  | binary op l r => (op.resolveArity 2).isSome && l.isOperational && r.isOperational
  | unary op x => (op.resolveArity 1).isSome && x.isOperational

/-- Whether every name is a letter. -/
def isSpelled : Tree κ → Bool
  | absent => true
  | literal _ => true
  | var n => n.isLetter
  | binary _ l r => l.isSpelled && r.isSpelled
  | unary _ x => x.isSpelled

/-- The number of nodes of a kind. -/
def count (k : Kind) : Tree κ → Nat
  | absent => 0
  | literal _ => if k = .literal then 1 else 0
  | var _ => if k = .var then 1 else 0
  | binary _ l r => l.count k + r.count k + if k = .binary then 1 else 0
  | unary _ x => x.count k + if k = .unary then 1 else 0

theorem isWellFormed_iff (t : Tree κ) :
    t.isWellFormed = true ↔ t.isOperational = true ∧ t.isSpelled = true := by
  induction t with
  | binary op l r ihl ihr =>
    simp only [isWellFormed, isOperational, isSpelled, Bool.and_eq_true, ihl, ihr]
    tauto
  | unary op x ih =>
    simp only [isWellFormed, isOperational, isSpelled, Bool.and_eq_true, ih]
    tauto
  | _ => simp [isWellFormed, isOperational, isSpelled]

/-- The empty tree and the well-formed trees: what an expression may own. -/
def Valid (t : Tree κ) : Prop := t = absent ∨ t.isWellFormed = true

theorem Valid.isSpelled {t : Tree κ} (h : t.Valid) : t.isSpelled = true := by
  rcases h with rfl | h
  · rfl
  · exact (t.isWellFormed_iff.mp h).2

theorem Valid.isWellFormed {t : Tree κ} (h : t.Valid) (ha : t.isAbsent = false) :
    t.isWellFormed = true := by
  rcases h with rfl | h
  · cases ha
  · exact h

theorem eq_literal_of_literal? {t : Tree κ} {c : κ} (h : t.literal? = some c) : t = literal c := by
  cases t <;> simp_all [literal?]

end Tree

/-! ## Recipes -/

namespace Recipe

variable {κ ι : Type}

/-- The derivatives that a recipe takes, one entry for each time. -/
def derivatives : Recipe κ ι → List ι
  | literal _ => []
  | operand _ => []
  | derivative i => [i]
  | binary _ a b => a.derivatives ++ b.derivatives
  | backward _ a b => a.derivatives ++ b.derivatives
  | unary _ a => a.derivatives

/-- Whether every operation of a recipe has its number of arguments. -/
def isOperational : Recipe κ ι → Bool
  | literal _ => true
  | operand _ => true
  | derivative _ => true
  | binary op a b => op.arity = 2 && a.isOperational && b.isOperational
  | backward op a b => op.arity = 2 && a.isOperational && b.isOperational
  | unary op a => op.arity = 1 && a.isOperational

theorem isOperational_fill {q : Recipe κ ι} {u du : ι → Tree κ} (h : q.isOperational = true)
    (hu : ∀ i, (u i).isOperational = true) (hdu : ∀ i, (du i).isOperational = true) :
    (q.fill u du).isOperational = true := by
  induction q with
  | literal c => rfl
  | operand i => exact hu i
  | derivative i => exact hdu i
  | binary op a b iha ihb | backward op a b iha ihb =>
    simp only [isOperational, Bool.and_eq_true, decide_eq_true_eq] at h
    simp [fill, Tree.apply₂, Tree.isOperational, Operator.resolveArity_known h.1.1, iha h.1.2,
      ihb h.2]
  | unary op a ih =>
    simp only [isOperational, Bool.and_eq_true, decide_eq_true_eq] at h
    simp [fill, Tree.apply₁, Tree.isOperational, Operator.resolveArity_known h.1, ih h.2]

variable [Coefficient κ]

/-- Every function of one argument has a rule. -/
theorem ofFunction_of_arity {o : Operation} (ho : o.arity = 1) :
    ∃ r : Recipe κ Unit, ofFunction o = some r := by
  cases o with
  | add | sub | mul | div | pow | log => cases ho
  | _ => exact ⟨_, rfl⟩

/-- The rule for a function takes the derivative of its argument once. -/
theorem shape_ofFunction {o : Operation} {q : Recipe κ Unit} (h : ofFunction o = some q) :
    q.derivatives = [()] ∧ q.isOperational = true := by
  cases o with
  | add | sub | mul | div | pow | log => cases h
  | _ =>
    cases h
    exact ⟨rfl, rfl⟩

end Recipe

namespace Plan

variable {κ : Type} [Coefficient κ] {o : Operation} {a b : Option κ} {q : Recipe κ Unit}

/-- Every operation of two arguments has a rule. -/
theorem ofOperation_ne_none (ho : o.arity = 2) (a b : Option κ) : ofOperation o a b ≠ none := by
  cases o <;> cases a <;> cases b <;> simp_all [ofOperation, Operation.arity]

/-- Only a power with a literal exponent needs the derivative of its left operand alone. -/
theorem eq_left (h : ofOperation o a b = some (left q)) :
    ∃ c, o = .pow ∧ b = some c ∧ q = .powerOfLiteral c := by
  cases o <;> cases a <;> cases b <;> simp_all [ofOperation]

/-- Only a power of a literal base needs the derivative of its right operand alone. -/
theorem eq_right (h : ofOperation o a b = some (right q)) :
    ∃ c, o = .pow ∧ a = some c ∧ b = none ∧ q = .literalToPower c := by
  cases o <;> cases a <;> cases b <;> simp_all [ofOperation]

/-- A rule that takes the derivatives of both operands takes each once. -/
theorem shape_both {q : Recipe κ Side} (h : ofOperation o a b = some (both q)) :
    q.derivatives.Perm [.left, .right] ∧ q.isOperational = true := by
  cases o with
  | add | sub | mul | div =>
    cases h
    exact ⟨.refl _, rfl⟩
  | log =>
    cases h
    exact ⟨List.Perm.swap Side.left Side.right [], rfl⟩
  | pow =>
    cases a <;> cases b <;> cases h
    exact ⟨List.Perm.swap Side.left Side.right [], rfl⟩
  | _ => cases h

/-- What a rule at a node says: the operation has two arguments and a rule of its own. -/
theorem ofOperator_eq_some {op : Operator} {plan : Plan κ} (h : ofOperator op a b = some plan) :
    ∃ o, op.resolveArity 2 = some o ∧ ofOperation o a b = some plan :=
  Option.bind_eq_some_iff.mp h

end Plan

namespace Tree

variable {κ : Type} [Coefficient κ] {v : Name}

/-! ## Derivatives -/

/-- A derivative exists of operational trees only, and is operational. -/
theorem isOperational_of_derivative {t d : Tree κ} (h : t.derivative v = .ok d) :
    t.isOperational = true ∧ d.isOperational = true := by
  induction t generalizing d with
  | absent => cases h
  | literal c =>
    cases h
    exact ⟨rfl, rfl⟩
  | var n =>
    cases h
    exact ⟨rfl, rfl⟩
  | unary op x ih =>
    rw [derivative] at h
    split at h
    · cases h
    · rename_i q hq
      obtain ⟨o, ho, hf⟩ := Option.bind_eq_some_iff.mp hq
      split at h
      · cases h
      · rename_i dx hdx
        cases h
        obtain ⟨hx, hd⟩ := ih hdx
        refine ⟨?_, Recipe.isOperational_fill (Recipe.shape_ofFunction hf).2 (fun _ => hx) fun _ => hd⟩
        simp [isOperational, ho, hx]
  | binary op l r ihl ihr =>
    rw [derivative] at h
    split at h
    · cases h
    · rename_i q hq
      obtain ⟨o, ho, hp⟩ := Plan.ofOperator_eq_some hq
      obtain ⟨c, rfl, hc, rfl⟩ := Plan.eq_left hp
      split at h
      · cases h
      · rename_i dl hdl
        cases h
        obtain ⟨hl, hd⟩ := ihl hdl
        refine ⟨?_, Recipe.isOperational_fill rfl (fun _ => hl) fun _ => hd⟩
        simp [isOperational, ho, hl, eq_literal_of_literal? hc]
    · rename_i q hq
      obtain ⟨o, ho, hp⟩ := Plan.ofOperator_eq_some hq
      obtain ⟨c, rfl, hc, -, rfl⟩ := Plan.eq_right hp
      split at h
      · cases h
      · rename_i dr hdr
        cases h
        obtain ⟨hr, hd⟩ := ihr hdr
        refine ⟨?_, Recipe.isOperational_fill rfl (fun _ => hr) fun _ => hd⟩
        simp [isOperational, ho, hr, eq_literal_of_literal? hc]
    · rename_i q hq
      obtain ⟨o, ho, hp⟩ := Plan.ofOperator_eq_some hq
      split at h
      · cases h
      · rename_i dl hdl
        split at h
        · cases h
        · rename_i dr hdr
          cases h
          obtain ⟨hl, hd⟩ := ihl hdl
          obtain ⟨hr, hd'⟩ := ihr hdr
          refine ⟨by simp [isOperational, ho, hl, hr],
            Recipe.isOperational_fill (Plan.shape_both hp).2 (fun i => ?_) fun i => ?_⟩
          · cases i <;> assumption
          · cases i <;> assumption

/-- Every operational tree has a derivative. -/
theorem exists_derivative (v : Name) {t : Tree κ} (h : t.isOperational = true) :
    ∃ d, t.derivative v = .ok d := by
  induction t with
  | absent => cases h
  | literal c => exact ⟨_, rfl⟩
  | var n => exact ⟨_, rfl⟩
  | unary op x ih =>
    simp only [isOperational, Bool.and_eq_true] at h
    obtain ⟨o, ho⟩ := Option.isSome_iff_exists.mp h.1
    obtain ⟨q, hq⟩ := Recipe.ofFunction_of_arity (κ := κ) (Operator.arity_of_resolveArity ho)
    obtain ⟨dx, hdx⟩ := ih h.2
    exact ⟨_, by rw [derivative, Recipe.ofOperator, ho, Option.bind_some, hq, hdx]⟩
  | binary op l r ihl ihr =>
    simp only [isOperational, Bool.and_eq_true] at h
    obtain ⟨o, ho⟩ := Option.isSome_iff_exists.mp h.1.1
    obtain ⟨dl, hdl⟩ := ihl h.1.2
    obtain ⟨dr, hdr⟩ := ihr h.2
    cases hp : Plan.ofOperation o l.literal? r.literal? with
    | none => exact absurd hp (Plan.ofOperation_ne_none (Operator.arity_of_resolveArity ho) _ _)
    | some plan =>
      have hplan : Plan.ofOperator op l.literal? r.literal? = some plan := by
        rw [Plan.ofOperator, ho, Option.bind_some, hp]
      rw [derivative, hplan]
      cases plan with
      | left q => exact ⟨_, by rw [hdl]⟩
      | right q => exact ⟨_, by rw [hdr]⟩
      | both q => exact ⟨_, by rw [hdl, hdr]⟩

end Tree

end Fluxion
