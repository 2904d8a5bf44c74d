import Fluxion.Bindings
import Fluxion.Proofs.Ensures
import Fluxion.Proofs.Planted
import Fluxion.Proofs.StackLoops
import Fluxion.Scalar.Double

/-!
# The order of evaluation

The nodes and the empty slots of a tree, operands before their operation and the left one before the right
one, decide what an evaluation comes to. Each of them can be at fault by itself: a variable without a value,
an operation node whose operator has no meaning for its number of operands, and any empty slot. The first
one at fault is the one reported; if none is, the value is that of the kernel applied from the leaves up.

* `Tree.subtrees` lists the nodes and the empty slots, each as the subtree below it.
* `Tree.ownFault?` is the fault of the root alone.
* `Tree.Yields` says what the kernel makes of a tree.
* `Tree.value_eq_error_iff` and `Tree.value_eq_ok` are the two ways an evaluation ends.
* `Work.evaluate_first_fault` is the statement on trees of a store.
-/

namespace Fluxion

open Act

namespace Tree

variable {κ : Type}

/-- All nodes and empty slots, each as the subtree below it: operands before their operation, and the left
operand before the right one. -/
def subtrees : Tree κ → List (Tree κ)
  | absent => [absent]
  | literal v => [literal v]
  | var n => [var n]
  | binary op l r => l.subtrees ++ r.subtrees ++ [binary op l r]
  | unary op x => x.subtrees ++ [unary op x]

/-- The fault of the root by itself, whatever is below it. -/
def ownFault? (ρ : Valuation κ) : Tree κ → Option Fault
  | absent => some .unknownNode
  | literal _ => none
  | var n => if (ρ n).isNone then some (.unbound n) else none
  | binary op _ _ => if (op.resolveArity 2).isNone then some (.unknownOperation op) else none
  | unary op _ => if (op.resolveArity 1).isNone then some (.unknownOperation op) else none

/-- The value of a tree: the kernel applied to the values of the operands. -/
inductive Yields (K : Kernel κ) (ρ : Valuation κ) : Tree κ → κ → Prop
  | literal (v : κ) : Yields K ρ (.literal v) v
  | var {n : Name} {v : κ} (h : ρ n = some v) : Yields K ρ (.var n) v
  | binary {op : Operator} {o : Operation} {l r : Tree κ} {a b : κ} (hop : op.resolveArity 2 = some o)
      (hl : Yields K ρ l a) (hr : Yields K ρ r b) : Yields K ρ (.binary op l r) (K.binary o a b)
  | unary {op : Operator} {o : Operation} {x : Tree κ} {a : κ} (hop : op.resolveArity 1 = some o)
      (hx : Yields K ρ x a) : Yields K ρ (.unary op x) (K.unary o a)

variable {K : Kernel κ} {ρ : Valuation κ} {t x : Tree κ} {f : Fault} {v : κ}

/-- Every tree is among its subtrees. -/
theorem mem_subtrees_self (t : Tree κ) : t ∈ t.subtrees := by
  cases t <;> simp [subtrees]

/-- The fault of a node lies with the expression. -/
theorem concernsExpression_of_ownFault? (h : x.ownFault? ρ = some f) : f.concernsExpression = true := by
  unfold ownFault? at h
  split at h
  case h_1 => cases h; rfl
  case h_2 => cases h
  all_goals
    split at h
    · cases h
      rfl
    · cases h

/-- **The first subtree at fault is the one reported**, and if none is at fault there is a value. -/
theorem value_eq (K : Kernel κ) (ρ : Valuation κ) (t : Tree κ) :
    match t.subtrees.findSome? (ownFault? ρ) with
    | some f => t.value K ρ = .error f
    | none => ∃ v, t.value K ρ = .ok v ∧ Yields K ρ t v := by
  induction t with
  | absent => rfl
  | literal v => exact ⟨v, rfl, .literal v⟩
  | var n =>
    rw [subtrees, List.findSome?_singleton, ownFault?, value]
    cases hn : ρ n with
    | some v => exact ⟨v, rfl, .var hn⟩
    | none => rfl
  | binary op l r ihl ihr =>
    rw [subtrees, List.findSome?_append, List.findSome?_append, List.findSome?_singleton, ownFault?, value]
    cases hl : l.subtrees.findSome? (ownFault? ρ) with
    | some f =>
      simp only [hl] at ihl
      rw [ihl]
      rfl
    | none =>
      simp only [hl] at ihl
      obtain ⟨a, hla, hla'⟩ := ihl
      rw [hla]
      cases hr : r.subtrees.findSome? (ownFault? ρ) with
      | some f =>
        simp only [hr] at ihr
        rw [ihr]
        rfl
      | none =>
        simp only [hr] at ihr
        obtain ⟨b, hrb, hrb'⟩ := ihr
        rw [hrb]
        cases hop : op.resolveArity 2 with
        | none => rfl
        | some o => exact ⟨_, rfl, .binary hop hla' hrb'⟩
  | unary op x ih =>
    rw [subtrees, List.findSome?_append, List.findSome?_singleton, ownFault?, value]
    cases hx : x.subtrees.findSome? (ownFault? ρ) with
    | some f =>
      simp only [hx] at ih
      rw [ih]
      rfl
    | none =>
      simp only [hx] at ih
      obtain ⟨a, hxa, hxa'⟩ := ih
      rw [hxa]
      cases hop : op.resolveArity 1 with
      | none => rfl
      | some o => exact ⟨_, rfl, .unary hop hxa'⟩

/-- An evaluation fails where a subtree is at fault, with the fault of the first one. -/
theorem value_eq_error_iff :
    t.value K ρ = .error f ↔ t.subtrees.findSome? (ownFault? ρ) = some f := by
  have h := value_eq K ρ t
  cases hf : t.subtrees.findSome? (ownFault? ρ) with
  | some f' =>
    simp only [hf] at h
    rw [h, Except.error.injEq, Option.some.injEq]
  | none =>
    simp only [hf] at h
    obtain ⟨v, hv, -⟩ := h
    rw [hv]
    exact iff_of_false nofun nofun

/-- An evaluation that does not fail gives the value of the tree. -/
theorem value_eq_ok (h : t.value K ρ = .ok v) :
    (∀ x ∈ t.subtrees, x.ownFault? ρ = none) ∧ Yields K ρ t v := by
  have hvalue := value_eq K ρ t
  cases hf : t.subtrees.findSome? (ownFault? ρ) with
  | some f =>
    simp only [hf] at hvalue
    cases h.symm.trans hvalue
  | none =>
    simp only [hf] at hvalue
    obtain ⟨v', hv, hv'⟩ := hvalue
    cases h.symm.trans hv
    exact ⟨List.findSome?_eq_none_iff.mp hf, hv'⟩

/-- The value of a tree is what its evaluation gives. -/
theorem Yields.value_eq (h : t.Yields K ρ v) : t.value K ρ = .ok v := by
  induction h with
  | literal v => rfl
  | var h => rw [value, h]
  | binary hop _ _ ihl ihr => rw [value, ihl, ihr, hop]
  | unary hop _ ih => rw [value, ih, hop]

theorem concernsExpression_of_value (h : t.value K ρ = .error f) : f.concernsExpression = true := by
  obtain ⟨x, -, hx⟩ := List.exists_of_findSome?_eq_some (value_eq_error_iff.mp h)
  exact concernsExpression_of_ownFault? hx

end Tree

namespace Work

variable {κ : Type} [Scalar κ] {w : Workspace κ} {p : Planted κ} {used : List Ref} {parent : Option Ref}

/-- Evaluating gives the value of the tree, or its fault, and does not change the store. -/
theorem evaluate_spec (ρ : Valuation κ) (r : Option Ref) (w : Workspace κ) :
    (evaluate ρ r).Ensures w
      (fun v w' => (w.store.tree r).evaluate ρ = .ok v ∧ w'.store = w.store)
      fun f w' => (w.store.tree r).evaluate ρ = .error f ∧ w'.store = w.store := by
  unfold evaluate conclude
  refine ensures_look ?_
  split
  · exact ensures_pure ⟨‹_›, rfl⟩
  · refine (succeeds_noteEvaluation _ w).bind fun _ w' hw => ?_
    exact ensures_throw ⟨‹_›, hw⟩

/-- Evaluating a tree that stands in the store. -/
theorem evaluate_of_stands (h : p.Stands w.store used parent) (ha : w.store.Apart used) (hne : p ≠ .absent)
    (ρ : Valuation κ) :
    (evaluate ρ p.ref?).Ensures w
      (fun v w' => p.tree.value .guarded ρ = .ok v ∧ w'.store = w.store)
      fun f w' => p.tree.value .guarded ρ = .error f ∧ w'.store = w.store := by
  have hvalue : (w.store.tree p.ref?).evaluate ρ = p.tree.value .guarded ρ := by
    rw [h.tree_eq ha]
    cases p with
    | absent => exact absurd rfl hne
    | _ => exact Tree.evaluate_eq_value ρ rfl
  rw [← hvalue]
  exact evaluate_spec ρ p.ref? w

/-- **The outcome of an evaluation** of any tree, with any operators and any empty slots. If no node and no
slot is at fault, it is the value of the tree. Otherwise it is the fault of the first one, operands before
their operation and left before right. -/
theorem evaluate_first_fault (h : p.Stands w.store used parent) (ha : w.store.Apart used)
    (hne : p ≠ .absent) (ρ : Valuation κ) :
    (evaluate ρ p.ref?).Ensures w
      (fun v _ => (∀ x ∈ p.tree.subtrees, x.ownFault? ρ = none) ∧ p.tree.Yields .guarded ρ v)
      fun f _ => ∃ before x after, p.tree.subtrees = before ++ x :: after ∧
        (∀ y ∈ before, y.ownFault? ρ = none) ∧ x.ownFault? ρ = some f := by
  refine (evaluate_of_stands h ha hne ρ).mono ?_ ?_
  · rintro v - ⟨hv, -⟩
    exact Tree.value_eq_ok hv
  · rintro f - ⟨hf, -⟩
    obtain ⟨before, x, after, hsplit, hx, hbefore⟩ :=
      List.findSome?_eq_some_iff.mp (Tree.value_eq_error_iff.mp hf)
    exact ⟨before, x, after, hsplit, hbefore, hx⟩

/-- An operation without a meaning on `y` and an empty slot. -/
def misused : Planted Float := .binary 2 (.text "??") (.var 0 (some "y")) .absent

/-- A workspace in which this tree stands. -/
def withMisused : Workspace Float :=
  ⟨((Store.plant misused.tree).perform (.stocked 4 2)).2, .opened .minimal, []⟩

/-- While `y` is bound to nothing, it is the first at fault; once it has a value, the empty slot is, and
the operation never is. -/
theorem evaluate_first_fault_misused :
    misused.Stands withMisused.store misused.refs none ∧ withMisused.store.Apart misused.refs ∧
      misused ≠ .absent ∧
      (evaluate (Bindings.valuation [(some "y", none)]) (some 2)).Ensures withMisused (fun _ _ => False)
        (fun f _ => f = .unbound (some "y")) ∧
      (evaluate (Bindings.valuation [(some "y", some 1.0)]) (some 2)).Ensures withMisused (fun _ _ => False)
        (fun f _ => f = .unknownNode) := by
  have hstands : misused.Stands withMisused.store misused.refs none :=
    ⟨⟨rfl, rfl, trivial⟩, List.Subset.refl _, by decide⟩
  have hapart : withMisused.store.Apart misused.refs := ⟨by decide +kernel, by decide +kernel⟩
  have hne : misused ≠ .absent := nofun
  have hslot : .absent ∈ misused.tree.subtrees := by decide +kernel
  have hfirst : ∀ (ρ : Valuation Float) (fault : Fault),
      misused.tree.subtrees.findSome? (Tree.ownFault? ρ) = some fault →
      (evaluate ρ (some 2)).Ensures withMisused (fun _ _ => False) fun f _ => f = fault := by
    intro ρ fault hfault
    refine Ensures.mono (evaluate_first_fault hstands hapart hne ρ) ?_ ?_
    · rintro v - ⟨hnone, -⟩
      cases hnone .absent hslot
    · rintro f - ⟨before, x, after, hsplit, hbefore, hx⟩
      have hf : misused.tree.subtrees.findSome? (Tree.ownFault? ρ) = some f :=
        List.findSome?_eq_some_iff.mpr ⟨before, x, after, hsplit, hx, hbefore⟩
      exact Option.some.inj (hf.symm.trans hfault)
  exact ⟨hstands, hapart, hne, hfirst _ _ (by decide +kernel), hfirst _ _ (by decide +kernel)⟩

end Work

end Fluxion
