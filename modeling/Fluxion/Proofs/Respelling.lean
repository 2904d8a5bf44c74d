import Fluxion.Proofs.Numerals
import Fluxion.Proofs.Shape

/-!
# Trees that come back from a text

A text names an operation by its symbol, whichever operator a node carries for it, and it spells literals.
So what is read back is the tree with the same operations, each by itself, and with a tree for each
literal.

* `Tree.respelled` is the tree that comes back.
* `Tree.Valid.respelled` says that it is valid.
-/

namespace Fluxion

/-- A letter is shown as its one character. -/
theorem Name.exists_letter {n : Name} (h : n.isLetter = true) :
    ∃ c : Char, n.shown.toList = [c] ∧ c.isAlpha = true := by
  cases n with
  | none => cases h
  | some s =>
    unfold isLetter at h
    dsimp only at h
    split at h
    · exact ⟨_, ‹_›, h⟩
    · cases h

namespace Operator

/-- The operator by the operation it means. -/
def named (o : Operator) : Operator :=
  match o.resolve with
  | some op => known op
  | none => o

variable {o : Operator} {op : Operation}

/-- With its number of operands, an operator means an operation of that many arguments. -/
theorem exists_resolve {n : Nat} (h : (o.resolveArity n).isSome = true) :
    ∃ op : Operation, op.arity = n ∧ o.resolve = some op := by
  obtain ⟨op, hop⟩ := Option.isSome_iff_exists.mp h
  exact ⟨op, arity_of_resolveArity hop, resolve_of_resolveArity hop⟩

theorem named_of_resolve (h : o.resolve = some op) : o.named = known op := by
  rw [named, h]

@[simp] theorem resolve_named (o : Operator) : o.named.resolve = o.resolve := by
  unfold named
  split
  · rename_i h
    exact h.symm
  · rfl

/-- An operation and its bare code mean the same. -/
theorem resolve_canonical (o : Operator) : o.canonical.resolve = o.resolve := by
  cases o with
  | known op => cases op <;> decide
  | _ => rfl

/-- An operator compares equal to the operation it means. -/
@[simp] theorem same_named (o : Operator) : o.named.same o = true := by
  have hcode : ∀ (n : Int) (op : Operation), Operation.ofCode? n = some op → (op.code : Int) = n := by
    intro n op h
    have hbeq := List.find?_some h
    exact eq_of_beq hbeq
  unfold named same
  rw [decide_eq_true_iff]
  split
  · rename_i op h
    cases o with
    | known op' =>
      cases h
      rfl
    | code n => exact congrArg code (hcode n op h)
    | text s => cases h
    | absent => cases h
  · rfl

@[simp] theorem resolveArity_named (o : Operator) (n : Nat) :
    o.named.resolveArity n = o.resolveArity n := by
  rw [resolveArity, resolve_named, resolveArity]

end Operator

namespace Tree

variable {κ : Type} {f : κ → Tree κ}

/-- The tree with every operator by its operation and the tree `f v` in place of the literal `v`. -/
def respelled (f : κ → Tree κ) : Tree κ → Tree κ
  | absent => absent
  | literal v => f v
  | var n => var n
  | binary op l r => binary op.named (l.respelled f) (r.respelled f)
  | unary op x => unary op.named (x.respelled f)

/-- The tree with every operator by its operation. -/
def named (t : Tree κ) : Tree κ := t.respelled literal

/-- The values of the literals, from left to right. -/
def literals : Tree κ → List κ
  | absent => []
  | literal v => [v]
  | var _ => []
  | binary _ l r => l.literals ++ r.literals
  | unary _ x => x.literals

theorem respelled_congr {g : κ → Tree κ} {t : Tree κ} (h : ∀ v ∈ t.literals, f v = g v) :
    t.respelled f = t.respelled g := by
  induction t with
  | absent => rfl
  | literal v => exact h v (List.mem_singleton_self v)
  | var n => rfl
  | binary op l r ihl ihr =>
    obtain ⟨hl, hr⟩ := List.forall_mem_append.mp h
    rw [respelled, respelled, ihl hl, ihr hr]
  | unary op x ih => rw [respelled, respelled, ih h]

theorem isAbsent_absent : (absent : Tree κ).isAbsent = true := rfl

theorem isWellFormed_respelled (hf : ∀ v, (f v).isWellFormed = true) (t : Tree κ) :
    (t.respelled f).isWellFormed = t.isWellFormed := by
  induction t with
  | absent => rfl
  | literal v => exact hf v
  | var n => rfl
  | binary op l r ihl ihr =>
    simp only [respelled, isWellFormed, Operator.resolveArity_named, ihl, ihr]
  | unary op x ih => simp only [respelled, isWellFormed, Operator.resolveArity_named, ih]

theorem Valid.respelled {t : Tree κ} (h : t.Valid) (hf : ∀ v, (f v).isWellFormed = true) :
    (t.respelled f).Valid := by
  rcases h with rfl | h
  · exact .inl rfl
  · exact .inr ((isWellFormed_respelled hf t).trans h)

end Tree

end Fluxion
