import Fluxion.Fault

/-!
# Expression trees

A tree is a literal, a variable, or an operation on one or two subtrees. `absent` is the empty
tree: as a whole it stands for the empty expression, below an operation for an empty slot. An
operation node may carry any operator, so trees also describe what the library has to refuse.

* `Tree.size`, `Tree.depth` and `Tree.operations` measure a tree.
* `Tree.mentions` says whether a variable of a name occurs.
* `Tree.isWellFormed` holds when every node carries an operation of the right number of arguments,
  no slot is empty and every name is a letter.
-/

namespace Fluxion

/-- Trees of operations over literals of type `κ`. -/
inductive Tree (κ : Type) where
  | absent
  | literal (value : κ)
  | var (name : Name)
  | binary (op : Operator) (left right : Tree κ)
  | unary (op : Operator) (operand : Tree κ)
deriving Repr, DecidableEq

namespace Tree

variable {κ : Type}

instance : Inhabited (Tree κ) := ⟨absent⟩

/-- Whether this is the empty tree. -/
def isAbsent : Tree κ → Bool
  | absent => true
  | _ => false

/-- The value of a literal. -/
def literal? : Tree κ → Option κ
  | literal v => some v
  | _ => none

/-- The kind of the root, if there is one. -/
def kind? : Tree κ → Option Kind
  | absent => none
  | literal _ => some .literal
  | var _ => some .var
  | binary .. => some .binary
  | unary .. => some .unary

/-- The subtrees in the slots of the root, empty ones left out. -/
def children : Tree κ → List (Tree κ)
  | binary _ l r => [l, r].filter (!·.isAbsent)
  | unary _ x => [x].filter (!·.isAbsent)
  | _ => []

/-- The number of nodes. -/
def size : Tree κ → Nat
  | absent => 0
  | literal _ => 1
  | var _ => 1
  | binary _ l r => l.size + r.size + 1
  | unary _ x => x.size + 1

/-- What a loop has still to do, as a stack of trees, each with whether its operands were put on the
stack before it: a tree is seen to at most twice, before its operands and after them. -/
def effort : List (Tree κ × Bool) → Nat
  | [] => 0
  | (t, expanded) :: stack => (if expanded then 1 else 3 * t.size + 1) + effort stack

/-- The number of nodes on the longest way down. -/
def depth : Tree κ → Nat
  | absent => 0
  | literal _ => 1
  | var _ => 1
  | binary _ l r => max l.depth r.depth + 1
  | unary _ x => x.depth + 1

/-- The number of operation nodes. -/
def operations : Tree κ → Nat
  | absent => 0
  | literal _ => 0
  | var _ => 0
  | binary _ l r => l.operations + r.operations + 1
  | unary _ x => x.operations + 1

/-- Whether a variable called `name` occurs. -/
def mentions (name : Name) : Tree κ → Bool
  | absent => false
  | literal _ => false
  | var n => n = name
  | binary _ l r => l.mentions name || r.mentions name
  | unary _ x => x.mentions name

/-- Whether the tree can be evaluated and differentiated, given values for its variables. -/
def isWellFormed : Tree κ → Bool
  | absent => false
  | literal _ => true
  | var n => n.isLetter
  | binary op l r => (op.resolveArity 2).isSome && l.isWellFormed && r.isWellFormed
  | unary op x => (op.resolveArity 1).isSome && x.isWellFormed

/-! ## Building -/

/-- An operation of two arguments. -/
def apply₂ (op : Operation) (l r : Tree κ) : Tree κ := binary (.known op) l r

/-- An operation of one argument. -/
def apply₁ (op : Operation) (x : Tree κ) : Tree κ := unary (.known op) x

/-- Only the empty tree has no nodes. -/
theorem size_pos_of_not_absent {t : Tree κ} (h : t.isAbsent = false) : 0 < t.size := by
  cases t <;> simp_all [size, isAbsent]

/-- The empty tree is not well-formed. -/
theorem isAbsent_of_isWellFormed {t : Tree κ} (h : t.isWellFormed = true) : t.isAbsent = false := by
  cases t with
  | absent => cases h
  | _ => rfl

end Tree

end Fluxion
