import Fluxion.Simplify.Rules
import Fluxion.Workspace

/-!
# Simplifying in place

The tree of an expression is simplified where it stands. A pass first lists the nodes, children
before parents, and then visits them in that order; at each node it looks at the tree below as it is
by then. What a fold or an identity replaces is given back to the pool, and an operand that takes
the place of its operation is moved, not copied.

A folding pass and a pass of identities make one iteration. The iterations end with the first one
that changes nothing; if the limit is reached before, a warning is given and the tree stays as it is
by then.

* `Simplifier.run` simplifies an expression and tells whether it changed and in how many iterations.
-/

namespace Fluxion

/-- What a simplification did. -/
structure Simplification where
  changed : Bool
  iterations : Nat
deriving Repr, DecidableEq

namespace Simplifier

variable {κ : Type} [Scalar κ] [Literal κ] (σ : Simplifier κ)

/-- The value that the tree below a node folds into, with a failed evaluation noted. -/
def foldedAt (r : Ref) : Work κ (Option κ) := do
  let t ← Work.look (·.tree (some r))
  match σ.folded? t with
  | .ok v => pure v
  | .error f =>
    Work.noteEvaluation f
    Work.note (.debug ("Not folding " ++ t.formula ++ ": " ++ f.message))
    pure none

/-- Folds at a node; tells whether the tree changed. -/
def foldAt (e : Expression) (r : Ref) : Work κ Bool := do
  match ← σ.foldedAt r with
  | none => pure false
  | some v =>
    Work.onStore do
      let c ← Store.newLiteral .pool v
      Store.replaceSubtree e r (some c)
    pure true

/-- Moves the child in a slot of a node to the place of the node. -/
def promote (e : Expression) (r : Ref) (slot : Slot) : Act (Store κ) Unit := do
  let child := (← get).slot? r slot
  Store.detach r child
  Store.replaceSubtree e r child

/-- Applies an identity at a node; tells whether the tree changed. -/
def reduceAt (e : Expression) (r : Ref) : Work κ Bool := do
  match σ.rule? (← Work.look (·.tree (some r))) with
  | none => pure false
  | some (.literal v) =>
    Work.onStore do
      let c ← Store.newLiteral .pool v
      Store.replaceSubtree e r (some c)
    pure true
  | some .left =>
    Work.onStore (promote e r .left)
    pure true
  | some .right =>
    Work.onStore (promote e r .right)
    pure true

/-- Visits nodes one after the other; tells whether any visit changed the tree. -/
def visit (act : Ref → Work κ Bool) (rs : List Ref) : Work κ Bool :=
  rs.foldlM (fun changed r => return (← act r) || changed) false

/-- The nodes of an expression, children before parents. -/
def schedule (s : Store κ) (e : Expression) : List Ref :=
  match s.root? e with
  | some r => s.postOrder r
  | none => []

/-- One folding pass over an expression. -/
def foldPass (e : Expression) : Work κ Bool := do
  visit (σ.foldAt e) (← Work.look (schedule · e))

/-- One pass of identities over an expression. -/
def reducePass (e : Expression) : Work κ Bool := do
  visit (σ.reduceAt e) (← Work.look (schedule · e))

/-- What is said when the limit is reached. -/
def limitMessage : String :=
  "Simplifier stopped after " ++ toString σ.maxIterations ++
    " iterations without reaching a fixpoint; keeping the last state"

/-- Iterates, given how many iterations are left and done and whether the tree changed so far. -/
def iterate (e : Expression) : Nat → Nat → Bool → Work κ Simplification
  | 0, done, changed => do
    Work.warn σ.limitMessage
    pure ⟨changed, done⟩
  | left + 1, done, changed => do
    let folded ← σ.foldPass e
    let reduced ← σ.reducePass e
    if folded || reduced then iterate e left (done + 1) true
    else pure ⟨changed, done + 1⟩

/-- Simplifies an expression in place. The empty expression is left alone. -/
def run (e : Expression) : Work κ Simplification := do
  match ← Work.look (·.root? e) with
  | none => pure ⟨false, 0⟩
  | some _ => σ.iterate e σ.maxIterations.toNat 0 false

end Simplifier

end Fluxion
