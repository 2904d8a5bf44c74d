import Fluxion.Tree.Evaluation
import Fluxion.Tree.Matching

/-!
# Rules of simplification

A simplifier folds constants and applies algebraic identities. An operation that does not depend on
the variable is folded into its value, if it has a finite one under the bindings. An identity drops
an operand that makes no difference, or replaces an operation by the constant it must be. Literals
count as zero, as one or as equal within a tolerance.

* `Simplifier.folded?` is the value an operation folds into.
* `Simplifier.rule?` is what the first identity that applies makes of an operation.
* `Simplifier.fold` and `Simplifier.reduce` apply these once, from the leaves up, to a whole tree,
  and `Simplifier.normalize` repeats both until nothing changes.
-/

namespace Fluxion

/-- What to simplify by: the variable to keep, the values of the others, how often to go through the
tree at most, and how close two literals must be to count as one. -/
structure Simplifier (κ : Type) where
  argument : Name
  bindings : Valuation κ
  maxIterations : Int
  tolerance : κ

/-- What an identity makes of an operation: a constant, or one of its operands. -/
inductive Outcome (κ : Type) where
  | literal (value : κ)
  | left
  | right
deriving Repr, DecidableEq

namespace Simplifier

variable {κ : Type} [Scalar κ]

/-- How often the tree is gone through at most, unless told otherwise. -/
def defaultIterations : Int := 100

/-- The simplifier with the usual tolerance. -/
def standard (argument : Name) (bindings : Valuation κ) (maxIterations : Int) : Simplifier κ :=
  ⟨argument, bindings, maxIterations, Scalar.threshold⟩

variable (σ : Simplifier κ)

/-! ## Folding -/

/-- Whether a tree is an operation that does not depend on the variable. -/
def isFoldable : Tree κ → Bool
  | .binary op l r => !(Tree.binary op l r).mentions σ.argument
  | .unary op x => !(Tree.unary op x).mentions σ.argument
  | _ => false

/-- The finite value that a tree folds into, if it does; the fault of an evaluation that fails. -/
def folded? (t : Tree κ) : Except Fault (Option κ) :=
  if σ.isFoldable t then
    match t.evaluate σ.bindings with
    | .error f => .error f
    | .ok v => .ok (if Scalar.isFinite v then some v else none)
  else .ok none

/-! ## Identities -/

/-- Whether a tree counts as the literal zero. -/
def isZero (t : Tree κ) : Bool := t.isNear σ.tolerance Scalar.zero

/-- Whether a tree counts as the literal one. -/
def isOne (t : Tree κ) : Bool := t.isNear σ.tolerance Scalar.one

/-- Whether a tree is a literal above zero. -/
def isPositive : Tree κ → Bool
  | .literal v => Scalar.lt Scalar.zero v
  | _ => false

/-- The identities of an operation of two operands, the first that applies. -/
def identity? (op : Operation) (l r : Tree κ) : Option (Outcome κ) :=
  match op with
  | .add =>
    if σ.isZero r then some .left
    else if σ.isZero l then some .right
    else none
  | .sub =>
    if σ.isZero r then some .left
    else if l.agrees σ.tolerance r then some (.literal Scalar.zero)
    else none
  | .mul =>
    if σ.isZero l || σ.isZero r then some (.literal Scalar.zero)
    else if σ.isOne l then some .right
    else if σ.isOne r then some .left
    else none
  | .div =>
    if σ.isOne r then some .left
    else if σ.isZero l && !σ.isZero r && !r.mentions σ.argument then some (.literal Scalar.zero)
    else none
  | .pow =>
    if σ.isZero r then some (.literal Scalar.one)
    else if σ.isOne r then some .left
    else if σ.isOne l then some (.literal Scalar.one)
    else if σ.isZero l && isPositive r then some (.literal Scalar.zero)
    else none
  | _ => none

/-- What the first identity that applies makes of a tree. -/
def rule? : Tree κ → Option (Outcome κ)
  | .binary op l r =>
    match op.resolve with
    | some o => σ.identity? o l r
    | none => none
  | _ => none

/-! ## Passes over a plain tree -/

/-- The tree with the literal it folds into in its place. -/
def foldHere (t : Tree κ) : Tree κ :=
  match σ.folded? t with
  | .ok (some v) => .literal v
  | _ => t

/-- One folding pass. -/
def fold : Tree κ → Tree κ
  | .binary op l r => σ.foldHere (.binary op (fold l) (fold r))
  | .unary op x => σ.foldHere (.unary op (fold x))
  | t => t

/-- The tree with what an identity makes of it in its place. -/
def reduceHere (t : Tree κ) : Tree κ :=
  match σ.rule? t, t with
  | some (.literal v), _ => .literal v
  | some .left, .binary _ l _ => l
  | some .right, .binary _ _ r => r
  | _, t => t

/-- One pass of identities. -/
def reduce : Tree κ → Tree κ
  | .binary op l r => σ.reduceHere (.binary op (reduce l) (reduce r))
  | .unary op x => .unary op (reduce x)
  | t => t

/-- Both passes. -/
def pass (t : Tree κ) : Tree κ := σ.reduce (σ.fold t)

/-- Repeats both passes until no operation goes away, at most a number of times. -/
def normalizeIn : Nat → Tree κ → Tree κ
  | 0, t => t
  | rounds + 1, t =>
    let next := σ.pass t
    if next.operations = t.operations then t else normalizeIn rounds next

/-- The tree after all passes. -/
def normalize (t : Tree κ) : Tree κ := σ.normalizeIn σ.maxIterations.toNat t

end Simplifier

end Fluxion
