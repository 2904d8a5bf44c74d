import Fluxion.Tree.Recipe

/-!
# The derivative of a tree

The derivative by a variable is formed from the leaves up by one rule per operation. An operand that
a rule needs again is repeated in the result, so the result shares nothing with the tree it came
from.

An operator without a rule, and an empty slot, make the derivative fail; the first one met, parents
before children and left before right, is reported.

* `Tree.derivative` is the derivative.
-/

namespace Fluxion

/-- What stands for the operator of an empty slot. -/
def Operator.emptySlot : Operator := .text "NoneType"

namespace Tree

variable {κ : Type} [Coefficient κ]

/-- The derivative of a tree by the variable `v`, or the operator without a rule. -/
def derivative (v : Name) : Tree κ → Except Operator (Tree κ)
  | absent => .error .emptySlot
  | literal _ => .ok (literal (Coefficient.ofNat 0))
  | var n => .ok (literal (Coefficient.ofNat (if n = v then 1 else 0)))
  | binary op l r =>
    match Plan.ofOperator op l.literal? r.literal? with
    | none => .error op
    | some (.left q) =>
      match l.derivative v with
      | .error o => .error o
      | .ok dl => .ok (q.fill (fun _ => l) (fun _ => dl))
    | some (.right q) =>
      match r.derivative v with
      | .error o => .error o
      | .ok dr => .ok (q.fill (fun _ => r) (fun _ => dr))
    | some (.both q) =>
      match l.derivative v with
      | .error o => .error o
      | .ok dl =>
        match r.derivative v with
        | .error o => .error o
        | .ok dr => .ok (q.fill (Side.pick l r) (Side.pick dl dr))
  | unary op x =>
    match Recipe.ofOperator op with
    | none => .error op
    | some q =>
      match x.derivative v with
      | .error o => .error o
      | .ok dx => .ok (q.fill (fun _ => x) (fun _ => dx))

end Tree

end Fluxion
