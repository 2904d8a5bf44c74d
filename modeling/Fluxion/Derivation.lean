import Fluxion.Tree.Derivative
import Fluxion.Workspace

/-!
# Derivatives in a store

The derivative of a tree of the store is made of new nodes only: a recipe is followed node by node,
and every operand that it names is copied. The tree itself is not changed.

An operator without a rule stops the work: it is noted, and the derivatives finished by then are
given back. Any other refusal, such as that of a node that cannot be copied, leaves behind the nodes
made so far.

* `Store.follow` follows a recipe.
* `Work.derive` makes the derivative of a tree.
-/

namespace Fluxion

namespace Store

variable {κ ι : Type}

/-- Copies what is in a slot. -/
def copySlot : Option Ref → Act (Store κ) (Option Ref)
  | none => pure none
  | some r => copy r

/-- Follows a recipe, given the operands and their derivatives. -/
def follow (u du : ι → Option Ref) : Recipe κ ι → Act (Store κ) (Option Ref)
  | .literal c => return some (← newLiteral .pool c)
  | .operand i => copySlot (u i)
  | .derivative i => pure (du i)
  | .binary op a b => do
    let l ← follow u du a
    let r ← follow u du b
    return some (← newBinary .pool (.known op) l r)
  | .backward op a b => do
    let r ← follow u du b
    let l ← follow u du a
    return some (← newBinary .pool (.known op) l r)
  | .unary op a => do
    let x ← follow u du a
    return some (← newUnary .pool (.known op) x)

end Store

namespace Work

variable {κ α : Type}

/-- Refuses to differentiate an operator. -/
def noRule (op : Operator) : Work κ α := do
  note (.critical ("No derivative rule for " ++ op.quoted))
  throw (.unknownOperation op)

/-- Gives a finished derivative back if an act finds an operator without a rule. -/
def orRelease (d : Option Ref) (act : Work κ α) : Work κ α := do
  match ← act.attempt with
  | .ok a => pure a
  | .error (.unknownOperation op) =>
    onStore (Store.release d)
    throw (.unknownOperation op)
  | .error f => throw f

variable [Coefficient κ]

/-- Makes a whole number. -/
def newWhole (n : Nat) : Work κ (Option Ref) :=
  onStore do return some (← Store.newLiteral .pool (Coefficient.ofNat n))

/-- Makes the derivative of what is in a slot, down to a depth. -/
def deriveTo (v : Name) : Nat → Option Ref → Work κ (Option Ref)
  | 0, _ => noRule .emptySlot
  | depth + 1, slot => do
    match ← look fun s => slot.bind s.node? with
    | none => noRule .emptySlot
    | some ⟨.literal _, _⟩ => newWhole 0
    | some ⟨.var n, _⟩ => newWhole (if n = v then 1 else 0)
    | some ⟨.binary op l r, _⟩ =>
      match Plan.ofOperator op (← look (·.literal? l)) (← look (·.literal? r)) with
      | none => noRule op
      | some (.left q) =>
        let dl ← deriveTo v depth l
        onStore (Store.follow (fun _ => l) (fun _ => dl) q)
      | some (.right q) =>
        let dr ← deriveTo v depth r
        onStore (Store.follow (fun _ => r) (fun _ => dr) q)
      | some (.both q) =>
        let dl ← deriveTo v depth l
        let dr ← orRelease dl (deriveTo v depth r)
        onStore (Store.follow (Side.pick l r) (Side.pick dl dr) q)
    | some ⟨.unary op x, _⟩ =>
      match Recipe.ofOperator op with
      | none => noRule op
      | some q =>
        let dx ← deriveTo v depth x
        onStore (Store.follow (fun _ => x) (fun _ => dx) q)

/-- Makes the derivative of a tree of the store by a variable. Without cycles no way down is longer
than the number of nodes. -/
def derive (v : Name) (r : Option Ref) : Work κ (Option Ref) := do
  deriveTo v ((← look (·.nodes.size)) + 1) r

end Work

end Fluxion
