import Fluxion.Tree.Basic

/-!
# Conversion

Which trees can be handed to an outside algebra system. Every well-formed tree can; otherwise the
first operation without a counterpart is reported. An operation of two operands is looked at after
its operands, one of one operand before.

* `Tree.convertible` is the check.
-/

namespace Fluxion

namespace Tree

variable {κ : Type}

/-- Checks that every operation of a tree has a counterpart outside. -/
def convertibleNode : Tree κ → Except Fault Unit
  | absent => .error .nothingToConvert
  | literal _ => .ok ()
  | var _ => .ok ()
  | binary op l r =>
    match l.convertibleNode with
    | .error f => .error f
    | .ok _ =>
      match r.convertibleNode with
      | .error f => .error f
      | .ok _ =>
        match op.resolveArity 2 with
        | some _ => .ok ()
        | none => .error (.unconvertibleBinary op)
  | unary op x =>
    match op.resolveArity 1 with
    | some _ => x.convertibleNode
    | none => .error (.unconvertibleUnary op)

/-- Checks an expression; the empty one cannot be converted. -/
def convertible (t : Tree κ) : Except Fault Unit := t.convertibleNode

end Tree

end Fluxion
