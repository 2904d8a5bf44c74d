import Fluxion.Derivation
import Fluxion.Simplify.InPlace

/-!
# Derivatives of higher order

The derivative of an order is made order by order. Each one is made from the one before, which is
given back as soon as the next one is there; optionally each one is simplified before it is
differentiated again. The expression one starts from is never changed.

* `Work.differentiate` makes the derivative of an expression as a new expression.
-/

namespace Fluxion

namespace Work

variable {κ : Type} [Scalar κ] [Literal κ]

/-- Makes the derivative of an expression by a variable, simplified if a simplifier is given. -/
def deriveExpression (v : Name) (simplifier : Option (Simplifier κ)) (e : Expression) :
    Work κ Expression := do
  let d ← derive v (← look (·.root? e))
  let result ← onStore (Store.newExpression d)
  match simplifier with
  | some σ => discard (σ.run result)
  | none => pure ()
  pure result

/-- Gives an expression back if its owner is asked to clean up. -/
def releaseIf (owned : Bool) (e : Expression) : Work κ Unit :=
  if owned then onStore (Store.releaseExpression e) else pure ()

/-- Makes `count` further derivatives, the next one of order `k`. The source is given back if it is
owned, that is, if it is a derivative itself; it is also given back when an operation without a rule
stops the work. -/
def furtherDerivatives (v : Name) (simplifier : Option (Simplifier κ)) :
    Nat → Nat → Bool → Expression → Work κ Expression
  | 0, _, _, source => pure source
  | count + 1, k, owned, source => do
    let next ←
      match ← (deriveExpression v simplifier source).attempt with
      | .ok next => pure next
      | .error (.unknownOperation op) =>
        releaseIf owned source
        throw (.unknownOperation op)
      | .error f => throw f
    releaseIf owned source
    note (.step k (← sizeOf next) "")
    furtherDerivatives v simplifier count (k + 1) true next

/-- Makes the derivative of an order of an expression by a variable. Order zero, and any order of
the empty expression, is a copy. -/
def differentiate (e : Expression) (v : Name) (order : Int)
    (simplifier : Option (Simplifier κ)) : Work κ Expression := do
  if order < 0 then throw (.negativeOrder order)
  match order.toNat, ← look (·.root? e) with
  | 0, _ => onStore (Store.copyExpression e)
  | _, none => onStore (Store.copyExpression e)
  | n + 1, some _ =>
    let result ← furtherDerivatives v simplifier (n + 1) 1 false e
    let size ← sizeOf result
    note (.milestone ("d^" ++ toString order ++ "/d" ++ v.shown ++ "^" ++ toString order ++
      " built with " ++ toString size ++ " nodes"))
    pure result

end Work

end Fluxion
