import Fluxion.Differentiation

/-!
# Taylor polynomials

The Taylor polynomial of an expression at a point is the sum of the terms

  `f⁽ᵏ⁾(a) / k! · (v - a) ^ k`

up to an order. The derivatives are made one from the other, so that only one is kept at a time, and
evaluated with the variable bound to the point. The factorial is a running product. In the end the
polynomial is simplified.

Every term is recorded as it is found, so a build that fails still tells the terms before the
failure.

* `TaylorPlan.build` builds the polynomial.
-/

namespace Fluxion

/-- What to build: the variable, the point, the order, the values of the other variables, whether
derivatives are simplified on the way, and how long simplification may take. -/
structure TaylorPlan (κ : Type) where
  argument : Name
  point : κ
  order : Nat
  bindings : Valuation κ
  simplifies : Bool
  maxIterations : Int

/-- A term: its order, the value of the derivative at the point, and the coefficient. -/
structure TaylorTerm (κ : Type) where
  order : Nat
  value : κ
  coefficient : κ
deriving Repr

/-- The terms found, and the polynomial or the fault that prevented it. -/
structure TaylorResult (κ : Type) where
  terms : List (TaylorTerm κ)
  outcome : Except Fault Expression

/-- How far a build has come: the terms found, the derivative at hand, and a fault if there is one. -/
structure TaylorProgress (κ : Type) where
  terms : List (TaylorTerm κ)
  derivative : Expression
  outcome : Except Fault Unit

namespace TaylorPlan

variable {κ : Type} [Scalar κ] [Literal κ]

/-- A plan of an order, which must not be negative. -/
def make (argument : Name) (point : κ) (order : Int) (bindings : Valuation κ) (simplifies : Bool)
    (maxIterations : Int) : Except Fault (TaylorPlan κ) :=
  if order < 0 then .error (.negativeTaylorOrder order)
  else .ok ⟨argument, point, order.toNat, bindings, simplifies, maxIterations⟩

variable (p : TaylorPlan κ)

/-- The simplifier of a plan. -/
def simplifier : Simplifier κ := .standard p.argument p.bindings p.maxIterations

/-- The place of a plan in messages. -/
def place : String := p.argument.shown ++ "=" ++ (Literal.rounded p.point).brief

/-- Makes the term of order `k` with a coefficient. -/
def newTerm (k : Nat) (coefficient : κ) : Act (Store κ) Ref := do
  if k = 0 then Store.newLiteral .pool coefficient
  else
    let v ← Store.newVar .pool p.argument
    let a ← Store.newLiteral .pool p.point
    let shift ← Store.newBinary .pool (.known .sub) (some v) (some a)
    let exponent ← Store.newLiteral .pool (Coefficient.ofNat k)
    let power ← Store.newBinary .pool (.known .pow) (some shift) (some exponent)
    let c ← Store.newLiteral .pool coefficient
    Store.newBinary .pool (.known .mul) (some c) (some power)

/-- Adds the term of order `k` to a polynomial. -/
def addTerm (polynomial : Expression) (k : Nat) (coefficient : κ) : Act (Store κ) Unit := do
  let term ← p.newTerm k coefficient
  match (← get).root? polynomial with
  | none => Store.setRoot polynomial (some term)
  | some total =>
    Store.setRoot polynomial none
    let sum ← Store.newBinary .pool (.known .add) (some total) (some term)
    Store.setRoot polynomial (some sum)

/-- Makes the derivative of order `k` from the one before, which is given back. -/
def advance (k : Nat) (derivative : Expression) : Work κ Expression := do
  let next ← Work.deriveExpression p.argument (if p.simplifies then some p.simplifier else none)
    derivative
  Work.onStore (Store.releaseExpression derivative)
  Work.note (.step k (← Work.sizeOf next) "(Taylor)")
  pure next

/-- The derivative of order `k`, from the one before. -/
def derivativeOf (k : Nat) (derivative : Expression) : Work κ Expression :=
  if k = 0 then pure derivative else p.advance k derivative

/-- Finds `rounds` terms from order `k` on and adds them to a polynomial; `factorial` is that of the
order before. -/
def expand (polynomial : Expression) :
    Nat → Nat → κ → Expression → List (TaylorTerm κ) → Work κ (TaylorProgress κ)
  | 0, _, _, derivative, terms => pure ⟨terms, derivative, .ok ()⟩
  | rounds + 1, k, factorial, derivative, terms => do
    match ← (p.derivativeOf k derivative).attempt with
    | .error f => pure ⟨terms, derivative, .error f⟩
    | .ok derivative =>
      let factorial := if k = 0 then factorial else Scalar.mul factorial (Coefficient.ofNat k)
      let root ← Work.look (·.root? derivative)
      match ← (Work.evaluate (p.bindings.bind p.argument p.point) root).attempt with
      | .error f => pure ⟨terms, derivative, .error f⟩
      | .ok value =>
        let coefficient := Scalar.div value factorial
        if Scalar.isNaN value then
          Work.note (.warning ("Derivative of order " ++ toString k ++ " is undefined at " ++ p.place))
        let terms := terms ++ [⟨k, value, coefficient⟩]
        match ← (Work.onStore (p.addTerm polynomial k coefficient)).attempt with
        | .error f => pure ⟨terms, derivative, .error f⟩
        | .ok _ => expand polynomial rounds (k + 1) factorial derivative terms

/-- Simplifies a finished polynomial. -/
def finish (polynomial : Expression) : Work κ Expression := do
  discard (p.simplifier.run polynomial)
  let size ← Work.sizeOf polynomial
  Work.note (.milestone ("Taylor polynomial of order " ++ toString p.order ++ " at " ++ p.place ++
    " built with " ++ toString size ++ " nodes"))
  pure polynomial

/-- Builds the polynomial of an expression. A fault of the expression gives the unfinished
polynomial back; the derivative at hand is given back in any case. -/
def build (e : Expression) : Work κ (TaylorResult κ) := do
  match ← Work.look (·.root? e) with
  | none => pure ⟨[], .error .nothingToExpand⟩
  | some _ =>
    match ← (Work.onStore (Store.copyExpression e)).attempt with
    | .error f => pure ⟨[], .error f⟩
    | .ok derivative =>
      let polynomial ← Work.onStore (Store.newExpression none)
      let progress ← p.expand polynomial (p.order + 1) 0 Scalar.one derivative []
      match progress.outcome with
      | .error f =>
        if f.concernsExpression then Work.onStore (Store.releaseExpression polynomial)
        Work.onStore (Store.releaseExpression progress.derivative)
        pure ⟨progress.terms, .error f⟩
      | .ok _ =>
        Work.onStore (Store.releaseExpression progress.derivative)
        let outcome ← (p.finish polynomial).attempt
        pure ⟨progress.terms, outcome⟩

/-- Builds the polynomial of an expression, a fault being the fault of the act. -/
def polynomial (e : Expression) : Work κ Expression := do
  Act.ofExcept (← p.build e).outcome

end TaylorPlan

end Fluxion
