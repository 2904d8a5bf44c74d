import Fluxion.Taylor
import Fluxion.VariableTable

/-!
# Sessions

A session holds one expression, the table of its variables, and the derivatives made so far. A
derivative is made once per order and simplified under the values of the table, so setting a variable
gives all of them back. Closing a session gives everything back.

* `Session.start` opens a session.
* `Session.setVariable`, `Session.differentiate`, `Session.evaluate`, `Session.evaluateDerivative`,
  `Session.taylor`, `Session.sample` and `Session.close` are what can be done in one.
-/

namespace Fluxion

/-- An open or closed session: the variable, how to simplify, the table, the expression unless the
session was closed, and the derivatives made so far by order. -/
structure Session (κ : Type) where
  argument : Name
  maxIterations : Int
  simplifies : Bool
  table : VariableTable κ
  expression : Option Expression
  derivatives : List (Int × Expression)

/-- Acts in a session. -/
abbrev SessionWork (κ : Type) := Act (Session κ × Workspace κ)

/-- A sample of a function on a grid, with the overlays that were asked for. -/
structure Sample (κ : Type) where
  grid : List κ
  function : List κ
  taylor : Option (List κ)
  tangent : Option (List κ)

/-- What to sample: the ends of the grid, the number of points, and the overlays. -/
structure SampleRequest (κ : Type) where
  low : κ
  high : κ
  points : Int
  taylorPoint : Option κ
  taylorOrder : Option Int
  tangentPoint : Option κ

namespace Session

variable {κ α : Type}

/-- An act on the workspace. -/
def onWorkspace (act : Work κ α) : SessionWork κ α :=
  act.within fun (s, w) => (w, fun w => (s, w))

/-- An act on the table. -/
def onTable (act : Act (VariableTable κ) α) : SessionWork κ α :=
  act.within fun (s, w) => (s.table, fun t => ({ s with table := t }, w))

/-- The session itself. -/
def current : SessionWork κ (Session κ) := do return (← get).1

/-- Changes the session. -/
def change (f : Session κ → Session κ) : SessionWork κ Unit := modify fun s => (f s.1, s.2)

/-- The expression, which must not have been given back. -/
def requireOpen : SessionWork κ Expression := do
  match (← current).expression with
  | some e => pure e
  | none => throw .sessionClosed

/-- Gives all derivatives back. -/
def invalidate : SessionWork κ Unit := do
  let s ← current
  onWorkspace (s.derivatives.forM fun d => Work.onStore (Store.releaseExpression d.2))
  change fun s => { s with derivatives := [] }

/-- Sets a variable; the derivatives no longer hold. -/
def setVariable (name : Name) (value : κ) : SessionWork κ Unit := do
  onTable (VariableTable.set name value)
  invalidate

/-- Gives everything back. -/
def close : SessionWork κ Unit := do
  invalidate
  match (← current).expression with
  | some e =>
    onWorkspace (Work.onStore (Store.releaseExpression e))
    change fun s => { s with expression := none }
  | none => pure ()

/-- The valuation of the table after setting some variables in a copy of it. -/
def valuationWith (extra : List (Name × κ)) : SessionWork κ (Valuation κ) := do
  match (VariableTable.update extra).perform (← current).table with
  | (.ok _, t) => pure t.valuation
  | (.error f, _) => throw f

variable [Literal κ]

/-- Opens a session: the level of the journal is set first, then the table is filled, then the
formula is read. -/
def start (text : String) (argument : Name) (bindings : List (Name × κ)) (maxIterations : Int)
    (simplifies : Bool) (level : Option Level) : Work κ (Session κ) := do
  match level with
  | some l => Work.setLevel l
  | none => pure ()
  let table ← Act.ofExcept (VariableTable.ofList bindings)
  let e ← Work.readFormula Formula.defaultLimit text
  Work.note (.info .moderate
    ("Session opened for '" ++ text ++ "' in variable '" ++ argument.shown ++ "'"))
  pure ⟨argument, maxIterations, simplifies, table, some e, []⟩

variable [Scalar κ]

/-- The simplifier of a session. -/
def simplifier (s : Session κ) : Simplifier κ :=
  .standard s.argument s.table.valuation s.maxIterations

/-- The derivative of an order, made at the first call and kept for the next ones. -/
def differentiate (order : Int) : SessionWork κ Expression := do
  let e ← requireOpen
  let s ← current
  match s.derivatives.lookup order with
  | some d => pure d
  | none =>
    let d ← onWorkspace do
      let d ← Work.differentiate e s.argument order (if s.simplifies then some s.simplifier else none)
      discard (s.simplifier.run d)
      pure d
    change fun s => { s with derivatives := s.derivatives ++ [(order, d)] }
    pure d

/-- The value of the expression, with some variables set for this once. -/
def evaluate (extra : List (Name × κ)) : SessionWork κ κ := do
  let ρ ← valuationWith extra
  let e ← requireOpen
  onWorkspace do
    Work.evaluate ρ (← Work.look (·.root? e))

/-- The value of the derivative of an order, optionally at a point. -/
def evaluateDerivative (order : Int) (point : Option κ) : SessionWork κ κ := do
  let s ← current
  let ρ ← valuationWith (point.toList.map fun x => (s.argument, x))
  let d ← differentiate order
  onWorkspace do
    Work.evaluate ρ (← Work.look (·.root? d))

/-- A Taylor polynomial of the expression, which belongs to the caller. -/
def taylor (point : κ) (order : Int) : SessionWork κ Expression := do
  let s ← current
  let plan ← Act.ofExcept
    (TaylorPlan.make s.argument point order s.table.valuation s.simplifies s.maxIterations)
  let e ← requireOpen
  onWorkspace (plan.polynomial e)

/-- The values of a Taylor polynomial on a grid; the polynomial is given back. -/
def sampleTaylor (point : κ) (order : Int) (xs : List κ) : SessionWork κ (List κ) := do
  let polynomial ← taylor point order
  let s ← current
  onWorkspace do
    let root ← Work.look (·.root? polynomial)
    let values ← (Work.evaluateOn s.table.valuation s.argument root xs).attempt
    Work.onStore (Store.releaseExpression polynomial)
    Act.ofExcept values

/-- The values of the tangent at a point on a grid. -/
def sampleTangent (point : κ) (xs : List κ) : SessionWork κ (List κ) := do
  let value ← evaluate [((← current).argument, point)]
  let slope ← evaluateDerivative 1 (some point)
  pure (xs.map fun x => Scalar.add value (Scalar.mul slope (Scalar.sub x point)))

/-- Samples the function on a uniform grid, with the overlays asked for. `grid` makes the points from
the two ends and their number. -/
def sample (grid : κ → κ → Nat → List κ) (q : SampleRequest κ) : SessionWork κ (Sample κ) := do
  if q.points < 2 then throw .tooFewPoints
  let e ← requireOpen
  let xs := grid q.low q.high q.points.toNat
  let s ← current
  let function ← onWorkspace do
    Work.evaluateOn s.table.valuation s.argument (← Work.look (·.root? e)) xs
  let taylor ←
    match q.taylorPoint, q.taylorOrder with
    | some a, some n => some <$> sampleTaylor a n xs
    | _, _ => pure none
  let tangent ←
    match q.tangentPoint with
    | some a => some <$> sampleTangent a xs
    | none => pure none
  pure ⟨xs, function, taylor, tangent⟩

end Session

end Fluxion
