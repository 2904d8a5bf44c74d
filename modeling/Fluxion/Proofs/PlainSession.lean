import Fluxion.Proofs.Expansion
import Fluxion.Proofs.PlainReading
import Fluxion.Session

/-!
# Sessions that keep nothing

A plain session has the formula as a plain tree and the table, and nothing else: whatever is asked for
is made from these two, so a derivative cannot be out of date. It says what the calls on a session
answer.

* `SessionCall` is a call on a session, and `Session.serve` makes calls one after the other.
* `PlainSession.answer` is the answer of a plain session, and `PlainSession.next` the session it leaves.
* `VariableTable.served` is a table after the calls that set a variable.
-/

namespace Fluxion

/-- A call on a session. -/
inductive SessionCall (κ : Type) where
  | setVariable (name : Name) (value : κ)
  | differentiate (order : Int)
  | evaluate (extra : List (Name × κ))
  | evaluateDerivative (order : Int) (point : Option κ)
  | taylor (point : κ) (order : Int)
  | sample (request : SampleRequest κ)
  | close

/-- What a caller gets to see. -/
inductive Answer (κ : Type) where
  | done
  | value (v : κ)
  | tree (t : Tree κ)
  | sample (s : Sample κ)

/-! ## Calls on a session -/

namespace SessionCall

variable {κ : Type} (grid : κ → κ → Nat → List κ)

/-- The tree of an expression that is handed out. -/
def treeOf (e : Expression) : SessionWork κ (Tree κ) :=
  Session.onWorkspace (Work.look (·.expressionTree e))

/-- Makes a call, with `grid` making the points of a sample; gives the answer and the expressions that belong to the caller from then on. -/
def act [Scalar κ] [Literal κ] : SessionCall κ → SessionWork κ (Answer κ × List Expression)
  | setVariable name value => do
    Session.setVariable name value
    pure (.done, [])
  | differentiate order => do
    let d ← Session.differentiate order
    let t ← treeOf d
    pure (.tree t, [])
  | evaluate extra => do
    let v ← Session.evaluate extra
    pure (.value v, [])
  | evaluateDerivative order point => do
    let v ← Session.evaluateDerivative order point
    pure (.value v, [])
  | taylor point order => do
    let e ← Session.taylor point order
    let t ← treeOf e
    pure (.tree t, [e])
  | sample request => do
    let s ← Session.sample grid request
    pure (.sample s, [])
  | close => do
    Session.close
    pure (.done, [])

end SessionCall

/-- What calls came to: their answers, refusals included, and the expressions that belong to the
caller. -/
structure Record (κ : Type) where
  answers : List (Except Fault (Answer κ))
  handedOver : List Expression

/-- Makes calls one after the other, whether they are refused or not. -/
def Session.serve {κ : Type} [Scalar κ] [Literal κ] (grid : κ → κ → Nat → List κ) :
    List (SessionCall κ) → SessionWork κ (Record κ)
  | [] => pure ⟨[], []⟩
  | call :: calls => do
    let result ← (call.act grid).attempt
    let later ← serve grid calls
    pure ⟨result.map (·.1) :: later.answers, result.toOption.elim [] (·.2) ++ later.handedOver⟩

/-- A table after calls: those that set a variable put it there, unless they are refused. -/
def VariableTable.served {κ : Type} (table : VariableTable κ) : List (SessionCall κ) → VariableTable κ
  | [] => table
  | .setVariable name value :: calls =>
    if name.isLetter then (table.put name value).served calls else table.served calls
  | _ :: calls => table.served calls

/-! ## Plain sessions -/

/-- The simplified sum of the terms that are found on plain trees. -/
def TaylorPlan.polynomialTree {κ : Type} [Scalar κ] [Literal κ] (plan : TaylorPlan κ) (t : Tree κ) :
    Except Fault (Tree κ) :=
  match plan.expandTree (plan.order + 1) 0 t [] with
  | (terms, .ok _) => .ok (plan.simplifier.normalize (plan.sumTree terms))
  | (_, .error f) => .error f

/-- A session without a store: the formula, unless the session was closed, and the table. -/
structure PlainSession (κ : Type) where
  argument : Name
  maxIterations : Int
  simplifies : Bool
  table : VariableTable κ
  formula : Option (Tree κ)

namespace PlainSession

variable {κ : Type}

/-- Opens a plain session: the table is filled, then the formula is read. -/
def start [Literal κ] (text : String) (argument : Name) (bindings : List (Name × κ))
    (maxIterations : Int) (simplifies : Bool) : Except Fault (PlainSession κ) := do
  let table ← VariableTable.ofList bindings
  match (Formula.parse Formula.defaultLimit text.toList : Except Formula.Failure (Tree κ)) with
  | .error failure => throw (failure.fault text)
  | .ok t => pure ⟨argument, maxIterations, simplifies, table, some t⟩

variable (s : PlainSession κ) (grid : κ → κ → Nat → List κ)

/-- The formula, which must still be there. -/
def tree : Except Fault (Tree κ) :=
  match s.formula with
  | some t => .ok t
  | none => .error .sessionClosed

/-- The valuation of the table after setting some variables in a copy of it. -/
def valuationWith (extra : List (Name × κ)) : Except Fault (Valuation κ) :=
  match (VariableTable.update extra).perform s.table with
  | (.ok _, table) => .ok table.valuation
  | (.error f, _) => .error f

/-- The session after a call: only setting a variable and closing make a difference. -/
def next : SessionCall κ → PlainSession κ
  | .setVariable name value => if name.isLetter then { s with table := s.table.put name value } else s
  | .close => { s with formula := none }
  | _ => s

variable [Scalar κ]

/-- The simplifier of a session. -/
def simplifier : Simplifier κ := .standard s.argument s.table.valuation s.maxIterations

/-- The simplified derivative of a tree, under the values of the table. -/
def derivativeOf (t : Tree κ) (order : Int) : Except Fault (Tree κ) :=
  if order < 0 then .error (.negativeOrder order)
  else
    match t.higherDerivative s.argument (if s.simplifies then some s.simplifier else none) order.toNat with
    | .ok d => .ok (s.simplifier.normalize d)
    | .error op => .error (.unknownOperation op)

/-- The simplified derivative of the formula, made from it whenever it is asked for. -/
def derivative (order : Int) : Except Fault (Tree κ) := do
  let t ← s.tree
  s.derivativeOf t order

/-- The value of the formula, with some variables set for this once. -/
def evaluate (extra : List (Name × κ)) : Except Fault κ := do
  let ρ ← s.valuationWith extra
  let t ← s.tree
  t.evaluate ρ

/-- The value of a derivative, optionally at a point. -/
def evaluateDerivative (order : Int) (point : Option κ) : Except Fault κ := do
  let ρ ← s.valuationWith (point.toList.map fun x => (s.argument, x))
  let d ← s.derivative order
  d.evaluate ρ

variable [Literal κ]

/-- The simplified Taylor polynomial of the formula. -/
def taylor (point : κ) (order : Int) : Except Fault (Tree κ) := do
  let plan ← TaylorPlan.make s.argument point order s.table.valuation s.simplifies s.maxIterations
  let t ← s.tree
  plan.polynomialTree t

/-- The values of a Taylor polynomial on a grid. -/
def sampleTaylor (point : κ) (order : Int) (xs : List κ) : Except Fault (List κ) := do
  let polynomial ← s.taylor point order
  polynomial.evaluateOn s.table.valuation s.argument xs

/-- The values of the tangent at a point on a grid. -/
def sampleTangent (point : κ) (xs : List κ) : Except Fault (List κ) := do
  let value ← s.evaluate [(s.argument, point)]
  let slope ← s.evaluateDerivative 1 (some point)
  pure (xs.map fun x => Scalar.add value (Scalar.mul slope (Scalar.sub x point)))

/-- The overlay of a Taylor polynomial, if it is asked for. -/
def taylorOverlay (q : SampleRequest κ) (xs : List κ) : Except Fault (Option (List κ)) :=
  match q.taylorPoint, q.taylorOrder with
  | some a, some n => some <$> s.sampleTaylor a n xs
  | _, _ => pure none

/-- The overlay of a tangent, if it is asked for. -/
def tangentOverlay (q : SampleRequest κ) (xs : List κ) : Except Fault (Option (List κ)) :=
  match q.tangentPoint with
  | some a => some <$> s.sampleTangent a xs
  | none => pure none

/-- Samples the function on a uniform grid, with the overlays asked for. -/
def sample (q : SampleRequest κ) : Except Fault (Sample κ) :=
  if q.points < 2 then throw .tooFewPoints
  else do
    let t ← s.tree
    let xs := grid q.low q.high q.points.toNat
    let function ← t.evaluateOn s.table.valuation s.argument xs
    let taylor ← s.taylorOverlay q xs
    let tangent ← s.tangentOverlay q xs
    pure ⟨xs, function, taylor, tangent⟩

/-- What a call answers. -/
def answer : SessionCall κ → Except Fault (Answer κ)
  | .setVariable name _ => if name.isLetter then pure .done else throw (.invalidName name)
  | .differentiate order => do
    let d ← s.derivative order
    pure (.tree d)
  | .evaluate extra => do
    let v ← s.evaluate extra
    pure (.value v)
  | .evaluateDerivative order point => do
    let v ← s.evaluateDerivative order point
    pure (.value v)
  | .taylor point order => do
    let t ← s.taylor point order
    pure (.tree t)
  | .sample request => do
    let values ← s.sample grid request
    pure (.sample values)
  | .close => pure .done

/-- What calls answer, one after the other. -/
def answers (s : PlainSession κ) : List (SessionCall κ) → List (Except Fault (Answer κ))
  | [] => []
  | call :: calls => s.answer grid call :: (s.next call).answers calls

end PlainSession

/-! ## What calls change -/

namespace PlainSession

variable {κ : Type}

/-- The table changes where a variable is set. -/
theorem table_foldl_next (s : PlainSession κ) (calls : List (SessionCall κ)) :
    (calls.foldl next s).table = s.table.served calls := by
  induction calls generalizing s with
  | nil => rfl
  | cons call calls ih =>
    rw [List.foldl_cons, ih]
    cases call with
    | setVariable name value =>
      rw [next, VariableTable.served]
      split <;> rfl
    | _ => rfl

/-- A closed session stays closed. -/
theorem formula_foldl_next_of_none {s : PlainSession κ} (h : s.formula = none) (calls : List (SessionCall κ)) :
    (calls.foldl next s).formula = none := by
  induction calls generalizing s with
  | nil => exact h
  | cons call calls ih =>
    refine ih ?_
    cases call with
    | setVariable name value =>
      rw [next]
      split <;> exact h
    | close => rfl
    | _ => exact h

/-- A session is closed from the call on that closes it. -/
theorem formula_foldl_next (s : PlainSession κ) {calls : List (SessionCall κ)} (h : .close ∈ calls) :
    (calls.foldl next s).formula = none := by
  obtain ⟨before, after, rfl⟩ := List.append_of_mem h
  rw [List.foldl_append, List.foldl_cons]
  exact formula_foldl_next_of_none rfl after

end PlainSession

end Fluxion
