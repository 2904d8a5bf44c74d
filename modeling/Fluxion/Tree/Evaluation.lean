import Fluxion.Scalar.Kernel
import Fluxion.Tree.Basic

/-!
# Evaluation

A tree has a value under a valuation of its variables: the kernel applied from the leaves up, left
operand first. A domain problem is no fault, it gives `nan`. A variable without a value, an operator
without a meaning for its number of operands, and an empty slot are faults, and the first one met
from left to right, operands before their operation, is the one reported.

An evaluation goes by a stack of trees still to be seen to and a stack of results, so that its depth
is bounded by the memory only.

* `Tree.value` is the value of a tree under a kernel, from the leaves up.
* `Tree.evaluateFrom` evaluates by the two stacks.
* `Tree.evaluate` is the value under the guarded kernel, with the empty tree refused.
* `Tree.evaluateOn` varies one variable over a list of values.
-/

namespace Fluxion

/-- The values of the variables. -/
abbrev Valuation (κ : Type) := Name → Option κ

namespace Valuation

variable {κ : Type}

/-- No variable has a value. -/
def empty : Valuation κ := fun _ => none

/-- The valuation that gives `name` the value `v` and agrees with `ρ` elsewhere. -/
def bind (ρ : Valuation κ) (name : Name) (v : κ) : Valuation κ :=
  fun n => if n = name then some v else ρ n

end Valuation

namespace Tree

variable {κ : Type}

/-- The value of a tree under a kernel and a valuation. -/
def value (K : Kernel κ) (ρ : Valuation κ) : Tree κ → Except Fault κ
  | absent => .error .unknownNode
  | literal v => .ok v
  | var n =>
    match ρ n with
    | some v => .ok v
    | none => .error (.unbound n)
  | binary op l r =>
    match l.value K ρ with
    | .error f => .error f
    | .ok a =>
      match r.value K ρ with
      | .error f => .error f
      | .ok b =>
        match op.resolveArity 2 with
        | some o => .ok (K.binary o a b)
        | none => .error (.unknownOperation op)
  | unary op x =>
    match x.value K ρ with
    | .error f => .error f
    | .ok a =>
      match op.resolveArity 1 with
      | some o => .ok (K.unary o a)
      | none => .error (.unknownOperation op)

/-- Evaluates what is on a stack, on top of the results so far, the last one first. An operation goes
back on the stack under its operands, and takes its results once they are there; only then is its
operator looked at. -/
def evaluateFrom (K : Kernel κ) (ρ : Valuation κ) (stack : List (Tree κ × Bool)) (results : List κ) :
    Except Fault κ :=
  match stack with
  | [] =>
    match results with
    | [] => .error .noResult
    | v :: _ => .ok v
  | (absent, _) :: _ => .error .unknownNode
  | (literal v, _) :: stack => evaluateFrom K ρ stack (v :: results)
  | (var n, _) :: stack =>
    match ρ n with
    | some v => evaluateFrom K ρ stack (v :: results)
    | none => .error (.unbound n)
  | (binary op l r, false) :: stack =>
    evaluateFrom K ρ ((l, false) :: (r, false) :: (binary op l r, true) :: stack) results
  | (binary op _ _, true) :: stack =>
    match op.resolveArity 2, results with
    | none, _ => .error (.unknownOperation op)
    | some o, b :: a :: results => evaluateFrom K ρ stack (K.binary o a b :: results)
    | some _, _ => .error .noOperand
  | (unary op x, false) :: stack =>
    evaluateFrom K ρ ((x, false) :: (unary op x, true) :: stack) results
  | (unary op _, true) :: stack =>
    match op.resolveArity 1, results with
    | none, _ => .error (.unknownOperation op)
    | some o, a :: results => evaluateFrom K ρ stack (K.unary o a :: results)
    | some _, [] => .error .noOperand
termination_by effort stack
decreasing_by
  all_goals
    simp only [effort, size]
    first | split <;> omega | (simp; omega)

variable [Scalar κ]

/-- The value of an expression; the empty one has none. -/
def evaluate (ρ : Valuation κ) (t : Tree κ) : Except Fault κ :=
  if t.isAbsent then .error .nothingToEvaluate else evaluateFrom .guarded ρ [(t, false)] []

/-- The values of an expression as the variable `name` runs through a list. -/
def evaluateOn (ρ : Valuation κ) (name : Name) (t : Tree κ) : List κ → Except Fault (List κ)
  | [] => .ok []
  | x :: xs =>
    match t.evaluate (ρ.bind name x) with
    | .error f => .error f
    | .ok v =>
      match t.evaluateOn ρ name xs with
      | .error f => .error f
      | .ok vs => .ok (v :: vs)

end Tree

end Fluxion
