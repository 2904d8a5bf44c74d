import Fluxion.Formula.Printer
import Fluxion.Store.Basic
import Std.Data.HashSet

/-!
# Auditing a tree in the store

A tree in the store is sound when its root has no parent, every node hangs in exactly one slot, every
child refers back to the node that holds it, and every node is well-formed by itself. The audit goes
through a tree, the right side before the left, and lists what is wrong.

* `Store.violations` is the list; `Store.isSound` holds when it is empty.
-/

namespace Fluxion

/-- How far an audit has come: what was found, the last first, and the nodes seen. -/
structure Audit where
  found : List String
  seen : Std.HashSet Ref

namespace Audit

/-- The audit that has seen nothing. -/
def start : Audit := ⟨[], ∅⟩

/-- Adds what was found. -/
def report (a : Audit) (vs : List String) : Audit := { a with found := vs.reverse ++ a.found }

/-- Marks a node as seen. -/
def visit (a : Audit) (r : Ref) : Audit := { a with seen := a.seen.insert r }

/-- What was found, in order. -/
def violations (a : Audit) : List String := a.found.reverse

end Audit

namespace Store

variable {κ : Type}

/-- What is wrong with an operation node of `slots` slots, where `filled` says whether all of them
are filled. -/
def operationViolations (slots : Nat) (filled : Bool) (op : Operator) : List String :=
  match op.resolve with
  | none => ["unknown operation " ++ op.quoted]
  | some o =>
    if o.arity ≠ slots then
      [o.symbol ++ " takes " ++ toString o.arity ++ " argument(s), stored as " ++
        (if slots = 2 then "binary" else "unary")]
    else if !filled then
      [o.symbol ++ (if slots = 2 then " is missing an operand" else " is missing its argument")]
    else []

/-- What is wrong with a node by itself. -/
def cellViolations : Cell κ → List String
  | .literal _ => []
  | .var n => if n.isLetter then [] else ["invalid variable name " ++ n.quoted]
  | .binary op l r => operationViolations 2 (l.isSome && r.isSome) op
  | .unary op x => operationViolations 1 x.isSome op

variable [Literal κ]

/-- The text of the tree below a node, with the kind of the node. -/
def describe (s : Store κ) (r : Ref) : String := (s.tree (some r)).described

/-- What is wrong with the references back to a node. -/
def linkViolations (s : Store κ) (r : Ref) : List String :=
  (s.children r).filterMap fun c =>
    if s.parent? c = some r then none
    else some ("child " ++ s.describe c ++ " of " ++ s.describe r ++ " has a stale parent link")

/-- Audits what is below a node down to a depth. -/
def auditTo (s : Store κ) : Nat → Ref → Audit → Audit
  | 0, _, a => a
  | depth + 1, r, a =>
    if a.seen.contains r then a.report ["node " ++ s.describe r ++ " is reachable twice"]
    else
      let here :=
        match s.node? r with
        | some n => cellViolations n.cell
        | none => []
      (s.children r).reverse.foldl (fun a c => s.auditTo depth c a)
        ((a.report (here ++ s.linkViolations r)).visit r)

/-- All that is wrong with a tree. -/
def violations (s : Store κ) (r : Option Ref) : List String :=
  match r with
  | none => []
  | some r =>
    (if (s.parent? r).isSome then ["root has a parent"] else []) ++
      (s.auditTo (s.nodes.size + 1) r .start).violations

/-- Whether nothing is wrong with a tree. -/
def isSound (s : Store κ) (r : Option Ref) : Bool := (s.violations r).isEmpty

end Store

end Fluxion
