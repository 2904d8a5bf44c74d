import Fluxion.Formula.Reader
import Fluxion.Journal
import Fluxion.Polish.Reader
import Fluxion.Store.Audit
import Fluxion.Store.Links
import Fluxion.Tree.Evaluation

/-!
# The workspace

A workspace is a store together with a journal and the warnings given so far. Texts are read and
trees evaluated here, with what the journal is told about it.

* `Work.readFormula` and `Work.readPolish` make an expression from a text.
* `Work.evaluate` evaluates a tree of the store.
-/

namespace Fluxion

/-- A store, a journal, and the warnings given so far, the last one first. -/
structure Workspace (κ : Type) where
  store : Store κ
  journal : Journal
  warnings : List String

/-- The workspace that every run starts from. -/
def Workspace.opened {κ : Type} [Coefficient κ] (level : Level) : Workspace κ :=
  ⟨.fresh, .opened level, []⟩

/-- Acts on a workspace. -/
abbrev Work (κ : Type) := Act (Workspace κ)

namespace Work

variable {κ α : Type}

/-- An act on the store. -/
def onStore (act : Act (Store κ) α) : Work κ α :=
  act.within fun ⟨store, journal, warnings⟩ => (store, fun s => ⟨s, journal, warnings⟩)

/-- Something read from the store. -/
def look (f : Store κ → α) : Work κ α := do return f (← get).store

/-- Adds an entry to the journal. -/
def note (e : Entry) : Work κ Unit := modify fun w => { w with journal := w.journal.note e }

/-- Gives a warning, which is also noted. -/
def warn (message : String) : Work κ Unit := do
  note (.warning message)
  modify fun w => { w with warnings := message :: w.warnings }

/-- Changes the level of the journal. -/
def setLevel (level : Level) : Work κ Unit :=
  modify fun w => { w with journal := { w.journal with level } }

/-- The number of nodes of an expression. -/
def sizeOf (e : Expression) : Work κ Nat := look fun s => (s.expressionTree e).size

/-! ## Reading -/

/-- An act on the store that reads a text: that the text does not read is noted. -/
def reading (lead : String) (act : Act (Store κ) α) : Work κ α :=
  (onStore act).onMalformed fun c p =>
    note (.warning (lead ++ c.message ++ " at position " ++ toString p))

variable [Literal κ]

/-- Makes an expression from a formula. -/
def readFormula (limit : Int) (text : String) : Work κ Expression := do
  let r ← reading "Syntax error: " (Formula.read text limit)
  let size ← look fun s => (s.tree (some r)).size
  note (.debug ("Parsed '" ++ text ++ "' into " ++ toString size ++ " nodes"))
  onStore (Store.newExpression (some r))

/-- Makes an expression from a text in Polish notation. -/
def readPolish (text : String) : Work κ Expression := do
  let r ← reading "Malformed tree text: " (Polish.read text)
  onStore (Store.newExpression r)

omit [Literal κ]

/-! ## Evaluating -/

/-- What the journal says of a fault in evaluation: an operation or a node without a meaning is
critical. -/
def evaluationEntry? : Fault → Option Entry
  | .unknownOperation op => some (.critical ("Evaluation hit unknown operation " ++ op.quoted))
  | .unknownNode => some (.critical "Evaluation hit unknown node type NoneType")
  | _ => none

/-- Notes a fault in evaluation. -/
def noteEvaluation (f : Fault) : Work κ Unit :=
  match evaluationEntry? f with
  | some e => note e
  | none => pure ()

/-- The result of an evaluation, with a fault noted. -/
def conclude (r : Except Fault α) : Work κ α := do
  match r with
  | .ok v => pure v
  | .error f =>
    noteEvaluation f
    throw f

/-- The value of a tree of the store. -/
def evaluate [Scalar κ] (ρ : Valuation κ) (r : Option Ref) : Work κ κ := do
  conclude ((← look (·.tree r)).evaluate ρ)

/-- The values of a tree of the store as a variable runs through a list. -/
def evaluateOn [Scalar κ] (ρ : Valuation κ) (name : Name) (r : Option Ref) (xs : List κ) :
    Work κ (List κ) := do
  conclude ((← look (·.tree r)).evaluateOn ρ name xs)

end Work

end Fluxion
