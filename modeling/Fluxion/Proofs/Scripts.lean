import Fluxion.Proofs.NodeCalls
import Fluxion.Proofs.Runs
import Fluxion.Proofs.Forests

/-!
# Scripts of calls

A script makes calls on nodes and on expressions and asks what is in the store. It knows the nodes it was
given by the numbers in which it got them, so the same script can be played at stores that hand out other
nodes. What it is answered says which node it got by that number only.

A script is careful when it uses no node that was given back, and never hangs a tree below itself. It is
tidy when it assigns nothing to a slot that holds a node, and simplifies no expression whose root was hung
into a slot since.

* `Step.act` is what one step does, and `Desk.play` plays a script.
* `Step.returned` are the nodes that a step gives back.
* `Desk.Careful` and `Desk.Tidy` are what a step may do, and `Desk.Along` says so of all steps of a script.
-/

namespace Fluxion

open Act

/-! ## Replies -/

/-- What a step of a script is answered. -/
inductive Reply (κ : Type) where
  | nothing
  | node (r : Option Ref)
  | expression (e : Expression)
  | flag (b : Bool)
  | tree (t : Tree κ)
  | value (v : κ)
  | simplification (c : Simplification)
  | expansion (result : TaylorResult κ)

namespace Reply

variable {κ : Type}

/-- The nodes that a reply gives. -/
def nodes : Reply κ → List Ref
  | node r => r.toList
  | _ => []

/-- The expressions that a reply gives. -/
def expressions : Reply κ → List Expression
  | expression e => [e]
  | expansion result => result.outcome.toOption.toList
  | _ => []

/-- The reply with other names for nodes. -/
def rename (ρ : Ref → Ref) : Reply κ → Reply κ
  | node r => node (r.map ρ)
  | a => a

/-- The reply with the number `k` in place of a node. -/
def numbered (k : Nat) (a : Reply κ) : Reply κ := a.rename fun _ => k

theorem numbered_rename (ρ : Ref → Ref) (k : Nat) (a : Reply κ) : (a.rename ρ).numbered k = a.numbered k := by
  cases a with
  | node r => cases r <;> rfl
  | _ => rfl

theorem nodes_rename (ρ : Ref → Ref) (a : Reply κ) : (a.rename ρ).nodes = a.nodes.map ρ := by
  cases a with
  | node r => cases r <;> rfl
  | _ => rfl

theorem expressions_rename (ρ : Ref → Ref) (a : Reply κ) : (a.rename ρ).expressions = a.expressions := by
  cases a <;> rfl

end Reply

/-! ## Steps -/

/-- What is in a slot has another name. -/
theorem map_of_toList {ρ ν ν' : Ref → Ref} {r : Option Ref} (h : ∀ k ∈ r.toList, ν' k = ρ (ν k)) :
    r.map ν' = (r.map ν).map ρ := by
  rw [Option.map_map]
  exact Option.map_congr fun k hk => h k (Option.mem_toList.mpr hk)

namespace NodeCall

variable {κ : Type}

/-- The call on nodes of other names. -/
def rename (ρ : Ref → Ref) : NodeCall κ → NodeCall κ
  | newVar source name => newVar source name
  | newLiteral source value => newLiteral source value
  | newBinary source op left right => newBinary source op (left.map ρ) (right.map ρ)
  | newUnary source op operand => newUnary source op (operand.map ρ)
  | setSlot owner slot child => setSlot (ρ owner) slot (child.map ρ)
  | replaceChild owner old new => replaceChild (ρ owner) (old.map ρ) (new.map ρ)
  | detach owner child => detach (ρ owner) (child.map ρ)
  | copy r => copy (ρ r)
  | release r => release (r.map ρ)

theorem operands_rename (ρ : Ref → Ref) (call : NodeCall κ) :
    (call.rename ρ).operands = call.operands.map ρ := by
  cases call <;> simp [rename, operands, Option.toList_map]

/-- Renaming in two steps, or in one that agrees on the operands. -/
theorem rename_of_operands {ρ ν ν' : Ref → Ref} {call : NodeCall κ} (h : ∀ k ∈ call.operands, ν' k = ρ (ν k)) :
    call.rename ν' = (call.rename ν).rename ρ := by
  cases call with
  | newVar | newLiteral => rfl
  | newBinary source op left right =>
    exact congrArg₂ (newBinary source op) (map_of_toList fun k hk => h k (List.mem_append_left _ hk))
      (map_of_toList fun k hk => h k (List.mem_append_right _ hk))
  | newUnary source op operand => exact congrArg (newUnary source op) (map_of_toList h)
  | setSlot owner slot child =>
    exact congrArg₂ (setSlot · slot ·) (h owner List.mem_cons_self)
      (map_of_toList fun k hk => h k (List.mem_cons_of_mem _ hk))
  | replaceChild owner old new =>
    have hold : old.map ν' = (old.map ν).map ρ := map_of_toList fun k hk => h k (by simp_all [operands])
    have hnew : new.map ν' = (new.map ν).map ρ := map_of_toList fun k hk => h k (by simp_all [operands])
    rw [rename, rename, rename, h owner (by simp [operands]), hold, hnew]
  | detach owner child =>
    exact congrArg₂ detach (h owner List.mem_cons_self) (map_of_toList fun k hk => h k (List.mem_cons_of_mem _ hk))
  | copy r => exact congrArg copy (h r List.mem_cons_self)
  | release r => exact congrArg release (map_of_toList h)

/-- The nodes that a call hangs into slots, with the owners of the slots. -/
def hangs : NodeCall κ → List (Ref × Ref)
  | setSlot owner _ child => child.toList.map fun c => (owner, c)
  | replaceChild owner _ new => new.toList.map fun c => (owner, c)
  | _ => []

/-- The node whose tree a call gives back. -/
def released : NodeCall κ → Option Ref
  | release r => r
  | _ => none

end NodeCall

/-- A step of a script: a call, or a question about nodes. -/
inductive Step (κ : Type) where
  | nodes (call : NodeCall κ)
  | library (call : Call κ)
  | newExpression (r : Option Ref)
  | setRoot (e : Expression) (r : Option Ref)
  | replaceSubtree (e : Expression) (target : Ref) (new : Option Ref)
  | derive (v : Name) (r : Option Ref)
  | rootOf (e : Expression)
  | childOf (r : Ref) (slot : Slot)
  | parentOf (r : Ref)
  | isChild (r : Ref) (slot : Slot) (c : Ref)
  | isParent (r p : Ref)
  | same (r x : Ref)
  | treeOf (r : Option Ref)
  | evaluate (σ : Valuation κ) (r : Option Ref)

section Acts

variable {κ : Type} [Scalar κ] [Literal κ]

/-- What a call is answered. -/
def Call.act : Call κ → Work κ (Reply κ)
  | readFormula limit text => do return .expression (← Work.readFormula limit text)
  | readPolish text => do return .expression (← Work.readPolish text)
  | copy e => do return .expression (← Work.onStore (Store.copyExpression e))
  | differentiate e v order simplifier => do return .expression (← Work.differentiate e v order simplifier)
  | simplify σ e => do return .simplification (← σ.run e)
  | expand plan e => do return .expansion (← plan.build e)
  | release e => do
    Work.onStore (Store.releaseExpression e)
    return .nothing

/-- What a step does and is answered. -/
def Step.act : Step κ → Work κ (Reply κ)
  | nodes call => do return .node (← Work.onStore call.act)
  | library call => call.act
  | newExpression r => do return .expression (← Work.onStore (Store.newExpression r))
  | setRoot e r => do
    Work.onStore (Store.setRoot e r)
    return .nothing
  | replaceSubtree e target new => do
    Work.onStore (Store.replaceSubtree e target new)
    return .nothing
  | derive v r => do return .node (← Work.derive v r)
  | rootOf e => do return .node (← Work.look (·.root? e))
  | childOf r slot => do return .node (← Work.look (·.slot? r slot))
  | parentOf r => do return .node (← Work.look (·.parent? r))
  | isChild r slot c => do return .flag (← Work.look fun s => decide (s.slot? r slot = some c))
  | isParent r p => do return .flag (← Work.look fun s => decide (s.parent? r = some p))
  | same r x => pure (.flag (decide (r = x)))
  | treeOf r => do return .tree (← Work.look (·.tree r))
  | evaluate σ r => do return .value (← Work.evaluate σ r)

end Acts

namespace Step

variable {κ : Type}

/-- The step on nodes of other names. -/
def rename (ρ : Ref → Ref) : Step κ → Step κ
  | nodes call => nodes (call.rename ρ)
  | newExpression r => newExpression (r.map ρ)
  | setRoot e r => setRoot e (r.map ρ)
  | replaceSubtree e target new => replaceSubtree e (ρ target) (new.map ρ)
  | derive v r => derive v (r.map ρ)
  | childOf r slot => childOf (ρ r) slot
  | parentOf r => parentOf (ρ r)
  | isChild r slot c => isChild (ρ r) slot (ρ c)
  | isParent r p => isParent (ρ r) (ρ p)
  | same r x => same (ρ r) (ρ x)
  | treeOf r => treeOf (r.map ρ)
  | evaluate σ r => evaluate σ (r.map ρ)
  | step => step

/-- The nodes a step is made on. -/
def operands : Step κ → List Ref
  | nodes call => call.operands
  | newExpression r | setRoot _ r | derive _ r | treeOf r | evaluate _ r => r.toList
  | replaceSubtree _ target new => target :: new.toList
  | childOf r _ | parentOf r => [r]
  | isChild r _ x | isParent r x | same r x => [r, x]
  | library _ | rootOf _ => []

theorem operands_rename (ρ : Ref → Ref) (step : Step κ) : (step.rename ρ).operands = step.operands.map ρ := by
  cases step <;> simp [rename, operands, NodeCall.operands_rename, Option.toList_map]

theorem rename_of_operands {ρ ν ν' : Ref → Ref} {step : Step κ} (h : ∀ k ∈ step.operands, ν' k = ρ (ν k)) :
    step.rename ν' = (step.rename ν).rename ρ := by
  cases step with
  | nodes call => exact congrArg nodes (NodeCall.rename_of_operands h)
  | library | rootOf => rfl
  | newExpression r => exact congrArg newExpression (map_of_toList h)
  | setRoot e r => exact congrArg (setRoot e) (map_of_toList h)
  | replaceSubtree e target new =>
    exact congrArg₂ (replaceSubtree e) (h target List.mem_cons_self)
      (map_of_toList fun k hk => h k (List.mem_cons_of_mem _ hk))
  | derive v r => exact congrArg (derive v) (map_of_toList h)
  | childOf r slot => exact congrArg (childOf · slot) (h r List.mem_cons_self)
  | parentOf r => exact congrArg parentOf (h r List.mem_cons_self)
  | isChild r slot c =>
    exact congrArg₂ (isChild · slot ·) (h r List.mem_cons_self) (h c (List.mem_cons_of_mem _ List.mem_cons_self))
  | isParent r p =>
    exact congrArg₂ isParent (h r List.mem_cons_self) (h p (List.mem_cons_of_mem _ List.mem_cons_self))
  | same r x => exact congrArg₂ same (h r List.mem_cons_self) (h x (List.mem_cons_of_mem _ List.mem_cons_self))
  | treeOf r => exact congrArg treeOf (map_of_toList h)
  | evaluate σ r => exact congrArg (evaluate σ) (map_of_toList h)

/-- The expressions whose trees a step uses. -/
def opens : Step κ → List Expression
  | library call => call.operand?.toList
  | replaceSubtree e .. | rootOf e => [e]
  | _ => []

/-- The expressions a step is made on. -/
def expressions : Step κ → List Expression
  | setRoot e _ => [e]
  | step => step.opens

theorem mem_expressions_of_opens {ρ : Ref → Ref} {step : Step κ} {e : Expression}
    (h : e ∈ (step.rename ρ).opens) : e ∈ step.expressions := by
  cases step with
  | setRoot => cases h
  | _ => exact h

/-- The slots a step assigns. -/
def targets : Step κ → List (Ref × Slot)
  | nodes call => call.targets
  | _ => []

/-- The nodes that a step hangs into slots, with the owners of the slots. -/
def hangs (s : Store κ) : Step κ → List (Ref × Ref)
  | nodes call => call.hangs
  | replaceSubtree _ target new => (s.parent? target).toList.flatMap fun owner => new.toList.map fun c => (owner, c)
  | _ => []

/-- The node that was in a slot when nothing is assigned to it, and the owner of the slot. -/
def dropped (s : Store κ) : Step κ → List (Ref × Ref)
  | nodes call => call.dropped s
  | _ => []

/-- The expression that a step simplifies. -/
def simplified : Step κ → Option Expression
  | library (.simplify _ e) => some e
  | _ => none

/-- The nodes that a step gives back unless it is refused. -/
def released (s : Store κ) : Step κ → List Ref
  | nodes call => call.released.toList.flatMap s.postOrder
  | library (.release e) => Simplifier.schedule s e
  | replaceSubtree _ target _ => s.postOrder target
  | _ => []

variable [Scalar κ] [Literal κ]

/-- The nodes that a step gives back: those of a simplified expression that are not in its tree any more, and
those it releases unless it is refused. -/
def returned (w : Workspace κ) (step : Step κ) : List Ref :=
  match step with
  | library (.simplify σ e) =>
    (Simplifier.schedule w.store e).filter (· ∉ Simplifier.schedule ((σ.run e).perform w).2.store e)
  | step => if (step.act.perform w).1.isOk then step.released w.store else []

/-- A step uses only nodes that were not given back, assigns slots that are there, and hangs no tree below
itself. -/
structure Careful (given : List Ref) (s : Store κ) (step : Step κ) : Prop where
  operands : ∀ r ∈ step.operands, r ∉ given
  opens : ∀ e ∈ step.opens, ∀ r ∈ s.root? e, r ∉ given
  targets : ∀ x ∈ step.targets, s.HasSlot x.1 x.2
  hangs : ∀ x ∈ step.hangs s, ¬s.ClosesCycle x.1 x.2

omit [Scalar κ] [Literal κ] in
instance (given : List Ref) (s : Store κ) (step : Step κ) : Decidable (step.Careful given s) :=
  decidable_of_iff ((∀ r ∈ step.operands, r ∉ given) ∧ (∀ e ∈ step.opens, ∀ r ∈ s.root? e, r ∉ given) ∧
      (∀ x ∈ step.targets, s.HasSlot x.1 x.2) ∧ ∀ x ∈ step.hangs s, ¬s.ClosesCycle x.1 x.2)
    ⟨fun h => ⟨h.1, h.2.1, h.2.2.1, h.2.2.2⟩, fun h => ⟨h.operands, h.opens, h.targets, h.hangs⟩⟩

/-- A step assigns nothing to a slot that holds a node, and does not simplify an expression whose root has
a parent. -/
structure Tidy (s : Store κ) (step : Step κ) : Prop where
  dropped : step.dropped s = []
  simplified : ∀ e ∈ step.simplified, ∀ r ∈ s.root? e, s.parent? r = none

omit [Scalar κ] [Literal κ] in
instance (s : Store κ) (step : Step κ) : Decidable (step.Tidy s) :=
  decidable_of_iff (step.dropped s = [] ∧ ∀ e ∈ step.simplified, ∀ r ∈ s.root? e, s.parent? r = none)
    ⟨fun h => ⟨h.1, h.2⟩, fun h => ⟨h.dropped, h.simplified⟩⟩

end Step

/-! ## Playing scripts -/

/-- A workspace with what a script was given there: nodes by their numbers, expressions, and all replies. -/
structure Desk (κ : Type) where
  workspace : Workspace κ
  nodes : List Ref
  expressions : List Expression
  replies : List (Except Fault (Reply κ))

namespace Desk

variable {κ : Type}

/-- The store of a desk. -/
def store (d : Desk κ) : Store κ := d.workspace.store

/-- The node of a number. -/
def node (d : Desk κ) (k : Nat) : Ref := d.nodes.getD k 0

/-- A step with the nodes of a desk in place of their numbers. -/
def actual (d : Desk κ) (step : Step κ) : Step κ := step.rename d.node

/-- The desk after a reply. -/
def record (d : Desk κ) (w : Workspace κ) : Except Fault (Reply κ) → Desk κ
  | .ok a => ⟨w, d.nodes ++ a.nodes, d.expressions ++ a.expressions,
      d.replies ++ [.ok (a.numbered d.nodes.length)]⟩
  | .error f => ⟨w, d.nodes, d.expressions, d.replies ++ [.error f]⟩

/-- A desk with a pool that starts with `initial` free nodes and keeps at most `room` of each kind. -/
def opened [Coefficient κ] (level : Level) (initial room : Int) : Desk κ :=
  ⟨⟨.stocked initial room, .opened level, []⟩, [], [], []⟩

variable [Scalar κ] [Literal κ]

/-- The desk after a step. -/
def perform (d : Desk κ) (step : Step κ) : Desk κ :=
  let (result, w) := (d.actual step).act.perform d.workspace
  d.record w result

/-- The desk after a script. -/
def play (d : Desk κ) (script : List (Step κ)) : Desk κ := script.foldl perform d

/-- What holds of every step of a script, of the nodes that were given back before it, and of the desk it is
made at. The nodes given back tell what a script may still use where no node is handed out twice, as at a
pool that keeps nothing. -/
def Along (P : List Ref → Desk κ → Step κ → Prop) : List Ref → Desk κ → List (Step κ) → Prop
  | _, _, [] => True
  | given, d, step :: script =>
    P given d step ∧ Along P ((d.actual step).returned d.workspace ++ given) (d.perform step) script

instance decidableAlong (P : List Ref → Desk κ → Step κ → Prop) [∀ given d step, Decidable (P given d step)] :
    (given : List Ref) → (d : Desk κ) → (script : List (Step κ)) → Decidable (Along P given d script)
  | _, _, [] => inferInstanceAs (Decidable True)
  | given, d, step :: script =>
    have := decidableAlong P ((d.actual step).returned d.workspace ++ given) (d.perform step) script
    inferInstanceAs (Decidable (P given d step ∧ _))

/-- A step uses nodes and expressions that the script was given, and does so with care. -/
structure Careful (given : List Ref) (d : Desk κ) (step : Step κ) : Prop where
  numbers : ∀ k ∈ step.operands, k < d.nodes.length
  expressions : ∀ e ∈ step.expressions, e ∈ d.expressions
  careful : (d.actual step).Careful given d.store

omit [Scalar κ] [Literal κ] in
instance (given : List Ref) (d : Desk κ) (step : Step κ) : Decidable (Careful given d step) :=
  decidable_of_iff ((∀ k ∈ step.operands, k < d.nodes.length) ∧ (∀ e ∈ step.expressions, e ∈ d.expressions) ∧
      (d.actual step).Careful given d.store)
    ⟨fun h => ⟨h.1, h.2.1, h.2.2⟩, fun h => ⟨h.numbers, h.expressions, h.careful⟩⟩

/-- A step is tidy at a desk. -/
def Tidy (_ : List Ref) (d : Desk κ) (step : Step κ) : Prop := (d.actual step).Tidy d.store

omit [Scalar κ] [Literal κ] in
instance (given : List Ref) (d : Desk κ) (step : Step κ) : Decidable (Tidy given d step) :=
  inferInstanceAs (Decidable ((d.actual step).Tidy d.store))

end Desk

end Fluxion
