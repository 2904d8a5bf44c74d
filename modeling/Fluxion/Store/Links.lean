import Fluxion.Act
import Fluxion.Store.Basic
import Std.Data.HashMap

/-!
# Links between nodes

A slot takes a node only if the node has no parent yet and is not the owner of the slot. Giving a
slot a node records the owner as the parent of the node, and frees the node that was in the slot.
Emptying a slot by assignment leaves the reference back of its former child as it is; replacing a
child clears it.

* `Store.setSlot` assigns a slot, `Store.replaceChild` replaces a child by another or by nothing.
* `Store.newLiteral`, `Store.newVar`, `Store.newBinary` and `Store.newUnary` make nodes.
* `Store.setRoot` gives an expression a root, `Store.replaceSubtree` changes a tree in place.
* `Store.release` gives a whole subtree back to the pool.
-/

namespace Fluxion

/-- The slots of operation nodes. -/
inductive Slot where
  | left
  | right
  | operand
deriving Repr, DecidableEq

namespace Cell

variable {κ : Type}

/-- What is in a slot. -/
def slot? : Slot → Cell κ → Option Ref
  | .left, binary _ l _ => l
  | .right, binary _ _ r => r
  | .operand, unary _ x => x
  | _, _ => none

/-- The cell with something else in a slot. -/
def setSlot : Slot → Option Ref → Cell κ → Cell κ
  | .left, c, binary op _ r => binary op c r
  | .right, c, binary op l _ => binary op l c
  | .operand, c, unary op _ => unary op c
  | _, _, cell => cell

end Cell

namespace Store

variable {κ : Type}

/-! ## Assigning slots -/

/-- What is in a slot of a node. -/
def slot? (s : Store κ) (r : Ref) (slot : Slot) : Option Ref :=
  (s.node? r).bind fun n => n.cell.slot? slot

/-- The store with something else in a slot of a node. -/
def writeSlot (s : Store κ) (r : Ref) (slot : Slot) (child : Option Ref) : Store κ :=
  match s.node? r with
  | some n => s.write r { n with cell := n.cell.setSlot slot child }
  | none => s

/-- Claims `child` for a slot of `owner` that holds `current`. -/
def adopt (owner : Ref) (current : Option Ref) (child : Ref) : Act (Store κ) Unit := do
  let s ← get
  if (s.parent? child).isSome then throw .alreadyOwned
  if child = owner then throw .ownChild
  match current with
  | some old => modify (·.writeParent old none)
  | none => pure ()
  modify (·.writeParent child (some owner))

/-- Assigns a slot. -/
def setSlot (owner : Ref) (slot : Slot) (child : Option Ref) : Act (Store κ) Unit := do
  let current := (← get).slot? owner slot
  match child with
  | some c => if child = current then pure () else adopt owner current c
  | none => pure ()
  modify (·.writeSlot owner slot child)

/-- Empties a slot, cuts the reference back of `old`, and assigns the slot anew. -/
def exchange (owner : Ref) (slot : Slot) (old : Ref) (new : Option Ref) : Act (Store κ) Unit := do
  modify (·.writeSlot owner slot none)
  modify (·.writeParent old none)
  setSlot owner slot new

/-- Replaces a child of a node by another node or by nothing. -/
def replaceChild (owner : Ref) (old new : Option Ref) : Act (Store κ) Unit := do
  match (← get).node? owner with
  | none => throw .notAChild
  | some n =>
    match n.cell, old with
    | .literal _, _ => throw (.noChildren .literal)
    | .var _, _ => throw (.noChildren .var)
    | .binary .., none => throw .emptySlot
    | .binary _ l r, some o =>
      if l = some o then exchange owner .left o new
      else if r = some o then exchange owner .right o new
      else throw .notAChild
    | .unary .., none => throw .notAChild
    | .unary _ x, some o =>
      if x = some o then exchange owner .operand o new else throw .notAChild

/-- Cuts a child off a node, so that it can be moved. -/
def detach (owner : Ref) (child : Option Ref) : Act (Store κ) Unit := replaceChild owner child none

/-! ## Making nodes -/

/-- Where new nodes come from. -/
inductive Source where
  /-- The pool hands them out. -/
  | pool
  /-- They are made outside the pool. -/
  | outside
deriving Repr, DecidableEq

/-- A node for a cell whose slots are empty. -/
def obtain (source : Source) (c : Cell κ) : Act (Store κ) Ref :=
  match source with
  | .pool => modifyGet (·.take c)
  | .outside => modifyGet (·.extend c)

/-- Makes a literal. -/
def newLiteral (source : Source) (value : κ) : Act (Store κ) Ref :=
  obtain source (.literal value)

/-- Makes a variable. The node is used up even when its name is refused. -/
def newVar (source : Source) (name : Name) : Act (Store κ) Ref := do
  let r ← obtain source (.var name)
  if name.isLetter then pure r else throw (.invalidName name)

/-- Makes an operation node of two slots and fills them, the left one first. -/
def newBinary (source : Source) (op : Operator) (left right : Option Ref) :
    Act (Store κ) Ref := do
  let r ← obtain source (.binary op none none)
  setSlot r .left left
  setSlot r .right right
  pure r

/-- Makes an operation node of one slot and fills it. -/
def newUnary (source : Source) (op : Operator) (operand : Option Ref) : Act (Store κ) Ref := do
  let r ← obtain source (.unary op none)
  setSlot r .operand operand
  pure r

/-! ## Releasing trees -/

/-- Gives back a node and all below it down to a depth, the right side before the left. -/
def releaseTo : Nat → Ref → Store κ → Store κ
  | 0, r, s => s.giveBack r
  | depth + 1, r, s =>
    let below := (s.children r).reverse
    below.foldl (fun s c => releaseTo depth c s) (s.giveBack r)

/-- Gives a subtree back to the pool, after cutting it off its parent. -/
def release (r : Option Ref) : Act (Store κ) Unit := do
  match r with
  | none => pure ()
  | some r =>
    match (← get).parent? r with
    | some owner => replaceChild owner (some r) none
    | none => pure ()
    modify fun s => releaseTo s.nodes.size r s

/-! ## Other pools -/

/-- Acts with another pool in place of the pool of the store; gives the result and the pool that the
act leaves. -/
def withPool {α : Type} (pool : Pool) (act : Act (Store κ) α) :
    Act (Store κ) (Except Fault α × Pool) := fun s =>
  let (r, t) := act.perform { s with pool }
  (.ok (r, t.pool), { t with pool := s.pool })

/-! ## Copies -/

/-- Which copy was made last of which node. -/
abbrev Copies := Std.HashMap Ref Ref

/-- The copy that was made last of a node. -/
def Copies.find? (copies : Copies) (r : Option Ref) : Option Ref := r.bind fun k => copies[k]?

/-- Copies what is below a node down to a depth, the right side first, and records which copy stands
for which node. -/
def copyTo : Nat → Ref → Copies → Act (Store κ) Copies
  | 0, _, copies => pure copies
  | depth + 1, r, copies => do
    let below := ((← get).children r).reverse
    let copies ← below.foldlM (fun copies c => copyTo depth c copies) copies
    match (← get).node? r with
    | none => pure copies
    | some n =>
      let c ← match n.cell with
        | .literal v => newLiteral .pool v
        | .var name => newVar .pool name
        | .binary op l r => newBinary .pool op (copies.find? l) (copies.find? r)
        | .unary op x => newUnary .pool op (copies.find? x)
      pure (copies.insert r c)

/-- Copies a subtree; the copy has no parent. -/
def copy (r : Ref) : Act (Store κ) (Option Ref) := do
  let copies ← copyTo (← get).nodes.size r ∅
  pure (copies.find? (some r))

/-! ## Expressions -/

/-- Gives an expression another root, which must not have a parent. -/
def setRoot (e : Expression) (r : Option Ref) : Act (Store κ) Unit := do
  match r.bind (← get).parent? with
  | some _ => throw .ownedRoot
  | none => modify (·.writeRoot e r)

/-- Makes an expression with a root, which must not have a parent. -/
def newExpression (r : Option Ref) : Act (Store κ) Expression := do
  match r.bind (← get).parent? with
  | some _ => throw .ownedRoot
  | none => modifyGet fun s => (⟨s.roots.size⟩, { s with roots := s.roots.push r })

/-- Gives the tree of an expression back and leaves the expression empty. -/
def releaseExpression (e : Expression) : Act (Store κ) Unit := do
  let r := (← get).root? e
  modify (·.writeRoot e none)
  release r

/-- Makes an expression with a copy of the tree of another. -/
def copyExpression (e : Expression) : Act (Store κ) Expression := do
  match (← get).root? e with
  | none => newExpression none
  | some r => newExpression (← copy r)

/-- Puts `replacement` where `target` is, in the expression or in the parent of `target`, and gives
the subtree of `target` back. -/
def replaceSubtree (e : Expression) (target : Ref) (replacement : Option Ref) :
    Act (Store κ) Unit := do
  match (← get).parent? target with
  | some owner => replaceChild owner (some target) replacement
  | none =>
    if (← get).root? e = some target then setRoot e replacement else throw .strayTarget
  release (some target)

end Store

end Fluxion
