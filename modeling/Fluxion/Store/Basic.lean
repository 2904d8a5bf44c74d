import Fluxion.Scalar.Basic
import Fluxion.Tree.Basic

/-!
# The store of nodes

Trees that can be changed in place live in a store. A node is a cell with references to its children
and a reference back to its parent; the slot that holds a node owns it, the reference back does not.
Nodes are handed out by a pool, which keeps released nodes on one free list per kind, up to its
room, and hands out the one released last.

An expression is a place in the store that owns a root.

* `Store.tree` unfolds a reference into the tree below it.
* `Store.take` hands out a node and `Store.giveBack` takes one back.
* `Pool.stock` counts the free nodes, and `Tally` the nodes handed out, kind by kind.
-/

namespace Fluxion

/-- A reference to a node of a store. -/
abbrev Ref := Nat

/-- The content of a node. -/
inductive Cell (κ : Type) where
  | literal (value : κ)
  | var (name : Name)
  | binary (op : Operator) (left right : Option Ref)
  | unary (op : Operator) (operand : Option Ref)
deriving Repr

namespace Cell

variable {κ : Type}

/-- The kind of a cell. -/
def kind : Cell κ → Kind
  | literal _ => .literal
  | var _ => .var
  | binary .. => .binary
  | unary .. => .unary

/-- The children of a cell, empty slots left out. -/
def children : Cell κ → List Ref
  | binary _ l r => l.toList ++ r.toList
  | unary _ x => x.toList
  | _ => []

/-- The cell with its slots empty. -/
def cleared : Cell κ → Cell κ
  | binary op _ _ => binary op none none
  | unary op _ => unary op none
  | c => c

/-- The content of a node that was never handed out. -/
def blank [Coefficient κ] : Kind → Cell κ
  | .literal => literal (Coefficient.ofNat 0)
  | .var => var none
  | .binary => binary .absent none none
  | .unary => unary .absent none

end Cell

/-- A cell and the reference back to the parent. -/
structure Node (κ : Type) where
  cell : Cell κ
  parent : Option Ref
deriving Repr

/-- Numbers of nodes of each kind. -/
structure Tally where
  vars : Nat
  literals : Nat
  binaries : Nat
  unaries : Nat
deriving Repr, DecidableEq

namespace Tally

/-- No nodes. -/
def zero : Tally := ⟨0, 0, 0, 0⟩

/-- The number of nodes of a kind. -/
def count (t : Tally) : Kind → Nat
  | .var => t.vars
  | .literal => t.literals
  | .binary => t.binaries
  | .unary => t.unaries

/-- The number of nodes of all kinds. -/
def total (t : Tally) : Nat := t.vars + t.literals + t.binaries + t.unaries

/-- One more node of a kind. -/
def add (t : Tally) : Kind → Tally
  | .var => { t with vars := t.vars + 1 }
  | .literal => { t with literals := t.literals + 1 }
  | .binary => { t with binaries := t.binaries + 1 }
  | .unary => { t with unaries := t.unaries + 1 }

theorem count_add (t : Tally) (k k' : Kind) :
    (t.add k).count k' = t.count k' + (if k' = k then 1 else 0) := by
  cases k <;> cases k' <;> rfl

@[simp] theorem total_add (t : Tally) (k : Kind) : (t.add k).total = t.total + 1 := by
  cases k <;> simp only [add, total] <;> omega

end Tally

/-- The free nodes of each kind, the next one to be handed out first, how many of a kind are kept at
most, how many nodes were released so far, and how many of each kind were handed out. -/
structure Pool where
  vars : List Ref
  literals : List Ref
  binaries : List Ref
  unaries : List Ref
  room : Int
  released : Nat
  handedOut : Tally
deriving Repr

namespace Pool

/-- The free list of a kind. -/
def free (p : Pool) : Kind → List Ref
  | .var => p.vars
  | .literal => p.literals
  | .binary => p.binaries
  | .unary => p.unaries

/-- The pool with another free list of a kind. -/
def setFree (p : Pool) (k : Kind) (rs : List Ref) : Pool :=
  match k with
  | .var => { p with vars := rs }
  | .literal => { p with literals := rs }
  | .binary => { p with binaries := rs }
  | .unary => { p with unaries := rs }

/-- The number of free nodes of a kind. -/
def stock (p : Pool) (k : Kind) : Nat := (p.free k).length

/-- The pool without free nodes. -/
def cleared (p : Pool) : Pool :=
  { p with vars := [], literals := [], binaries := [], unaries := [] }

/-- Counts a node that is handed out. -/
def charge (p : Pool) (k : Kind) : Pool := { p with handedOut := p.handedOut.add k }

/-- Takes a node back: it is counted, and kept while there is room. -/
def put (p : Pool) (k : Kind) (r : Ref) : Pool :=
  let p := { p with released := p.released + 1 }
  if (p.stock k : Int) < p.room then p.setFree k (r :: p.free k) else p

@[simp] theorem free_setFree_self (p : Pool) (k : Kind) (rs : List Ref) :
    (p.setFree k rs).free k = rs := by
  cases k <;> rfl

theorem free_setFree_ne (p : Pool) {k k' : Kind} (rs : List Ref) (h : k' ≠ k) :
    (p.setFree k rs).free k' = p.free k' := by
  cases k <;> cases k' <;> first | rfl | exact absurd rfl h

end Pool

/-- Nodes, the roots of the expressions, and the pool that hands nodes out. -/
structure Store (κ : Type) where
  nodes : Array (Node κ)
  roots : Array (Option Ref)
  pool : Pool

/-- An expression: a place that owns a root. -/
structure Expression where
  place : Nat
deriving Repr, DecidableEq

namespace Store

variable {κ : Type}

/-! ## Reading and writing -/

/-- The node at a reference. -/
def node? (s : Store κ) (r : Ref) : Option (Node κ) := s.nodes[r]?

/-- The parent of a node. -/
def parent? (s : Store κ) (r : Ref) : Option Ref := (s.node? r).bind (·.parent)

/-- The value of a literal in a slot. -/
def literal? (s : Store κ) (r : Option Ref) : Option κ :=
  match r.bind s.node? with
  | some ⟨.literal v, _⟩ => some v
  | _ => none

/-- The children of a node. -/
def children (s : Store κ) (r : Ref) : List Ref :=
  match s.node? r with
  | some n => n.cell.children
  | none => []

/-- The store with another node at a reference. -/
def write (s : Store κ) (r : Ref) (n : Node κ) : Store κ :=
  { s with nodes := s.nodes.setIfInBounds r n }

/-- The store with another name at a variable; any other node stays as it is. -/
def rename (s : Store κ) (r : Ref) (name : Name) : Store κ :=
  match s.node? r with
  | some ⟨.var _, parent⟩ => s.write r ⟨.var name, parent⟩
  | _ => s

/-- The store with another reference back at a node. -/
def writeParent (s : Store κ) (r : Ref) (p : Option Ref) : Store κ :=
  match s.node? r with
  | some n => s.write r { n with parent := p }
  | none => s

/-- The root of an expression. -/
def root? (s : Store κ) (e : Expression) : Option Ref := (s.roots[e.place]?).join

/-- The store with another root at an expression. -/
def writeRoot (s : Store κ) (e : Expression) (r : Option Ref) : Store κ :=
  { s with roots := s.roots.setIfInBounds e.place r }

/-! ## Trees in the store -/

/-- The tree below a reference, down to a depth. -/
def treeTo (s : Store κ) : Nat → Option Ref → Tree κ
  | _, none => .absent
  | 0, some _ => .absent
  | depth + 1, some r =>
    match s.node? r with
    | none => .absent
    | some n =>
      match n.cell with
      | .literal v => .literal v
      | .var name => .var name
      | .binary op l r => .binary op (s.treeTo depth l) (s.treeTo depth r)
      | .unary op x => .unary op (s.treeTo depth x)

/-- The tree below a reference. Without cycles no way down is longer than the number of nodes. -/
def tree (s : Store κ) (r : Option Ref) : Tree κ := s.treeTo s.nodes.size r

/-- The tree that an expression owns. -/
def expressionTree (s : Store κ) (e : Expression) : Tree κ := s.tree (s.root? e)

/-- The references below a reference down to a depth, children before parents. -/
def postOrderTo (s : Store κ) : Nat → Ref → List Ref
  | 0, r => [r]
  | depth + 1, r => (s.children r).flatMap (s.postOrderTo depth) ++ [r]

/-- The references below a reference, children before parents and left before right. -/
def postOrder (s : Store κ) (r : Ref) : List Ref := s.postOrderTo s.nodes.size r

/-! ## The pool -/

/-- Adds a node at the end of the store. -/
def extend (s : Store κ) (c : Cell κ) : Ref × Store κ :=
  (s.nodes.size, { s with nodes := s.nodes.push ⟨c, none⟩ })

/-- Hands out a node for the cell `c`: the one released last, or a new one. -/
def take (s : Store κ) (c : Cell κ) : Ref × Store κ :=
  let s := { s with pool := s.pool.charge c.kind }
  match s.pool.free c.kind with
  | [] => s.extend c
  | r :: rs =>
    (r, { s with pool := s.pool.setFree c.kind rs }.write r ⟨c, none⟩)

/-- Takes back a node, whose links are cut. -/
def giveBack (s : Store κ) (r : Ref) : Store κ :=
  match s.node? r with
  | none => s
  | some n =>
    let s := s.write r ⟨n.cell.cleared, none⟩
    { s with pool := s.pool.put n.cell.kind r }

/-! ## New stores -/

variable [Coefficient κ]

/-- Adds `n` free nodes of a kind; gives their references. -/
def stockUp (k : Kind) : Nat → Store κ → List Ref × Store κ
  | 0, s => ([], s)
  | n + 1, s =>
    let (r, s) := s.extend (Cell.blank k)
    let (rs, s) := stockUp k n s
    (r :: rs, s)

/-- A pool of its own in a store: it starts with a quarter of `initial` free nodes of each kind and
keeps at most `room` of each. -/
def newPool (initial room : Int) (s : Store κ) : Pool × Store κ :=
  let each := (initial / 4).toNat
  let (vars, s) := stockUp .var each s
  let (literals, s) := stockUp .literal each s
  let (binaries, s) := stockUp .binary each s
  let (unaries, s) := stockUp .unary each s
  ({ vars, literals, binaries, unaries, room, released := 0, handedOut := .zero }, s)

/-- A store without nodes and with an empty pool. -/
def bare : Store κ := ⟨#[], #[], ⟨[], [], [], [], 0, 0, .zero⟩⟩

/-- A store without trees, whose pool starts with `initial` free nodes. -/
def stocked (initial room : Int) : Store κ :=
  let (pool, s) := newPool initial room bare
  { s with pool }

/-- The store that every run starts from. -/
def fresh : Store κ := stocked 400 500

end Store

end Fluxion
