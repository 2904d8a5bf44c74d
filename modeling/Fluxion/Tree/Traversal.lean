import Fluxion.Tree.Basic

/-!
# Traversals

A node of a tree is told by the way down to it. The nodes can be listed in three orders and walked in
two, they can be counted, and a variable can be looked for. All of this goes by a list of nodes still to
be seen to: one node is taken off the list and its children are put on it. A walk also tells the depth
of each node.

* `Spot` is a node of a tree, and `Spot.children` are the nodes in its slots.
* `Tree.breadthFirst`, `Tree.depthFirst` and `Tree.postOrder` are the lists; `Tree.nodes` picks one
  by name.
* `Tree.walk` walks, parents first or children first.
* `Tree.countNodes` and `Tree.countLevels` measure a tree.
* `Tree.occurs` and `Tree.occursAnywhere` look for a variable, and `Tree.names` are the names of all
  variables, each once and in order.
-/

namespace Fluxion

/-- A node of a tree: the slots to take on the way down to it, numbered from the left, and the subtree
it is the root of, which is not empty. -/
@[ext]
structure Spot (κ : Type) where
  way : List Nat
  tree : Tree κ
  present : tree.isAbsent = false
deriving Repr, DecidableEq

/-- The name of a variable. -/
def Tree.name? {κ : Type} : Tree κ → Option Name
  | var n => some n
  | _ => none

namespace Spot

variable {κ : Type}

/-- The root of the subtree at the end of a way, if it is not empty. -/
def rootOf (way : List Nat) (t : Tree κ) : List (Spot κ) :=
  if h : t.isAbsent = false then [⟨way, t, h⟩] else []

/-- The nodes in the slots of a node, from left to right. -/
def children (s : Spot κ) : List (Spot κ) :=
  match s.tree with
  | .binary _ l r => rootOf (s.way ++ [0]) l ++ rootOf (s.way ++ [1]) r
  | .unary _ x => rootOf (s.way ++ [0]) x
  | _ => []

/-- The work that a list of nodes stands for: all nodes at and below them. -/
def work : List (Spot κ) → Nat
  | [] => 0
  | s :: rest => s.tree.size + work rest

theorem work_append (ss ts : List (Spot κ)) : work (ss ++ ts) = work ss + work ts := by
  induction ss with
  | nil => simp [work]
  | cons s ss ih => simp only [List.cons_append, work, ih]; omega

theorem work_reverse (ss : List (Spot κ)) : work ss.reverse = work ss := by
  induction ss with
  | nil => rfl
  | cons s ss ih => simp only [List.reverse_cons, work_append, work, ih]; omega

theorem work_rootOf (way : List Nat) (t : Tree κ) : work (rootOf way t) = t.size := by
  cases t <;> simp [rootOf, Tree.isAbsent, work, Tree.size]

/-- Seeing to a node leaves the nodes below it. -/
theorem work_children (s : Spot κ) : work s.children + 1 = s.tree.size := by
  obtain ⟨way, t, h⟩ := s
  cases t with
  | absent => cases h
  | binary op l r => simp only [children, work_append, work_rootOf, Tree.size]
  | unary op x => simp only [children, work_rootOf, Tree.size]
  | _ => rfl

/-! ## Lists -/

/-- Lists a node before its children, and a child with all below it before the next. -/
def depthFirst (stack : List (Spot κ)) : List (Spot κ) :=
  match stack with
  | [] => []
  | s :: rest => s :: depthFirst (s.children ++ rest)
termination_by work stack
decreasing_by
  have := work_children s
  simp only [work_append, work]
  omega

/-- Like `depthFirst`, with the last child first. -/
def rightFirst (stack : List (Spot κ)) : List (Spot κ) :=
  match stack with
  | [] => []
  | s :: rest => s :: rightFirst (s.children.reverse ++ rest)
termination_by work stack
decreasing_by
  have := work_children s
  simp only [work_append, work_reverse, work]
  omega

/-- Lists nodes in the order of a queue, at whose end their children are put. The queue is given as its
front and its back, the back with the last node first. -/
def breadthFirst (front back : List (Spot κ)) : List (Spot κ) :=
  match front with
  | s :: front => s :: breadthFirst front (s.children.reverse ++ back)
  | [] =>
    match _h : back.reverse with
    | [] => []
    | s :: front => s :: breadthFirst front s.children.reverse
termination_by work front + work back
decreasing_by
  · have := work_children s
    simp only [work_append, work_reverse, work]
    omega
  · have := work_children s
    rw [← work_reverse back, _h]
    simp only [work_reverse, work]
    omega

/-! ## Walks -/

/-- A node that a walk has still to see to, its depth, and whether its children were put before it. -/
structure Errand (κ : Type) where
  spot : Spot κ
  depth : Nat
  expanded : Bool

namespace Errand

/-- The first errand to a node. -/
def first (depth : Nat) (s : Spot κ) : Errand κ := ⟨s, depth, false⟩

/-- The errands to the children of a node. -/
def below (e : Errand κ) : List (Errand κ) := e.spot.children.map (first (e.depth + 1))

/-- The work that a list of errands stands for. With children first, a node takes two errands. -/
def effort (parentsFirst : Bool) : List (Errand κ) → Nat
  | [] => 0
  | e :: rest =>
    (if parentsFirst || !e.expanded then 2 * e.spot.tree.size else 1) + effort parentsFirst rest

theorem effort_append (parentsFirst : Bool) (es fs : List (Errand κ)) :
    effort parentsFirst (es ++ fs) = effort parentsFirst es + effort parentsFirst fs := by
  induction es with
  | nil => simp [effort]
  | cons e es ih => simp only [List.cons_append, effort, ih]; omega

theorem effort_first (parentsFirst : Bool) (depth : Nat) (ss : List (Spot κ)) :
    effort parentsFirst (ss.map (first depth)) = 2 * work ss := by
  induction ss with
  | nil => rfl
  | cons s ss ih => simp [effort, first, work, ih]; omega

theorem effort_below (parentsFirst : Bool) (e : Errand κ) :
    effort parentsFirst e.below + 2 = 2 * e.spot.tree.size := by
  rw [below, effort_first]
  have := work_children e.spot
  omega

end Errand

/-- Visits nodes and all below them, parents first or children first; tells the depth of each. -/
def walk (parentsFirst : Bool) (stack : List (Errand κ)) : List (Nat × Spot κ) :=
  match stack with
  | [] => []
  | e :: rest =>
    if parentsFirst then (e.depth, e.spot) :: walk parentsFirst (e.below ++ rest)
    else if e.expanded then (e.depth, e.spot) :: walk parentsFirst rest
    else walk parentsFirst (e.below ++ { e with expanded := true } :: rest)
termination_by Errand.effort parentsFirst stack
decreasing_by
  all_goals
    have := Errand.effort_below parentsFirst e
    simp_all [Errand.effort_append, Errand.effort]
    try omega

/-! ## Measures and searches -/

/-- Counts on from `n`. -/
def countNodes (n : Nat) (stack : List (Spot κ)) : Nat :=
  match stack with
  | [] => n
  | s :: rest => countNodes (n + 1) (s.children.reverse ++ rest)
termination_by work stack
decreasing_by
  have := work_children s
  simp only [work_append, work_reverse, work]
  omega

/-- The greatest of `top` and the levels of the nodes. -/
def countLevels (top : Nat) (stack : List (Nat × Spot κ)) : Nat :=
  match stack with
  | [] => top
  | (level, s) :: rest =>
    countLevels (max top level) (s.children.reverse.map (fun c => (level + 1, c)) ++ rest)
termination_by work (stack.map Prod.snd)
decreasing_by
  have := work_children s
  simp only [List.map_append, List.map_map, Function.comp_def, List.map_id', List.map_cons, work_append,
    work_reverse, work]
  omega

/-- Looks for a variable until one is found; what is below a variable is not looked at. -/
def occurs (name : Name) (stack : List (Spot κ)) : Bool :=
  match stack with
  | [] => false
  | s :: rest =>
    match s.tree with
    | .var n => if n = name then true else occurs name rest
    | _ => occurs name (s.children.reverse ++ rest)
termination_by work stack
decreasing_by
  all_goals
    have := work_children s
    simp only [work_append, work_reverse, work]
    omega

/-- Looks for a variable until one is found, below every node. -/
def occursAnywhere (name : Name) (stack : List (Spot κ)) : Bool :=
  match stack with
  | [] => false
  | s :: rest =>
    if s.tree.name? = some name then true else occursAnywhere name (s.children.reverse ++ rest)
termination_by work stack
decreasing_by
  have := work_children s
  simp only [work_append, work_reverse, work]
  omega

end Spot

namespace Tree

variable {κ : Type}

/-- All nodes, level by level. -/
def breadthFirst (t : Tree κ) : List (Spot κ) := Spot.breadthFirst (Spot.rootOf [] t) []

/-- All nodes, parents before children. -/
def depthFirst (t : Tree κ) : List (Spot κ) := Spot.depthFirst (Spot.rootOf [] t)

/-- All nodes, children before parents: the list with right subtrees first, read backwards. -/
def postOrder (t : Tree κ) : List (Spot κ) := (Spot.rightFirst (Spot.rootOf [] t)).reverse

/-- All nodes in the order of a name. The empty tree has no nodes in any order. -/
def nodes (order : String) (t : Tree κ) : Except Fault (List (Spot κ)) :=
  if t.isAbsent then .ok []
  else if order = "breadth_first" then .ok t.breadthFirst
  else if order = "depth_first" then .ok t.depthFirst
  else if order = "post_order" then .ok t.postOrder
  else .error (.unknownTraversal order)

/-- The walk of a name, which visits all nodes and tells their depths. The empty tree is walked in any
order. -/
def walk (order : String) (t : Tree κ) : Except Fault (List (Nat × Spot κ)) :=
  if t.isAbsent then .ok []
  else if order = "pre" || order = "post" then
    .ok (Spot.walk (order = "pre") ((Spot.rootOf [] t).map (Spot.Errand.first 0)))
  else .error (.unknownWalk order)

/-- The number of nodes. -/
def countNodes (t : Tree κ) : Nat := Spot.countNodes 0 (Spot.rootOf [] t)

/-- The number of levels; a leaf has one. -/
def countLevels (t : Tree κ) : Nat := Spot.countLevels 0 ((Spot.rootOf [] t).map fun s => (1, s))

/-! ## What occurs in a tree -/

/-- Whether a variable called `name` is found among the leaves. -/
def occurs (name : Name) (t : Tree κ) : Bool := Spot.occurs name (Spot.rootOf [] t)

/-- Whether a variable called `name` is found among all nodes. -/
def occursAnywhere (name : Name) (t : Tree κ) : Bool := Spot.occursAnywhere name (Spot.rootOf [] t)

/-- Whether a name comes before another. -/
def nameBefore (a b : Name) : Bool := a.shown < b.shown

/-- Puts a name into an ordered list, unless it is there already. -/
def insertName (n : Name) : List Name → List Name
  | [] => [n]
  | m :: ms => if n = m then m :: ms else if nameBefore n m then n :: m :: ms
    else m :: insertName n ms

/-- The names of the variables that occur, in order. -/
def names (t : Tree κ) : List Name :=
  (t.breadthFirst.filterMap fun s => s.tree.name?).foldl (fun ns n => insertName n ns) []

/-- Whether the root is an operation node that carries an operator equal to `o`. -/
def carries (o : Operator) : Tree κ → Bool
  | binary op _ _ => op.same o
  | unary op _ => op.same o
  | _ => false

/-- The operation nodes that carry an operator, level by level. -/
def find (o : Operator) (t : Tree κ) : List (Spot κ) := t.breadthFirst.filter fun s => s.tree.carries o

end Tree

end Fluxion
