import Fluxion.Tree.Traversal
import Mathlib.Data.List.Perm.Basic
import Mathlib.Data.Nat.Basic
import Mathlib.Order.Basic

/-!
# Traversals go by the tree

Every traversal keeps a list of nodes still to be seen to, and what it has yet to yield is told by that
list: each node stands for all at and below it. So a stack yields the recursive orders of its nodes one
after the other. A queue yields itself first and then what the queue of all its children does, that is,
level by level.

* `Tree.preorder` and `Tree.postorder` are the recursive orders, and `Spot.Before` is the order by
  levels.
* `Spot.depthFirst_eq`, `Spot.rightFirst_eq` and `Spot.walk_eq` say what a stack yields,
  `Spot.perm_breadthFirst` and `Spot.pairwise_breadthFirst` what a queue does.
* `Tree.Lists` says that a list holds every node of a tree once.
* `Tree.countNodes_eq_size`, `Tree.countLevels_eq_depth` and `Tree.occursAnywhere_eq_mentions` tie the
  loops that measure and search to the recursive definitions.
* `Tree.traversals_agree` compares all traversals of a tree.
-/

namespace Fluxion

/-! ## Recursive orders -/

namespace Tree

variable {κ : Type}

/-- The nodes of the subtree at the end of a way, a node before those in its slots. -/
def preorder (way : List Nat) : Tree κ → List (Spot κ)
  | absent => []
  | literal v => [⟨way, literal v, rfl⟩]
  | var n => [⟨way, var n, rfl⟩]
  | binary op l r =>
    ⟨way, binary op l r, rfl⟩ :: (l.preorder (way ++ [0]) ++ r.preorder (way ++ [1]))
  | unary op x => ⟨way, unary op x, rfl⟩ :: x.preorder (way ++ [0])

/-- The nodes of the subtree at the end of a way, a node after those in its slots. -/
def postorder (way : List Nat) : Tree κ → List (Spot κ)
  | absent => []
  | literal v => [⟨way, literal v, rfl⟩]
  | var n => [⟨way, var n, rfl⟩]
  | binary op l r =>
    l.postorder (way ++ [0]) ++ r.postorder (way ++ [1]) ++ [⟨way, binary op l r, rfl⟩]
  | unary op x => x.postorder (way ++ [0]) ++ [⟨way, unary op x, rfl⟩]

/-- The subtree at the end of a way; it is empty if the way leads nowhere. -/
def subtree : Tree κ → List Nat → Tree κ
  | t, [] => t
  | binary _ l _, 0 :: way => l.subtree way
  | binary _ _ r, 1 :: way => r.subtree way
  | unary _ x, 0 :: way => x.subtree way
  | _, _ :: _ => absent

/-- The list holds every node of the tree once. -/
structure Lists (t : Tree κ) (ss : List (Spot κ)) : Prop where
  nodup : ss.Nodup
  mem_iff : ∀ s, s ∈ ss ↔ t.subtree s.way = s.tree
  length : ss.length = t.countNodes

/-- The recursive orders list the same nodes. -/
theorem perm_postorder (way : List Nat) (t : Tree κ) : (t.postorder way).Perm (t.preorder way) := by
  induction t generalizing way with
  | binary op l r ihl ihr =>
    rw [postorder, preorder]
    exact (List.perm_append_singleton _ _).trans (((ihl _).append (ihr _)).cons _)
  | unary op x ih =>
    rw [postorder, preorder]
    exact (List.perm_append_singleton _ _).trans ((ih _).cons _)
  | _ => exact .refl _

theorem length_preorder (way : List Nat) (t : Tree κ) : (t.preorder way).length = t.size := by
  induction t generalizing way with
  | binary op l r ihl ihr => simp [preorder, size, ihl, ihr]
  | unary op x ih => simp [preorder, size, ih]
  | _ => rfl

/-- A node is listed exactly if the way to it leads to its subtree. -/
theorem mem_preorder {way : List Nat} {t : Tree κ} {s : Spot κ} :
    s ∈ t.preorder way ↔ ∃ rest, s.way = way ++ rest ∧ t.subtree rest = s.tree := by
  obtain ⟨here, u, h⟩ := s
  have hne : absent ≠ u := by
    rintro rfl
    cases h
  induction t generalizing way with
  | absent =>
    refine ⟨fun hs => (List.not_mem_nil hs).elim, ?_⟩
    rintro ⟨_ | ⟨i, rest⟩, -, ht⟩ <;> simp only [subtree] at ht <;> exact (hne ht).elim
  | binary op l r ihl ihr =>
    simp only [preorder, List.mem_cons, List.mem_append, ihl, ihr, Spot.ext_iff]
    constructor
    · rintro (⟨rfl, rfl⟩ | ⟨rest, rfl, ht⟩ | ⟨rest, rfl, ht⟩)
      · exact ⟨[], (List.append_nil _).symm, rfl⟩
      · exact ⟨0 :: rest, (List.append_cons ..).symm, ht⟩
      · exact ⟨1 :: rest, (List.append_cons ..).symm, ht⟩
    · rintro ⟨rest, rfl, ht⟩
      match rest with
      | [] => exact .inl ⟨List.append_nil _, ht.symm⟩
      | 0 :: rest => exact .inr (.inl ⟨rest, List.append_cons .., ht⟩)
      | 1 :: rest => exact .inr (.inr ⟨rest, List.append_cons .., ht⟩)
      | (_ + 2) :: _ => exact (hne (by simpa [subtree] using ht)).elim
  | unary op x ih =>
    simp only [preorder, List.mem_cons, ih, Spot.ext_iff]
    constructor
    · rintro (⟨rfl, rfl⟩ | ⟨rest, rfl, ht⟩)
      · exact ⟨[], (List.append_nil _).symm, rfl⟩
      · exact ⟨0 :: rest, (List.append_cons ..).symm, ht⟩
    · rintro ⟨rest, rfl, ht⟩
      match rest with
      | [] => exact .inl ⟨List.append_nil _, ht.symm⟩
      | 0 :: rest => exact .inr ⟨rest, List.append_cons .., ht⟩
      | (_ + 1) :: _ => exact (hne (by simpa [subtree] using ht)).elim
  | literal v | var n =>
    simp only [preorder, List.mem_singleton, Spot.ext_iff]
    constructor
    · rintro ⟨rfl, rfl⟩
      exact ⟨[], (List.append_nil _).symm, rfl⟩
    · rintro ⟨_ | ⟨i, rest⟩, rfl, ht⟩
      · exact ⟨List.append_nil _, ht.symm⟩
      · exact (hne (by simpa [subtree] using ht)).elim

end Tree

namespace Spot

variable {κ : Type}

/-- The node and all below it, a node before those in its slots. -/
def preorder (s : Spot κ) : List (Spot κ) := s.tree.preorder s.way

/-- The node and all below it, a node after those in its slots. -/
def postorder (s : Spot κ) : List (Spot κ) := s.tree.postorder s.way

@[simp] theorem flatMap_preorder_rootOf (way : List Nat) (t : Tree κ) :
    (rootOf way t).flatMap preorder = t.preorder way := by
  cases t with
  | absent => rfl
  | _ => exact List.append_nil _

@[simp] theorem flatMap_postorder_rootOf (way : List Nat) (t : Tree κ) :
    (rootOf way t).flatMap postorder = t.postorder way := by
  cases t with
  | absent => rfl
  | _ => exact List.append_nil _

theorem preorder_eq (s : Spot κ) : s.preorder = s :: s.children.flatMap preorder := by
  obtain ⟨way, t, h⟩ := s
  cases t with
  | absent => cases h
  | binary op l r => simp [preorder, children, Tree.preorder]
  | unary op x => simp [preorder, children, Tree.preorder]
  | _ => rfl

theorem postorder_eq (s : Spot κ) : s.postorder = s.children.flatMap postorder ++ [s] := by
  obtain ⟨way, t, h⟩ := s
  cases t with
  | absent => cases h
  | binary op l r => simp [postorder, children, Tree.postorder]
  | unary op x => simp [postorder, children, Tree.postorder]
  | _ => rfl

/-! ## Stacks -/

/-- **A stack** yields its nodes one after the other, each with all below it. -/
theorem depthFirst_eq (stack : List (Spot κ)) : depthFirst stack = stack.flatMap preorder := by
  fun_induction depthFirst stack with
  | case1 => rfl
  | case2 s rest ih =>
    rw [ih, List.flatMap_append, List.flatMap_cons, preorder_eq, List.cons_append]

/-- With the last child first, a node is read after what is below it from the end. -/
theorem rightFirst_eq (stack : List (Spot κ)) :
    rightFirst stack = stack.flatMap fun s => s.postorder.reverse := by
  fun_induction rightFirst stack with
  | case1 => rfl
  | case2 s rest ih =>
    rw [ih, List.flatMap_append, List.flatMap_cons, postorder_eq, List.reverse_append,
      List.reverse_flatMap]
    rfl

/-- A node with its depth. -/
def deep (s : Spot κ) : Nat × Spot κ := (s.way.length, s)

/-- What a walk yields for an errand, apart from the depths. -/
def Errand.yields (parentsFirst : Bool) (e : Errand κ) : List (Spot κ) :=
  if parentsFirst then e.spot.preorder else if e.expanded then [e.spot] else e.spot.postorder

/-- The errand knows the depth of its node. -/
def Errand.Measured (e : Errand κ) : Prop := e.depth = e.spot.way.length

theorem mem_rootOf {way : List Nat} {t : Tree κ} {s : Spot κ} :
    s ∈ rootOf way t ↔ s.way = way ∧ s.tree = t := by
  rw [rootOf]
  split
  · rw [List.mem_singleton, Spot.ext_iff]
  · case isFalse ht =>
    refine ⟨fun hs => (List.not_mem_nil hs).elim, ?_⟩
    rintro ⟨-, rfl⟩
    exact (ht s.present).elim

/-- The way to a child is one slot longer. -/
theorem way_of_mem_children {s c : Spot κ} (hc : c ∈ s.children) : ∃ i, c.way = s.way ++ [i] := by
  obtain ⟨way, t, h⟩ := s
  cases t with
  | binary op l r =>
    obtain hl | hr := List.mem_append.1 hc
    · exact ⟨0, (mem_rootOf.1 hl).1⟩
    · exact ⟨1, (mem_rootOf.1 hr).1⟩
  | unary op x => exact ⟨0, (mem_rootOf.1 hc).1⟩
  | _ => cases hc

theorem Errand.Measured.below {e f : Errand κ} (he : e.Measured) (hf : f ∈ e.below) :
    f.Measured := by
  obtain ⟨c, hc, rfl⟩ := List.mem_map.1 hf
  obtain ⟨i, hi⟩ := way_of_mem_children hc
  simp only [Measured, first, hi, List.length_append, List.length_singleton]
  rw [he]

theorem Errand.flatMap_yields_below (parentsFirst : Bool) (e : Errand κ) :
    e.below.flatMap (yields parentsFirst) =
      e.spot.children.flatMap fun c => if parentsFirst then c.preorder else c.postorder := by
  rw [Errand.below, List.flatMap_map]
  cases parentsFirst <;> rfl

/-- **A walk** yields the nodes of its stack one after the other, each with all below it, and the depth
of every node. -/
theorem walk_eq (parentsFirst : Bool) (stack : List (Errand κ)) (hm : ∀ e ∈ stack, e.Measured) :
    walk parentsFirst stack = (stack.flatMap (Errand.yields parentsFirst)).map deep := by
  fun_induction walk parentsFirst stack with
  | case1 => rfl
  | case2 e rest hp ih =>
    obtain ⟨he, hrest⟩ := List.forall_mem_cons.1 hm
    rw [ih (List.forall_mem_append.2 ⟨fun f => he.below, hrest⟩), List.flatMap_append,
      List.flatMap_cons, Errand.flatMap_yields_below, hp, Errand.yields, if_pos rfl, preorder_eq, he]
    rfl
  | case3 e rest hp hx ih =>
    obtain ⟨he, hrest⟩ := List.forall_mem_cons.1 hm
    rw [ih hrest, List.flatMap_cons, Errand.yields, if_neg hp, if_pos hx, he]
    rfl
  | case4 e rest hp hx ih =>
    obtain ⟨he, hrest⟩ := List.forall_mem_cons.1 hm
    rw [ih (List.forall_mem_append.2 ⟨fun f => he.below, List.forall_mem_cons.2 ⟨he, hrest⟩⟩),
      List.flatMap_append, List.flatMap_cons, List.flatMap_cons, Errand.flatMap_yields_below,
      Errand.yields, Errand.yields, if_neg hp, if_neg hp, if_neg hx, if_pos rfl, postorder_eq,
      ← List.append_assoc]
    simp [hp]

/-! ## Queues -/

/-- The way parts from another at a node, where it goes on in a slot further left. -/
def LeftOf (way way' : List Nat) : Prop :=
  ∃ common i j rest rest', way = common ++ i :: rest ∧ way' = common ++ j :: rest' ∧ i < j

/-- The order by levels, and from left to right on a level. -/
def Before (s s' : Spot κ) : Prop :=
  s.way.length < s'.way.length ∨ s.way.length = s'.way.length ∧ LeftOf s.way s'.way

theorem LeftOf.append {way way' : List Nat} (h : LeftOf way way') (more more' : List Nat) :
    LeftOf (way ++ more) (way' ++ more') := by
  obtain ⟨common, i, j, rest, rest', rfl, rfl, hij⟩ := h
  exact ⟨common, i, j, rest ++ more, rest' ++ more', by simp, by simp, hij⟩

theorem not_leftOf_self (way : List Nat) : ¬LeftOf way way := by
  rintro ⟨common, i, j, rest, rest', rfl, h, hij⟩
  obtain ⟨rfl, -⟩ := List.cons.inj (List.append_cancel_left h)
  exact Nat.lt_irrefl _ hij

theorem Before.ne {s s' : Spot κ} (h : s.Before s') : s ≠ s' := by
  rintro rfl
  obtain hlt | ⟨-, hl⟩ := h
  · exact Nat.lt_irrefl _ hlt
  · exact not_leftOf_self _ hl

/-- The nodes of one level, from left to right. -/
structure IsLevel (depth : Nat) (level : List (Spot κ)) : Prop where
  length : ∀ s ∈ level, s.way.length = depth
  ordered : level.Pairwise fun s s' => LeftOf s.way s'.way

theorem pairwise_children (s : Spot κ) : s.children.Pairwise fun c c' => LeftOf c.way c'.way := by
  obtain ⟨way, t, h⟩ := s
  have hone (i : Nat) (u : Tree κ) :
      (rootOf (way ++ [i]) u).Pairwise fun c c' => LeftOf c.way c'.way := by
    rw [rootOf]
    split
    · exact List.pairwise_singleton ..
    · exact .nil
  cases t with
  | binary op l r =>
    refine List.pairwise_append.2 ⟨hone 0 l, hone 1 r, fun c hc c' hc' => ?_⟩
    rw [(mem_rootOf.1 hc).1, (mem_rootOf.1 hc').1]
    exact ⟨way, 0, 1, [], [], rfl, rfl, Nat.zero_lt_one⟩
  | unary op x => exact hone 0 x
  | _ => exact .nil

/-- The children of a level are the next level. -/
theorem IsLevel.next {depth : Nat} {level : List (Spot κ)} (h : IsLevel depth level) :
    IsLevel (depth + 1) (level.flatMap children) where
  length c hc := by
    obtain ⟨s, hs, hc⟩ := List.mem_flatMap.1 hc
    obtain ⟨i, hi⟩ := way_of_mem_children hc
    rw [hi, List.length_append, h.length s hs, List.length_singleton]
  ordered := by
    refine List.pairwise_flatMap.2 ⟨fun s _ => pairwise_children s, h.ordered.imp ?_⟩
    intro s s' hl c hc c' hc'
    obtain ⟨i, hi⟩ := way_of_mem_children hc
    obtain ⟨j, hj⟩ := way_of_mem_children hc'
    rw [hi, hj]
    exact hl.append ..

theorem breadthFirst_nil (back : List (Spot κ)) :
    breadthFirst [] back = breadthFirst back.reverse [] := by
  cases h : back.reverse with
  | nil => rw [List.reverse_eq_nil_iff.1 h]
  | cons s front =>
    rw [breadthFirst, breadthFirst]
    split <;> simp_all

theorem breadthFirst_front (front back : List (Spot κ)) :
    breadthFirst front back = front ++ breadthFirst [] ((front.flatMap children).reverse ++ back) := by
  induction front generalizing back with
  | nil => rfl
  | cons s front ih =>
    rw [breadthFirst, ih, List.flatMap_cons, List.reverse_append, List.append_assoc, List.cons_append]

/-- A queue yields itself and then what the queue of its children does. -/
theorem breadthFirst_level (level : List (Spot κ)) :
    breadthFirst level [] = level ++ breadthFirst (level.flatMap children) [] := by
  rw [breadthFirst_front, List.append_nil, breadthFirst_nil, List.reverse_reverse]

/-- Descent from a level to the next one. -/
theorem level_induction {P : List (Spot κ) → Prop} (nil : P [])
    (step : ∀ level, level ≠ [] → P (level.flatMap children) → P level) (level : List (Spot κ)) :
    P level := by
  have hwork (level : List (Spot κ)) : work (level.flatMap children) + level.length = work level := by
    induction level with
    | nil => rfl
    | cons s level ih =>
      have := work_children s
      simp only [List.flatMap_cons, work_append, work, List.length_cons]
      omega
  induction hn : work level using Nat.strong_induction_on generalizing level with
  | _ n ih =>
    subst hn
    by_cases hl : level = []
    · exact hl ▸ nil
    · have := hwork level
      have := List.length_pos_of_ne_nil hl
      exact step level hl (ih _ (by omega) _ rfl)

/-- **A queue** yields every node once, at or below its nodes. -/
theorem perm_breadthFirst (level : List (Spot κ)) :
    (breadthFirst level []).Perm (level.flatMap preorder) := by
  induction level using level_induction with
  | nil => rw [breadthFirst]; exact .refl _
  | step level hl ih =>
    have hp : preorder = fun s : Spot κ => [s] ++ s.children.flatMap preorder := funext preorder_eq
    rw [breadthFirst_level]
    calc level ++ breadthFirst (level.flatMap children) []
        |>.Perm (level ++ (level.flatMap children).flatMap preorder) := ih.append_left level
      _ = level.flatMap (fun s => [s]) ++ level.flatMap fun s => s.children.flatMap preorder := by
          rw [List.flatMap_singleton', List.flatMap_assoc]
      _ |>.Perm (level.flatMap fun s => [s] ++ s.children.flatMap preorder) :=
          List.flatMap_append_perm ..
      _ = level.flatMap preorder := by rw [← hp]

/-- **A queue that starts with a level** yields level after level, each from left to right. -/
theorem pairwise_breadthFirst {depth : Nat} {level : List (Spot κ)} (h : IsLevel depth level) :
    (∀ s ∈ breadthFirst level [], depth ≤ s.way.length) ∧ (breadthFirst level []).Pairwise Before := by
  induction level using level_induction generalizing depth with
  | nil =>
    rw [breadthFirst]
    exact ⟨fun s hs => (List.not_mem_nil hs).elim, .nil⟩
  | step level hl ih =>
    obtain ⟨hdeeper, hlater⟩ := ih h.next
    rw [breadthFirst_level]
    constructor
    · refine List.forall_mem_append.2 ⟨fun s hs => (h.length s hs).ge, fun s hs => ?_⟩
      exact Nat.le_of_succ_le (hdeeper s hs)
    · refine List.pairwise_append.2 ⟨h.ordered.imp_of_mem ?_, hlater, fun s hs s' hs' => .inl ?_⟩
      · exact fun hs hs' hleft => .inr ⟨(h.length _ hs).trans (h.length _ hs').symm, hleft⟩
      · rw [h.length s hs]
        exact hdeeper s' hs'

/-! ## Measures and searches -/

theorem countNodes_eq (n : Nat) (stack : List (Spot κ)) : countNodes n stack = n + work stack := by
  fun_induction countNodes n stack with
  | case1 n => rfl
  | case2 n s rest ih =>
    have := work_children s
    rw [ih, work_append, work_reverse, work]
    omega

/-- Levels are counted up to the deepest node. -/
theorem countLevels_le_iff {top n : Nat} {stack : List (Nat × Spot κ)}
    (hm : ∀ x ∈ stack, x.1 = x.2.way.length + 1) :
    countLevels top stack ≤ n ↔
      top ≤ n ∧ ∀ s ∈ stack.flatMap (fun x => x.2.preorder), s.way.length + 1 ≤ n := by
  fun_induction countLevels top stack with
  | case1 top => simp
  | case2 top level s rest ih =>
    obtain ⟨hs, hrest⟩ := List.forall_mem_cons.1 hm
    replace hs : level = s.way.length + 1 := hs
    have hchildren :
        ∀ x ∈ s.children.reverse.map (fun c => (level + 1, c)), x.1 = x.2.way.length + 1 := by
      intro x hx
      obtain ⟨c, hc, rfl⟩ := List.mem_map.1 hx
      obtain ⟨i, hi⟩ := way_of_mem_children (List.mem_reverse.1 hc)
      simp only [hi, List.length_append, List.length_singleton, hs]
    rw [ih (List.forall_mem_append.2 ⟨hchildren, hrest⟩)]
    simp only [List.flatMap_append, List.flatMap_map, List.flatMap_cons, preorder_eq s, hs, Nat.max_le,
      List.forall_mem_append, List.forall_mem_cons, List.mem_flatMap, List.mem_reverse, and_assoc]

/-- A search among the leaves is one among all nodes, since nothing is below a variable. -/
theorem occurs_eq (name : Name) (stack : List (Spot κ)) :
    occurs name stack = occursAnywhere name stack := by
  fun_induction occurs name stack with
  | case1 => rw [occursAnywhere]
  | case2 s rest hn => rw [occursAnywhere, if_pos (by rw [hn, Tree.name?])]
  | case3 s rest n hn hname ih =>
    rw [occursAnywhere, if_neg (by simpa [hn, Tree.name?] using hname), ih]
    simp [children, hn]
  | case4 s rest hn ih =>
    rw [occursAnywhere, if_neg, ih]
    cases h : s.tree with
    | var n => exact (hn n h).elim
    | _ => simp [Tree.name?]

theorem occursAnywhere_iff {name : Name} {stack : List (Spot κ)} :
    occursAnywhere name stack = true ↔ ∃ s ∈ stack.flatMap preorder, s.tree.name? = some name := by
  fun_induction occursAnywhere name stack with
  | case1 => simp
  | case2 s rest hs =>
    refine ⟨fun _ => ⟨s, ?_, hs⟩, fun _ => rfl⟩
    rw [List.flatMap_cons, preorder_eq]
    exact List.mem_cons_self
  | case3 s rest hs ih =>
    rw [ih]
    simp only [List.flatMap_append, List.flatMap_cons, preorder_eq s, List.mem_append, List.mem_cons,
      List.mem_flatMap, List.mem_reverse]
    constructor
    · rintro ⟨s', hs' | hs', hn⟩
      · exact ⟨s', .inl (.inr hs'), hn⟩
      · exact ⟨s', .inr hs', hn⟩
    · rintro ⟨s', (rfl | hs') | hs', hn⟩
      · exact (hs hn).elim
      · exact ⟨s', .inl hs', hn⟩
      · exact ⟨s', .inr hs', hn⟩

end Spot

/-! ## A tree -/

namespace Tree

variable {κ : Type}

/-- Node counts agree. -/
theorem countNodes_eq_size (t : Tree κ) : t.countNodes = t.size := by
  rw [countNodes, Spot.countNodes_eq, Spot.work_rootOf, Nat.zero_add]

theorem Lists.perm {t : Tree κ} {ss us : List (Spot κ)} (h : t.Lists ss) (hp : ss.Perm us) :
    t.Lists us where
  nodup := hp.nodup_iff.1 h.nodup
  mem_iff s := hp.mem_iff.symm.trans (h.mem_iff s)
  length := hp.length_eq.symm.trans h.length

theorem isLevel_rootOf (t : Tree κ) : Spot.IsLevel 0 (Spot.rootOf [] t) where
  length s hs := by rw [(Spot.mem_rootOf.1 hs).1, List.length_nil]
  ordered := by
    rw [Spot.rootOf]
    split
    · exact List.pairwise_singleton ..
    · exact .nil

theorem pairwise_breadthFirst (t : Tree κ) : t.breadthFirst.Pairwise Spot.Before :=
  (Spot.pairwise_breadthFirst t.isLevel_rootOf).2

theorem perm_breadthFirst (t : Tree κ) : t.breadthFirst.Perm (t.preorder []) := by
  rw [← Spot.flatMap_preorder_rootOf]
  exact Spot.perm_breadthFirst _

/-- The recursive order lists every node once, since no two nodes of the order by levels are equal. -/
theorem lists_preorder (t : Tree κ) : t.Lists (t.preorder []) where
  nodup := t.perm_breadthFirst.nodup_iff.1 (t.pairwise_breadthFirst.imp Spot.Before.ne)
  mem_iff s := by simp [mem_preorder]
  length := by rw [length_preorder, countNodes_eq_size]

theorem countLevels_le_iff {t : Tree κ} {n : Nat} :
    t.countLevels ≤ n ↔ ∀ s ∈ t.preorder [], s.way.length + 1 ≤ n := by
  rw [countLevels, Spot.countLevels_le_iff, List.flatMap_map, ← Spot.flatMap_preorder_rootOf]
  · simp
  · intro x hx
    obtain ⟨s, hs, rfl⟩ := List.mem_map.1 hx
    rw [(Spot.mem_rootOf.1 hs).1, List.length_nil]

/-- The level of the deepest node in a list is the number of levels. -/
theorem countLevels_eq_max {t : Tree κ} {ss : List (Spot κ)} (hp : ss.Perm (t.preorder [])) :
    ((ss.map Spot.deep).map fun x => x.1 + 1).max?.getD 0 = t.countLevels := by
  refine eq_of_forall_ge_iff fun n => ?_
  have hmem : (∀ k ∈ (ss.map Spot.deep).map (fun x => x.1 + 1), k ≤ n) ↔
      ∀ s ∈ t.preorder [], s.way.length + 1 ≤ n := by
    simp [Spot.deep, hp.mem_iff]
  rw [countLevels_le_iff, ← hmem]
  cases h : ((ss.map Spot.deep).map fun x => x.1 + 1).max? with
  | none => simp [List.max?_eq_none_iff.1 h]
  | some k => exact List.max?_le_iff h

/-- The levels up to the deepest node are as many as nodes on the longest way down. -/
theorem countLevels_eq_depth (t : Tree κ) : t.countLevels = t.depth := by
  have hdepth (way : List Nat) (n : Nat) (t : Tree κ) :
      (∀ s ∈ t.preorder way, s.way.length + 1 ≤ n) ↔ t.depth = 0 ∨ way.length + t.depth ≤ n := by
    induction t generalizing way with
    | absent => simp [preorder, depth]
    | binary op l r ihl ihr =>
      simp only [preorder, List.forall_mem_cons, List.forall_mem_append, ihl, ihr, depth,
        List.length_append, List.length_singleton]
      omega
    | unary op x ih =>
      simp only [preorder, List.forall_mem_cons, ih, depth, List.length_append, List.length_singleton]
      omega
    | _ => simp [preorder, depth]
  refine eq_of_forall_ge_iff fun n => ?_
  rw [countLevels_le_iff, hdepth]
  simp only [List.length_nil, Nat.zero_add]
  omega

/-! ### Variables -/

theorem occursAnywhere_iff {name : Name} {t : Tree κ} :
    t.occursAnywhere name = true ↔ ∃ s ∈ t.preorder [], s.tree.name? = some name := by
  rw [occursAnywhere, Spot.occursAnywhere_iff, Spot.flatMap_preorder_rootOf]

theorem mem_insertName {m n : Name} {ns : List Name} : m ∈ insertName n ns ↔ m = n ∨ m ∈ ns := by
  induction ns with
  | nil => simp [insertName]
  | cons k ns ih =>
    rw [insertName]
    split
    · case isTrue h => simp [h]
    · split
      · simp
      · simp only [List.mem_cons, ih]
        tauto

theorem mem_names {name : Name} {t : Tree κ} :
    name ∈ t.names ↔ ∃ s ∈ t.preorder [], s.tree.name? = some name := by
  have hmem (ns start : List Name) :
      name ∈ ns.foldl (fun ns n => insertName n ns) start ↔ name ∈ ns ∨ name ∈ start := by
    induction ns generalizing start with
    | nil => simp
    | cons n ns ih =>
      simp only [List.foldl_cons, ih, mem_insertName, List.mem_cons]
      tauto
  rw [names, hmem, List.mem_filterMap]
  simp [t.perm_breadthFirst.mem_iff]

/-- The recursive search finds a variable exactly where a node bears its name. -/
theorem mentions_iff {name : Name} {t : Tree κ} (way : List Nat) :
    t.mentions name = true ↔ ∃ s ∈ t.preorder way, s.tree.name? = some name := by
  induction t generalizing way with
  | binary op l r ihl ihr =>
    simp [mentions, preorder, name?, ihl (way ++ [0]), ihr (way ++ [1]), or_and_right, exists_or]
  | unary op x ih => simp [mentions, preorder, name?, ih (way ++ [0])]
  | _ => simp [mentions, preorder, name?]

theorem occursAnywhere_eq_mentions (name : Name) (t : Tree κ) :
    t.occursAnywhere name = t.mentions name :=
  Bool.eq_iff_iff.2 (occursAnywhere_iff.trans (mentions_iff []).symm)

/-! ### All traversals -/

theorem depthFirst_eq (t : Tree κ) : t.depthFirst = t.preorder [] := by
  rw [depthFirst, Spot.depthFirst_eq, Spot.flatMap_preorder_rootOf]

theorem postOrder_eq (t : Tree κ) : t.postOrder = t.postorder [] := by
  rw [postOrder, Spot.rightFirst_eq, List.reverse_flatMap, ← Spot.flatMap_postorder_rootOf]
  have hone : (Spot.rootOf [] t).reverse = Spot.rootOf [] t := by
    rw [Spot.rootOf]
    split <;> rfl
  simp [hone, Function.comp_def]

theorem walk_eq {order : String} (ho : order = "pre" ∨ order = "post") (t : Tree κ) :
    t.walk order = .ok ((if order = "pre" then t.preorder [] else t.postorder []).map Spot.deep) := by
  have hm : ∀ e ∈ (Spot.rootOf [] t).map (Spot.Errand.first 0), e.Measured := by
    intro e he
    obtain ⟨s, hs, rfl⟩ := List.mem_map.1 he
    simp [Spot.Errand.Measured, Spot.Errand.first, (Spot.mem_rootOf.1 hs).1]
  rw [walk]
  split
  · case isTrue ht =>
    cases t with
    | absent => simp [preorder, postorder]
    | _ => cases ht
  · rw [if_pos (by simpa using ho), Spot.walk_eq _ _ hm, List.flatMap_map]
    by_cases hp : order = "pre"
    · simp [hp, Spot.Errand.yields, Spot.Errand.first]
    · simp [hp, Spot.Errand.yields, Spot.Errand.first]

theorem exists_perm_of_walk {order : String} {t : Tree κ} {visits : List (Nat × Spot κ)}
    (h : t.walk order = .ok visits) :
    ∃ ss : List (Spot κ), ss.Perm (t.preorder []) ∧ visits = ss.map Spot.deep := by
  by_cases ho : order = "pre" ∨ order = "post"
  · rw [walk_eq ho] at h
    refine ⟨_, ?_, (Except.ok.inj h).symm⟩
    split
    · exact .refl _
    · exact t.perm_postorder []
  · cases t with
    | absent => exact ⟨[], .refl _, (Except.ok.inj h).symm⟩
    | _ => simp [walk, isAbsent, ho] at h

theorem nodes_breadth_first (t : Tree κ) : t.nodes "breadth_first" = .ok t.breadthFirst := by
  cases t with
  | absent => simp [nodes, isAbsent, perm_breadthFirst (absent : Tree κ) |>.eq_nil]
  | _ => simp [nodes, isAbsent]

theorem nodes_depth_first (t : Tree κ) : t.nodes "depth_first" = .ok (t.preorder []) := by
  cases t with
  | absent => rfl
  | _ => simp [nodes, isAbsent, depthFirst_eq]

theorem nodes_post_order (t : Tree κ) : t.nodes "post_order" = .ok (t.postorder []) := by
  cases t with
  | absent => rfl
  | _ => simp [nodes, isAbsent, postOrder_eq]

/-- **All traversals of a tree agree.** The walk with parents first goes by the depth-first list and the
walk with children first by the post-order list, and these are the recursive orders. The breadth-first
list goes level by level, each level from left to right. Every list holds every node once. The largest
depth a walk tells is one less than the number of levels, which is the depth of the tree. A variable is
found by either search, and by the recursive one, exactly if its name is among the names of the tree. -/
theorem traversals_agree (t : Tree κ) :
    (t.walk "pre" = .ok ((t.preorder []).map Spot.deep) ∧
      t.nodes "depth_first" = .ok (t.preorder [])) ∧
    (t.walk "post" = .ok ((t.postorder []).map Spot.deep) ∧
      t.nodes "post_order" = .ok (t.postorder []) ∧ t.postOrder = t.postorder []) ∧
    (t.nodes "breadth_first" = .ok t.breadthFirst ∧ t.breadthFirst.Pairwise Spot.Before) ∧
    (t.Lists (t.preorder []) ∧ t.Lists (t.postorder []) ∧ t.Lists t.breadthFirst) ∧
    (∀ order visits, t.walk order = .ok visits →
      (visits.map fun x => x.1 + 1).max?.getD 0 = t.countLevels) ∧
    t.countLevels = t.depth ∧
    ∀ name, t.occursAnywhere name = t.occurs name ∧ t.occurs name = t.mentions name ∧
      (t.occurs name = true ↔ name ∈ t.names) := by
  have hpost := t.perm_postorder []
  refine ⟨⟨walk_eq (.inl rfl) t, t.nodes_depth_first⟩,
    ⟨walk_eq (.inr rfl) t, t.nodes_post_order, t.postOrder_eq⟩,
    ⟨t.nodes_breadth_first, t.pairwise_breadthFirst⟩,
    ⟨t.lists_preorder, t.lists_preorder.perm hpost.symm, t.lists_preorder.perm t.perm_breadthFirst.symm⟩,
    fun order visits h => ?_, t.countLevels_eq_depth, fun name => ?_⟩
  · obtain ⟨ss, hp, rfl⟩ := exists_perm_of_walk h
    exact countLevels_eq_max hp
  · have hleaves : t.occurs name = t.occursAnywhere name := Spot.occurs_eq ..
    rw [hleaves]
    exact ⟨rfl, occursAnywhere_eq_mentions name t, occursAnywhere_iff.trans mem_names.symm⟩

end Tree

end Fluxion
