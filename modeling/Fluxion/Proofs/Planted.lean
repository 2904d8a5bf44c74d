import Fluxion.Store.Links
import Mathlib.Data.List.Nodup
import Mathlib.Data.List.Perm.Subperm

/-!
# Trees planted in a store

A planted tree is a tree together with the references of its nodes. It stands in a store when every
reference leads to the node the tree says: the content of the node, its children in their slots, and
the reference back to the node above. A store is apart from a list of references when all of them
are different nodes of the store, and none is free or free twice. Both together say that a tree is
owned strictly: no node of it is shared, free, or reached in two ways.

* `Planted.In` says that a planted tree stands in a store below a parent.
* `Store.Apart` says that the references in use and the free ones are all different, and
  `Store.Accounted` that no others were handed out, but for a number of them.
* `Store.Kept` says that the references in use elsewhere lead to the same nodes as before.
* `Planted.Stands.tree_eq` reads a planted tree back, and `Planted.Stands.postOrder_eq` lists its
  nodes.
* `Store.take_spec` and `Store.giveBack_spec` say what the pool does.
* `Store.plant` makes the nodes of a tree.
-/

namespace Fluxion

namespace Tree

variable {κ : Type} {op : Operator} {l r x : Tree κ} {n : Nat}

/-- Room for an operation is room for its operands, one level down. -/
theorem exists_of_depth_binary_le (h : (binary op l r).depth ≤ n) :
    ∃ d, n = d + 1 ∧ l.depth ≤ d ∧ r.depth ≤ d := by
  obtain ⟨d, rfl⟩ := Nat.exists_eq_add_one.mpr (Nat.lt_of_lt_of_le (Nat.succ_pos _) h)
  exact ⟨d, rfl, Nat.max_le.mp (Nat.le_of_succ_le_succ h)⟩

theorem exists_of_depth_unary_le (h : (unary op x).depth ≤ n) : ∃ d, n = d + 1 ∧ x.depth ≤ d := by
  obtain ⟨d, rfl⟩ := Nat.exists_eq_add_one.mpr (Nat.lt_of_lt_of_le (Nat.succ_pos _) h)
  exact ⟨d, rfl, Nat.le_of_succ_le_succ h⟩

end Tree

/-- A tree with the references of its nodes. -/
inductive Planted (κ : Type) where
  | absent
  | literal (ref : Ref) (value : κ)
  | var (ref : Ref) (name : Name)
  | binary (ref : Ref) (op : Operator) (left right : Planted κ)
  | unary (ref : Ref) (op : Operator) (operand : Planted κ)

namespace Planted

variable {κ : Type}

/-- The reference of the root, if there is one. -/
def ref? : Planted κ → Option Ref
  | absent => none
  | literal r _ => some r
  | var r _ => some r
  | binary r _ _ _ => some r
  | unary r _ _ => some r

@[simp] theorem ref?_absent : (absent : Planted κ).ref? = none := rfl

@[simp] theorem ref?_literal (r : Ref) (v : κ) : (literal r v).ref? = some r := rfl

@[simp] theorem ref?_var (r : Ref) (n : Name) : (var r n : Planted κ).ref? = some r := rfl

@[simp] theorem ref?_binary (r : Ref) (op : Operator) (p q : Planted κ) :
    (binary r op p q).ref? = some r := rfl

@[simp] theorem ref?_unary (r : Ref) (op : Operator) (p : Planted κ) :
    (unary r op p).ref? = some r := rfl

/-- The tree without its references. -/
def tree : Planted κ → Tree κ
  | absent => .absent
  | literal _ v => .literal v
  | var _ n => .var n
  | binary _ op p q => .binary op p.tree q.tree
  | unary _ op p => .unary op p.tree

/-- All references, children before parents and left before right. -/
def refs : Planted κ → List Ref
  | absent => []
  | literal r _ => [r]
  | var r _ => [r]
  | binary r _ p q => p.refs ++ q.refs ++ [r]
  | unary r _ p => p.refs ++ [r]

/-- The tree stands in a store below `parent`. -/
def In (s : Store κ) (parent : Option Ref) : Planted κ → Prop
  | absent => True
  | literal r v => s.node? r = some ⟨.literal v, parent⟩
  | var r n => s.node? r = some ⟨.var n, parent⟩
  | binary r op p q =>
    s.node? r = some ⟨.binary op p.ref? q.ref?, parent⟩ ∧ p.In s (some r) ∧ q.In s (some r)
  | unary r op p => s.node? r = some ⟨.unary op p.ref?, parent⟩ ∧ p.In s (some r)

variable {s t : Store κ} {parent : Option Ref} {p q : Planted κ} {r : Ref}

theorem mem_refs_of_ref? (h : p.ref? = some r) : r ∈ p.refs := by
  cases p <;> simp_all [refs]

/-- Only the empty tree has no root. -/
theorem eq_absent_of_ref? (h : p.ref? = none) : p = absent := by
  cases p <;> simp_all

theorem eq_absent_of_tree (h : p.tree = .absent) : p = absent := by
  cases p <;> simp_all [tree]

theorem length_refs (p : Planted κ) : p.refs.length = p.tree.size := by
  induction p with
  | binary r op p q ihp ihq => simp [refs, tree, Tree.size, ihp, ihq]; omega
  | unary r op p ih => simp [refs, tree, Tree.size, ih]
  | _ => rfl

/-- A tree that stands in a store also stands in one with the same nodes at its references. -/
theorem In.congr (h : p.In s parent) (hk : ∀ r ∈ p.refs, t.node? r = s.node? r) :
    p.In t parent := by
  induction p generalizing parent with
  | absent => trivial
  | literal r v => exact (hk r (by simp [refs])).trans h
  | var r n => exact (hk r (by simp [refs])).trans h
  | binary r op p q ihp ihq =>
    obtain ⟨hr, hp, hq⟩ := h
    refine ⟨(hk r (by simp [refs])).trans hr, ihp hp fun x hx => hk x ?_, ihq hq fun x hx => hk x ?_⟩
    · simp [refs, hx]
    · simp [refs, hx]
  | unary r op p ih =>
    obtain ⟨hr, hp⟩ := h
    exact ⟨(hk r (by simp [refs])).trans hr, ih hp fun x hx => hk x (by simp [refs, hx])⟩

/-- The root of a tree knows its parent. -/
theorem In.parent?_eq (h : p.In s parent) (hr : p.ref? = some r) : s.parent? r = parent := by
  cases p <;> simp_all [In, Store.parent?]

/-- A tree without a parent is free to be owned. -/
theorem In.bind_parent? (h : p.In s none) : p.ref?.bind s.parent? = none := by
  cases hr : p.ref? with
  | none => rfl
  | some r => exact h.parent?_eq hr

/-! ## Reading a planted tree -/

/-- Reading down far enough reads the whole tree. -/
theorem treeTo_eq (h : p.In s parent) {depth : Nat} (hd : p.tree.depth ≤ depth) :
    s.treeTo depth p.ref? = p.tree := by
  induction p generalizing parent depth with
  | absent => cases depth <;> rfl
  | literal r v =>
    obtain ⟨d, rfl⟩ := Nat.exists_eq_add_one.mpr hd
    simp only [In] at h
    simp [Store.treeTo, h, tree]
  | var r n =>
    obtain ⟨d, rfl⟩ := Nat.exists_eq_add_one.mpr hd
    simp only [In] at h
    simp [Store.treeTo, h, tree]
  | binary r op p q ihp ihq =>
    obtain ⟨d, rfl, hdp, hdq⟩ := Tree.exists_of_depth_binary_le hd
    obtain ⟨hr, hp, hq⟩ := h
    simp [Store.treeTo, hr, tree, ihp hp hdp, ihq hq hdq]
  | unary r op p ih =>
    obtain ⟨d, rfl, hdp⟩ := Tree.exists_of_depth_unary_le hd
    obtain ⟨hr, hp⟩ := h
    simp [Store.treeTo, hr, tree, ih hp hdp]

/-- The children of a node are the roots of the trees in its slots. -/
theorem children_eq {c : Cell κ} (h : s.node? r = some ⟨c, parent⟩) : s.children r = c.children := by
  rw [Store.children, h]

/-- A list made at the root of a slot is empty where the slot is. -/
theorem flatMap_ref? {list : Ref → List Ref} (h : ∀ x, p.ref? = some x → list x = p.refs) :
    p.ref?.toList.flatMap list = p.refs := by
  cases hx : p.ref? with
  | none =>
    rw [eq_absent_of_ref? hx]
    rfl
  | some x => simp [h x hx]

/-- Listing down far enough lists every node once. -/
theorem postOrderTo_eq (h : p.In s parent) {depth : Nat} (hd : p.tree.depth ≤ depth)
    (hr : p.ref? = some r) : s.postOrderTo depth r = p.refs := by
  induction p generalizing parent depth r with
  | absent => cases hr
  | literal r' v =>
    obtain rfl : r' = r := Option.some.inj hr
    have hc := children_eq h
    cases depth <;> simp [Store.postOrderTo, hc, Cell.children, refs]
  | var r' n =>
    obtain rfl : r' = r := Option.some.inj hr
    have hc := children_eq h
    cases depth <;> simp [Store.postOrderTo, hc, Cell.children, refs]
  | binary r' op p q ihp ihq =>
    obtain rfl : r' = r := Option.some.inj hr
    obtain ⟨d, rfl, hdp, hdq⟩ := Tree.exists_of_depth_binary_le hd
    obtain ⟨hn, hp, hq⟩ := h
    simp only [Store.postOrderTo, children_eq hn, Cell.children, List.flatMap_append, refs]
    rw [flatMap_ref? fun x hx => ihp hp hdp hx, flatMap_ref? fun x hx => ihq hq hdq hx]
  | unary r' op p ih =>
    obtain rfl : r' = r := Option.some.inj hr
    obtain ⟨d, rfl, hdp⟩ := Tree.exists_of_depth_unary_le hd
    obtain ⟨hn, hp⟩ := h
    simp only [Store.postOrderTo, children_eq hn, Cell.children, refs]
    rw [flatMap_ref? fun x hx => ih hp hdp hx]

end Planted

/-- No way down a tree is longer than its number of nodes. -/
theorem Tree.depth_le_size {κ : Type} (t : Tree κ) : t.depth ≤ t.size := by
  induction t <;> simp only [Tree.depth, Tree.size] <;> omega

/-! ## References in use and free references -/

namespace Pool

/-- All free references. -/
def spare (p : Pool) : List Ref := p.vars ++ p.literals ++ p.binaries ++ p.unaries

/-- The pool after a node of a kind was handed out. -/
def draw (p : Pool) (k : Kind) : Pool := (p.charge k).setFree k (p.free k).tail

/-- The nodes handed out and not released. -/
def balance (p : Pool) : Int := p.handedOut.total - p.released

variable (p : Pool) (k : Kind) (r : Ref)

@[simp] theorem free_charge (k' : Kind) : (p.charge k).free k' = p.free k' := by
  cases k' <;> rfl

@[simp] theorem charge_setFree (rs : List Ref) :
    (p.charge k).setFree k rs = (p.setFree k rs).charge k := by
  cases k <;> rfl

@[simp] theorem spare_charge : (p.charge k).spare = p.spare := rfl

theorem setFree_free : p.setFree k (p.free k) = p := by
  cases k <;> rfl

/-- Taking the first free node of a kind off its list takes it off the free references. -/
theorem spare_perm {rs : List Ref} (h : p.free k = r :: rs) :
    p.spare.Perm (r :: (p.setFree k rs).spare) := by
  refine List.perm_iff_count.mpr fun a => ?_
  cases k <;> simp only [free] at h <;>
    simp only [spare, setFree, h, List.count_append, List.count_cons] <;> omega

/-- A node taken back is free from then on, or dropped. -/
theorem spare_put :
    (p.put k r).spare.Perm (r :: p.spare) ∨ (p.put k r).spare = p.spare := by
  unfold put
  dsimp only
  split
  · left
    refine List.perm_iff_count.mpr fun a => ?_
    cases k <;> simp only [spare, setFree, free, List.count_append, List.count_cons] <;> omega
  · right
    rfl

@[simp] theorem balance_draw : (p.draw k).balance = p.balance + 1 := by
  have h : (p.draw k).handedOut = p.handedOut.add k := by cases k <;> rfl
  have h' : (p.draw k).released = p.released := by cases k <;> rfl
  simp only [balance, h, h', Tally.total_add]
  omega

@[simp] theorem balance_put : (p.put k r).balance = p.balance - 1 := by
  have h : (p.put k r).handedOut = p.handedOut := by
    unfold put
    dsimp only
    split <;> cases k <;> rfl
  have h' : (p.put k r).released = p.released + 1 := by
    unfold put
    dsimp only
    split <;> cases k <;> rfl
  simp only [balance, h, h']
  omega

end Pool

namespace Store

variable {κ : Type}

/-- The references in use and the free ones are all different, and all of them lead to nodes. -/
structure Apart (s : Store κ) (used : List Ref) : Prop where
  nodup : (used ++ s.pool.spare).Nodup
  bound : ∀ r ∈ used ++ s.pool.spare, r < s.nodes.size

/-- The references in use are apart, and they are all the nodes that were handed out and not
released, but for `b` others. -/
structure Accounted (s : Store κ) (b : Int) (used : List Ref) : Prop extends Apart s used where
  balance : s.pool.balance = b + used.length

/-- Some references lead to the same nodes as before, and the expressions have the same roots. -/
structure Kept (used : List Ref) (s t : Store κ) : Prop where
  nodes : ∀ r ∈ used, t.node? r = s.node? r
  roots : t.roots = s.roots

variable {s t u : Store κ} {b : Int} {used used' : List Ref} {r : Ref}

theorem Apart.perm (h : s.Apart used) (hp : used'.Perm used) : s.Apart used' where
  nodup := (hp.append_right _).nodup_iff.mpr h.nodup
  bound x hx := h.bound x ((hp.append_right _).mem_iff.mp hx)

theorem Apart.sublist (h : s.Apart used) (hs : used'.Sublist used) : s.Apart used' where
  nodup := h.nodup.sublist (hs.append_right _)
  bound x hx := h.bound x ((hs.append_right _).subset hx)

theorem Apart.of_append_right (h : s.Apart (used ++ used')) : s.Apart used' :=
  h.sublist (List.sublist_append_right _ _)

theorem Apart.of_append_left (h : s.Apart (used ++ used')) : s.Apart used :=
  h.sublist (List.sublist_append_left _ _)

theorem Apart.nodup_used (h : s.Apart used) : used.Nodup :=
  h.nodup.sublist (List.sublist_append_left _ _)

theorem Apart.lt_size (h : s.Apart used) (hr : r ∈ used) : r < s.nodes.size :=
  h.bound r (List.mem_append_left _ hr)

/-- Whatever is in use, some number of nodes was handed out besides. -/
theorem Apart.accounted (h : s.Apart used) : s.Accounted (s.pool.balance - used.length) used :=
  ⟨h, by omega⟩

theorem Accounted.perm (h : s.Accounted b used) (hp : used'.Perm used) : s.Accounted b used' :=
  ⟨h.toApart.perm hp, hp.length_eq ▸ h.balance⟩

theorem Kept.refl (used : List Ref) (s : Store κ) : Kept used s s := ⟨fun _ _ => rfl, rfl⟩

theorem Kept.trans (h : Kept used s t) (h' : Kept used t u) : Kept used s u :=
  ⟨fun r hr => (h'.nodes r hr).trans (h.nodes r hr), h'.roots.trans h.roots⟩

theorem Kept.subset (h : Kept used s t) (hs : used' ⊆ used) : Kept used' s t :=
  ⟨fun r hr => h.nodes r (hs hr), h.roots⟩

end Store

namespace Planted

variable {κ : Type} {s t : Store κ} {parent : Option Ref} {p q : Planted κ} {used used' : List Ref}
  {r : Ref}

theorem In.kept (h : p.In s parent) (hk : Store.Kept used s t) (hs : p.refs ⊆ used) :
    p.In t parent :=
  h.congr fun r hr => hk.nodes r (hs hr)

/-- The tree stands in a store below `parent`, and its nodes are different ones among those in
use. -/
structure Stands (s : Store κ) (used : List Ref) (parent : Option Ref) (p : Planted κ) : Prop where
  isIn : p.In s parent
  subset : p.refs ⊆ used
  nodup : p.refs.Nodup

theorem In.stands (h : p.In s parent) (ha : s.Apart (p.refs ++ used)) :
    p.Stands s (p.refs ++ used) parent :=
  ⟨h, List.subset_append_left _ _, ha.of_append_left.nodup_used⟩

theorem Stands.kept (h : p.Stands s used parent) (hk : Store.Kept used s t) :
    p.Stands t used parent :=
  ⟨h.isIn.kept hk h.subset, h.subset, h.nodup⟩

theorem Stands.mono (h : p.Stands s used parent) (hs : used ⊆ used') : p.Stands s used' parent :=
  ⟨h.isIn, fun _ hx => hs (h.subset hx), h.nodup⟩

theorem Stands.left {op : Operator} (h : (binary r op p q).Stands s used parent) :
    p.Stands s used (some r) := by
  obtain ⟨⟨-, hp, -⟩, hs, hnd⟩ := h
  simp only [refs, List.nodup_append, List.append_subset] at hs hnd
  exact ⟨hp, hs.1.1, hnd.1.1⟩

theorem Stands.right {op : Operator} (h : (binary r op p q).Stands s used parent) :
    q.Stands s used (some r) := by
  obtain ⟨⟨-, -, hq⟩, hs, hnd⟩ := h
  simp only [refs, List.nodup_append, List.append_subset] at hs hnd
  exact ⟨hq, hs.1.2, hnd.1.2.1⟩

theorem Stands.operand {op : Operator} (h : (unary r op p).Stands s used parent) :
    p.Stands s used (some r) := by
  obtain ⟨⟨-, hp⟩, hs, hnd⟩ := h
  simp only [refs, List.nodup_append, List.append_subset] at hs hnd
  exact ⟨hp, hs.1, hnd.1⟩

/-- No way down a tree is longer than the store has nodes. -/
theorem Stands.depth_le (h : p.Stands s used parent) (ha : s.Apart used) :
    p.tree.depth ≤ s.nodes.size := by
  refine Nat.le_trans p.tree.depth_le_size ?_
  have hsub : p.refs ⊆ List.range s.nodes.size := fun x hx =>
    List.mem_range.mpr (ha.lt_size (h.subset hx))
  have := (List.subperm_of_subset h.nodup hsub).length_le
  rwa [List.length_range, length_refs] at this

/-- **A planted tree reads back.** -/
theorem Stands.tree_eq (h : p.Stands s used parent) (ha : s.Apart used) : s.tree p.ref? = p.tree :=
  treeTo_eq h.isIn (h.depth_le ha)

/-- The nodes of a planted tree are listed children first. -/
theorem Stands.postOrder_eq (h : p.Stands s used parent) (ha : s.Apart used) (hr : p.ref? = some r) :
    s.postOrder r = p.refs :=
  postOrderTo_eq h.isIn (h.depth_le ha) hr

end Planted

/-! ## The pool -/

namespace Store

variable {κ : Type} {s : Store κ} {used : List Ref}

theorem node?_write (s : Store κ) (r x : Ref) (n : Node κ) (hr : r < s.nodes.size) :
    (s.write r n).node? x = if x = r then some n else s.node? x := by
  unfold write node?
  by_cases h : x = r
  · subst h
    simp [hr]
  · simp [h, Array.getElem?_setIfInBounds_ne (Ne.symm h)]

theorem lt_size_of_node? {r : Ref} {n : Node κ} (h : s.node? r = some n) : r < s.nodes.size := by
  unfold node? at h
  exact (Array.getElem?_eq_some_iff.mp h).1

/-- **Handing out a node.** It was not in use, it has the content asked for and no parent, and
nothing in use changes. -/
theorem take_spec (h : s.Apart used) (c : Cell κ) {r : Ref} {t : Store κ} (ht : s.take c = (r, t)) :
    t.node? r = some ⟨c, none⟩ ∧ t.Apart (r :: used) ∧ Kept used s t ∧
      t.pool = s.pool.draw c.kind := by
  unfold take at ht
  simp only [Pool.free_charge] at ht
  cases hf : s.pool.free c.kind with
  | nil =>
    simp only [hf, extend, Prod.mk.injEq] at ht
    obtain ⟨rfl, rfl⟩ := ht
    have hnew : s.nodes.size ∉ used ++ s.pool.spare := fun hm => absurd (h.bound _ hm) (Nat.lt_irrefl _)
    refine ⟨by simp [node?], ⟨?_, ?_⟩, ⟨fun x hx => ?_, rfl⟩, ?_⟩
    · exact List.nodup_cons.mpr ⟨hnew, h.nodup⟩
    · intro x hx
      rcases List.mem_cons.mp hx with rfl | hx
      · simp
      · simpa using Nat.lt_succ_of_lt (h.bound x hx)
    · have hne : x ≠ s.nodes.size := Nat.ne_of_lt (h.lt_size hx)
      simp [node?, Array.getElem?_push, hne]
    · have := s.pool.setFree_free c.kind
      rw [hf] at this
      rw [Pool.draw, hf, List.tail_nil, Pool.charge_setFree, this]
  | cons x xs =>
    simp only [hf, Prod.mk.injEq] at ht
    obtain ⟨rfl, rfl⟩ := ht
    have hperm := s.pool.spare_perm c.kind x hf
    have hall : (used ++ s.pool.spare).Perm (x :: (used ++ (s.pool.setFree c.kind xs).spare)) :=
      (hperm.append_left used).trans List.perm_middle
    have hx : x < s.nodes.size := h.bound x (hall.mem_iff.mpr List.mem_cons_self)
    have hnd := hall.nodup_iff.mp h.nodup
    refine ⟨?_, ⟨?_, ?_⟩, ⟨fun y hy => ?_, rfl⟩, ?_⟩
    · exact (node?_write _ _ _ _ (by exact hx)).trans (if_pos rfl)
    · simpa [write] using hnd
    · intro y hy
      have := h.bound y (hall.mem_iff.mpr (by simpa [write] using hy))
      simpa [write] using this
    · have hne : y ≠ x := by
        rintro rfl
        exact (List.nodup_cons.mp hnd).1 (List.mem_append_left _ hy)
      exact (node?_write _ _ _ _ (by exact hx)).trans (if_neg hne)
    · rw [Pool.draw, hf]
      rfl

/-- **Taking a node back.** Nothing else in use changes. -/
theorem giveBack_spec {r : Ref} {n : Node κ} (h : s.Apart (r :: used)) (hn : s.node? r = some n) :
    (s.giveBack r).Apart used ∧ Kept used s (s.giveBack r) ∧
      (s.giveBack r).pool = s.pool.put n.cell.kind r := by
  have hr : r < s.nodes.size := lt_size_of_node? hn
  have hnd : (r :: (used ++ s.pool.spare)).Nodup := h.nodup
  have hout : r ∉ used := fun hm => (List.nodup_cons.mp hnd).1 (List.mem_append_left _ hm)
  unfold giveBack
  rw [hn]
  refine ⟨⟨?_, ?_⟩, ⟨fun x hx => ?_, rfl⟩, rfl⟩
  · rcases s.pool.spare_put n.cell.kind r with hp | hp
    · exact ((hp.append_left used).trans List.perm_middle).nodup_iff.mpr hnd
    · show (used ++ (s.pool.put n.cell.kind r).spare).Nodup
      rw [hp]
      exact (List.nodup_cons.mp hnd).2
  · intro x hx
    have hsize : x < s.nodes.size := by
      refine h.bound x ?_
      rcases s.pool.spare_put n.cell.kind r with hp | hp
      · exact ((hp.append_left used).trans List.perm_middle).mem_iff.mp hx
      · have hx : x ∈ used ++ (s.pool.put n.cell.kind r).spare := hx
        rw [hp] at hx
        exact List.mem_cons_of_mem r hx
    simpa [write] using hsize
  · have hne : x ≠ r := fun e => hout (e ▸ hx)
    exact (node?_write s r x _ hr).trans (if_neg hne)

/-- Makes the nodes of a tree, operands before the operation. -/
def plant : Tree κ → Act (Store κ) (Option Ref)
  | .absent => pure none
  | .literal v => return some (← newLiteral .pool v)
  | .var n => return some (← newVar .pool n)
  | .binary op l r => do
    let l ← plant l
    let r ← plant r
    return some (← newBinary .pool op l r)
  | .unary op x => do
    let x ← plant x
    return some (← newUnary .pool op x)

end Store

end Fluxion
