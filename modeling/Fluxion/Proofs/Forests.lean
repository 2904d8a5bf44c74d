import Fluxion.Proofs.Recycling

/-!
# Forests in a store

The nodes a program can get at form a forest: a list of planted trees without parents, of which no two
share a node. Assigning a slot, or replacing a child, moves one tree into a slot of another and leaves
what was in the slot as a tree of its own. So as long as no node is put below itself, changing links
takes a forest to a forest of the same nodes.

* `Store.Bears` says that a store bears a forest.
* `Planted.In.graft` puts another tree into a slot of a tree.
* `Bears.regrafted` and `Bears.replaceChild` say what changing links makes of a forest.
-/

namespace Fluxion

open Act

/-- Planted trees. -/
abbrev Forest (κ : Type) := List (Planted κ)

/-- The references of all trees. -/
def Forest.refs {κ : Type} (F : Forest κ) : List Ref := F.flatMap (·.refs)

namespace Forest

variable {κ : Type} {F G : Forest κ} {p : Planted κ} {r : Ref}

@[simp] theorem refs_nil : Forest.refs ([] : Forest κ) = [] := rfl

@[simp] theorem refs_cons (p : Planted κ) (F : Forest κ) : Forest.refs (p :: F) = p.refs ++ F.refs := rfl

theorem perm_refs (h : F.Perm G) : F.refs.Perm G.refs := h.flatMap_right _

theorem subset_refs (h : p ∈ F) : p.refs ⊆ F.refs := fun _ hx => List.mem_flatMap_of_mem h hx

/-- A tree with a node of the forest comes first in some order. -/
theorem exists_perm (h : r ∈ F.refs) : ∃ p G, F.Perm (p :: G) ∧ r ∈ p.refs := by
  obtain ⟨p, hp, hr⟩ := List.mem_flatMap.mp h
  obtain ⟨before, after, rfl⟩ := List.append_of_mem hp
  exact ⟨p, before ++ after, List.perm_middle, hr⟩

end Forest

namespace Planted

variable {κ : Type} {s t : Store κ} {parent : Option Ref} {p q : Planted κ} {r x y o : Ref} {slot : Slot}

/-- A node of a tree is its root, or in a slot of the node it refers back to. -/
theorem In.parent?_cases (h : p.In s parent) (hx : x ∈ p.refs) :
    p.ref? = some x ∧ s.parent? x = parent ∨
      ∃ y ∈ p.refs, s.parent? x = some y ∧ ∃ slot, s.slot? y slot = some x := by
  by_cases hr : p.ref? = some x
  · exact .inl ⟨hr, h.parent?_eq hr⟩
  · obtain ⟨y, hy, slot, hs⟩ := Store.exists_slot?_of_mem_refs h hx hr
    exact .inr ⟨y, hy, h.parent?_of_slot? hy hs, slot, hs⟩

/-! ## Grafting -/

/-- The slot `slot` of the node `o` of the tree `p` holds the tree `old`, and any tree that comes to hang
there instead makes another tree of the whole. -/
structure Grafts (s : Store κ) (o : Ref) (slot : Slot) (parent : Option Ref) (p old : Planted κ) : Prop where
  ref : old.ref? = s.slot? o slot
  isIn : old.In s (some o)
  notMem : o ∉ old.refs
  sublist : old.refs.Sublist p.refs
  spelled : p.tree.isSpelled = true → old.tree.isSpelled = true
  make : ∀ (new : Planted κ) (t : Store κ), new.In t (some o) →
    (t.node? o = (s.node? o).map fun n => { n with cell := n.cell.setSlot slot new.ref? }) →
    (∀ x ∈ p.refs, x ≠ o → x ∉ old.refs → t.node? x = s.node? x) →
    ∃ whole : Planted κ, whole.In t parent ∧ whole.ref? = p.ref? ∧
      (whole.refs ++ old.refs).Perm (p.refs ++ new.refs) ∧
      (p.tree.isSpelled = true → new.tree.isSpelled = true → whole.tree.isSpelled = true)

/-- A slot in an operand is one of the whole. -/
theorem Grafts.below {old : Planted κ} (F : Frame κ) (h : Grafts s o slot (some F.owner) p old) (ho : o ∈ p.refs)
    (hp : (F.fill p).In s parent) (hnd : (F.fill p).refs.Nodup) : Grafts s o slot parent (F.fill p) old := by
  obtain ⟨hn, -, hoi⟩ := F.in_fill.mp hp
  have hout := (List.nodup_append.mp ((F.perm_refs_fill p).nodup_iff.mp hnd)).2.2
  refine ⟨h.ref, h.isIn, h.notMem, h.sublist.trans (F.sublist_refs_fill p),
    fun hs => h.spelled (F.isSpelled_fill.mp hs).1, fun new t hnew hto hrest => ?_⟩
  -- the operation itself and its other operand stay as they are
  have hstay : ∀ x ∈ F.other.refs ++ [F.owner], t.node? x = s.node? x := fun x hx =>
    hrest x ((F.perm_refs_fill p).mem_iff.mpr (List.mem_append_right _ hx)) (hout o ho x hx).symm fun hm =>
      hout x (h.sublist.subset hm) x hx rfl
  obtain ⟨p', hp', hr', hperm, hsp⟩ :=
    h.make new t hnew hto fun y hy => hrest y ((F.sublist_refs_fill p).subset hy)
  have hwhole : (F.fill p').In t parent := by
    refine F.in_fill.mpr ⟨?_, hp', hoi.congr fun y hy => hstay y (List.mem_append_left _ hy)⟩
    rw [hstay _ (List.mem_append_right _ (List.mem_singleton_self _)), hn, hr']
  refine ⟨F.fill p', hwhole, by rw [F.ref?_fill, F.ref?_fill], ?_, fun hs hsn => ?_⟩
  · refine List.perm_iff_count.mpr fun z => ?_
    have hcount := hperm.count_eq z
    have hnew := (F.perm_refs_fill p').count_eq z
    have hold := (F.perm_refs_fill p).count_eq z
    simp only [List.count_append] at hcount hnew hold ⊢
    omega
  · obtain ⟨hs, hso⟩ := F.isSpelled_fill.mp hs
    exact F.isSpelled_fill.mpr ⟨hsp hs hsn, hso⟩

theorem grafts_fill (F : Frame κ) (hp : (F.fill p).In s parent) (hnd : (F.fill p).refs.Nodup) :
    Grafts s F.owner F.slot parent (F.fill p) p := by
  obtain ⟨hn, hpi, hoi⟩ := F.in_fill.mp hp
  have hnd := (F.perm_refs_fill p).nodup_iff.mp hnd
  simp only [List.nodup_append, List.mem_append, List.mem_singleton] at hnd
  obtain ⟨-, ⟨-, -, hro⟩, hout⟩ := hnd
  refine ⟨(F.slot?_eq hp).symm, hpi, fun hm => hout _ hm _ (.inr rfl) rfl, F.sublist_refs_fill p,
    fun hs => (F.isSpelled_fill.mp hs).1, fun new t hnew hto hrest => ?_⟩
  have hwhole : (F.fill new).In t parent := by
    refine F.in_fill.mpr ⟨?_, hnew, hoi.congr fun y hy => ?_⟩
    · rw [hto, hn, Option.map_some, F.setSlot_cell]
    · exact hrest y ((F.perm_refs_fill p).mem_iff.mpr (List.mem_append_right _ (List.mem_append_left _ hy)))
        (hro y hy _ rfl) fun hm => hout y hm y (.inl hy) rfl
  refine ⟨F.fill new, hwhole, by rw [F.ref?_fill, F.ref?_fill], ?_, fun hs hsn => ?_⟩
  · refine List.perm_iff_count.mpr fun z => ?_
    have hnew := (F.perm_refs_fill new).count_eq z
    have hold := (F.perm_refs_fill p).count_eq z
    simp only [List.count_append] at hnew hold ⊢
    omega
  · exact F.isSpelled_fill.mpr ⟨hsn, (F.isSpelled_fill.mp hs).2⟩

/-- **Every slot of a tree** that is there can get another tree. -/
theorem In.exists_grafts (h : p.In s parent) (hnd : p.refs.Nodup) (ho : o ∈ p.refs)
    (hs : s.HasSlot o slot) : ∃ old, Grafts s o slot parent p old := by
  have hroot : ∀ {c above}, s.node? o = some ⟨c, above⟩ → c.hasSlot slot = true := by
    intro c above hn
    obtain ⟨n, hn', hslot⟩ := hs
    obtain rfl := Option.some.inj (hn'.symm.trans hn)
    exact hslot
  induction p generalizing parent with
  | absent => cases ho
  | literal x v =>
    obtain rfl := List.mem_singleton.mp ho
    cases slot <;> cases hroot h
  | var x m =>
    obtain rfl := List.mem_singleton.mp ho
    cases slot <;> cases hroot h
  | binary x op p q ihp ihq =>
    have hnd' := hnd
    simp only [refs, List.nodup_append] at hnd'
    simp only [refs, List.mem_append, List.mem_singleton] at ho
    rcases ho with (ho | ho) | rfl
    · obtain ⟨old, hold⟩ := ihp h.2.1 hnd'.1.1 ho
      exact ⟨old, hold.below (.left x op q) ho h hnd⟩
    · obtain ⟨old, hold⟩ := ihq h.2.2 hnd'.1.2.1 ho
      exact ⟨old, hold.below (.right x op p) ho h hnd⟩
    · cases slot with
      | left => exact ⟨p, grafts_fill (.left _ op q) h hnd⟩
      | right => exact ⟨q, grafts_fill (.right _ op p) h hnd⟩
      | operand => cases hroot h.1
  | unary x op p ih =>
    have hnd' := hnd
    simp only [refs, List.nodup_append] at hnd'
    simp only [refs, List.mem_append, List.mem_singleton] at ho
    rcases ho with ho | rfl
    · obtain ⟨old, hold⟩ := ih h.2 hnd'.1 ho
      exact ⟨old, hold.below (.operand x op) ho h hnd⟩
    · cases slot with
      | operand => exact ⟨p, grafts_fill (.operand _ op) h hnd⟩
      | left => cases hroot h.1
      | right => cases hroot h.1

end Planted

/-! ## Bearing a forest -/

namespace Store

variable {κ : Type} {s t u : Store κ} {F G : Forest κ} {p q : Planted κ} {owner r x y c : Ref} {slot slot' : Slot}
  {child : Option Ref}

/-- The trees of the forest stand in the store without parents, no two share a node, and all names are
letters. -/
structure Bears (s : Store κ) (F : Forest κ) : Prop where
  trees : ∀ p ∈ F, p.In s none
  spelled : ∀ p ∈ F, p.tree.isSpelled = true
  apart : s.Apart F.refs

theorem Bears.perm (h : s.Bears F) (hp : G.Perm F) : s.Bears G :=
  ⟨fun p hm => h.trees p (hp.mem_iff.mp hm), fun p hm => h.spelled p (hp.mem_iff.mp hm),
    h.apart.perm (Forest.perm_refs hp)⟩

/-- What leaves the nodes of the forest alone leaves the forest alone. -/
theorem Bears.congr (h : s.Bears F) (hn : ∀ x ∈ F.refs, t.node? x = s.node? x) (ha : t.Apart F.refs) :
    t.Bears F :=
  ⟨fun p hp => (h.trees p hp).congr fun x hx => hn x (Forest.subset_refs hp hx), h.spelled, ha⟩

theorem Bears.cons_absent (h : s.Bears F) : s.Bears (.absent :: F) := by
  refine ⟨fun p hp => ?_, fun p hp => ?_, h.apart⟩
  · rcases List.mem_cons.mp hp with rfl | hp
    · trivial
    · exact h.trees p hp
  · rcases List.mem_cons.mp hp with rfl | hp
    · rfl
    · exact h.spelled p hp

/-- At every node of the forest stands a tree. -/
theorem Bears.exists_stands (h : s.Bears F) (hr : r ∈ F.refs) :
    ∃ q : Planted κ, q.ref? = some r ∧ q.Stands s F.refs (s.parent? r) ∧ q.tree.isSpelled = true := by
  obtain ⟨p, hp, hrp⟩ := List.mem_flatMap.mp hr
  obtain ⟨q, above, hq, hin, hsub, hsp⟩ := (h.trees p hp).at hrp
  have hnd : p.refs.Nodup := (List.nodup_flatMap.mp h.apart.nodup_used).1 p hp
  refine ⟨q, hq, ⟨?_, fun x hx => Forest.subset_refs hp (hsub.subset hx), hnd.sublist hsub⟩,
    hsp (h.spelled p hp)⟩
  rw [hin.parent?_eq hq]
  exact hin

/-- A node without a parent is the root of a tree of the forest. -/
theorem Bears.exists_root (h : s.Bears F) (hr : r ∈ F.refs) (hp : s.parent? r = none) :
    ∃ p G, F.Perm (p :: G) ∧ p.ref? = some r := by
  obtain ⟨p, G, hperm, hrp⟩ := Forest.exists_perm hr
  have hin := h.trees p (hperm.mem_iff.mpr List.mem_cons_self)
  obtain ⟨hroot, -⟩ | ⟨y, -, hy, -⟩ := hin.parent?_cases hrp
  · exact ⟨p, G, hperm, hroot⟩
  · rw [hp] at hy
    cases hy

theorem Bears.mem_of_slot? (h : s.Bears F) (hr : r ∈ F.refs) (hs : s.slot? r slot = some x) :
    x ∈ F.refs ∧ s.parent? x = some r := by
  obtain ⟨p, hp, hrp⟩ := List.mem_flatMap.mp hr
  exact ⟨Forest.subset_refs hp ((h.trees p hp).mem_refs_of_slot? hrp hs),
    (h.trees p hp).parent?_of_slot? hrp hs⟩

theorem Bears.mem_of_parent? (h : s.Bears F) (hr : r ∈ F.refs) (hp : s.parent? r = some x) :
    x ∈ F.refs ∧ ∃ slot, s.slot? x slot = some r := by
  obtain ⟨p, hm, hrp⟩ := List.mem_flatMap.mp hr
  obtain ⟨-, hnone⟩ | ⟨y, hy, hpar, slot, hs⟩ := (h.trees p hm).parent?_cases hrp
  · rw [hp] at hnone
    cases hnone
  · obtain rfl := Option.some.inj (hp.symm.trans hpar)
    exact ⟨Forest.subset_refs hm hy, slot, hs⟩

theorem Bears.ne_of_slot? (h : s.Bears F) (hr : r ∈ F.refs) (hs : s.slot? r slot = some x) : x ≠ r := by
  rintro rfl
  obtain ⟨q, hq, hstands, -⟩ := h.exists_stands hr
  rw [hstands.isIn.slot?_eq hq] at hs
  exact Planted.notMem_refs_child hstands.nodup hq slot (Planted.mem_refs_of_ref? hs)

/-- No node is in two slots of another. -/
theorem Bears.once (h : s.Bears F) (hr : r ∈ F.refs) (hs : s.slot? r slot = some x)
    (hs' : s.slot? r slot' = some x) : slot' = slot := by
  obtain ⟨q, hq, hstands, -⟩ := h.exists_stands hr
  rw [hstands.isIn.slot?_eq hq] at hs hs'
  exact Planted.slot_eq_of_mem_refs_child hstands.nodup (Planted.mem_refs_of_ref? hs')
    (Planted.mem_refs_of_ref? hs)

/-! ## Changing links -/

/-- A slot holds another node, or none, and the references back of what was in it and of what is in it
are set right. Nothing else changed. -/
structure Regrafted (owner : Ref) (slot : Slot) (child : Option Ref) (s t : Store κ) : Prop where
  node : ∀ x, t.node? x =
    if x = owner then (s.node? owner).map fun n => { n with cell := n.cell.setSlot slot child }
    else if child = some x then (s.node? x).map fun n => { n with parent := some owner }
    else if s.slot? owner slot = some x then (s.node? x).map fun n => { n with parent := none }
    else s.node? x
  size : t.nodes.size = s.nodes.size
  pool : t.pool = s.pool
  roots : t.roots = s.roots

theorem Regrafted.apart {used : List Ref} (h : Regrafted owner slot child s t) (ha : s.Apart used) :
    t.Apart used :=
  ⟨h.pool ▸ ha.nodup, h.pool ▸ h.size ▸ ha.bound⟩

/-- The nodes below a node of a forest are those of the tree that stands there. -/
theorem Bears.postOrder_eq {above : Option Ref} (h : s.Bears F) (hp : p.In s above)
    (hsub : p.refs ⊆ F.refs) (hnd : p.refs.Nodup) (hr : p.ref? = some r) : s.postOrder r = p.refs :=
  Planted.Stands.postOrder_eq ⟨hp, hsub, hnd⟩ h.apart hr

/-- The nodes below a node of the forest are in the forest. -/
theorem Bears.subset_postOrder (h : s.Bears F) (hr : r ∈ F.refs) : s.postOrder r ⊆ F.refs := by
  obtain ⟨q, hq, hstands, -⟩ := h.exists_stands hr
  rw [h.postOrder_eq hstands.isIn hstands.subset hstands.nodup hq]
  exact hstands.subset

theorem Bears.mem_postOrder_self (h : s.Bears F) (hr : r ∈ F.refs) : r ∈ s.postOrder r := by
  obtain ⟨q, hq, hstands, -⟩ := h.exists_stands hr
  rw [h.postOrder_eq hstands.isIn hstands.subset hstands.nodup hq]
  exact Planted.mem_refs_of_ref? hq

/-- Below two nodes without parents there is no common node. -/
theorem Bears.disjoint_postOrder (h : s.Bears F) (hr : r ∈ F.refs) (hp : s.parent? r = none)
    (hx : x ∈ F.refs) (hp' : s.parent? x = none) (hne : r ≠ x) : (s.postOrder r).Disjoint (s.postOrder x) := by
  obtain ⟨p, G, hperm, hroot⟩ := h.exists_root hr hp
  obtain ⟨q, H, hperm', hroot'⟩ := h.exists_root hx hp'
  have hmem : p ∈ F := hperm.mem_iff.mpr List.mem_cons_self
  have hmem' : q ∈ F := hperm'.mem_iff.mpr List.mem_cons_self
  obtain ⟨hnd, hpairs⟩ := List.nodup_flatMap.mp h.apart.nodup_used
  rw [h.postOrder_eq (h.trees p hmem) (Forest.subset_refs hmem) (hnd p hmem) hroot,
    h.postOrder_eq (h.trees q hmem') (Forest.subset_refs hmem') (hnd q hmem') hroot']
  have hsymm : Std.Symm (Function.onFun List.Disjoint (Planted.refs (κ := κ))) := ⟨fun _ _ => List.disjoint_symm⟩
  refine hpairs.forall hmem hmem' ?_
  rintro rfl
  exact hne (Option.some.inj (hroot.symm.trans hroot'))

/-- A tree of the forest moves into a slot of another one. What was in the slot is the same tree as
before, by itself. -/
theorem Bears.regraft {new : Planted κ} (h : s.Bears (p :: new :: G)) (ho : owner ∈ p.refs)
    (hs : s.HasSlot owner slot) (hr : Regrafted owner slot new.ref? s t) :
    ∃ whole old : Planted κ, t.Bears (whole :: old :: G) ∧
      (Forest.refs (whole :: old :: G)).Perm (Forest.refs (p :: new :: G)) ∧
      ∀ o, s.slot? owner slot = some o → t.postOrder o = s.postOrder o := by
  have hp := h.trees p List.mem_cons_self
  have hnew := h.trees new (List.mem_cons_of_mem _ List.mem_cons_self)
  have hnd := h.apart.nodup_used
  simp only [Forest.refs_cons, List.nodup_append, List.mem_append] at hnd
  obtain ⟨hndp, ⟨hndn, -, hnG⟩, hpout⟩ := hnd
  have hon : owner ∉ new.refs := fun hm => hpout owner ho owner (.inl hm) rfl
  obtain ⟨old, hold⟩ := hp.exists_grafts hndp ho hs
  have holdp := hold.sublist.subset
  -- what is neither the owner nor the root of a tree that moves stays as it is
  have hrest : ∀ {x}, x ≠ owner → new.ref? ≠ some x → old.ref? ≠ some x → t.node? x = s.node? x := by
    intro x hxo hxn hxold
    rw [hr.node, if_neg hxo, if_neg hxn, if_neg (hold.ref ▸ hxold)]
  have hnewt : new.In t (some owner) := by
    refine hnew.reparent hndn (fun x hx => ?_) fun x hx hxn => ?_
    · have hxo : x ≠ owner := fun e => hon (e ▸ Planted.mem_refs_of_ref? hx)
      rw [hr.node, if_neg hxo, if_pos hx]
    · refine hrest (fun e => hon (e ▸ hx)) hxn fun hxold => ?_
      exact hpout x (holdp (Planted.mem_refs_of_ref? hxold)) x (.inl hx) rfl
  have holdt : old.In t none := by
    refine hold.isIn.reparent (hndp.sublist hold.sublist) (fun x hx => ?_) fun x hx hxold => ?_
    · have hxo : x ≠ owner := fun e => hold.notMem (e ▸ Planted.mem_refs_of_ref? hx)
      have hxn : new.ref? ≠ some x := fun hm =>
        hpout x (holdp (Planted.mem_refs_of_ref? hx)) x (.inl (Planted.mem_refs_of_ref? hm)) rfl
      rw [hr.node, if_neg hxo, if_neg hxn, if_pos (hold.ref ▸ hx)]
    · refine hrest (fun e => hold.notMem (e ▸ hx)) (fun hm => ?_) hxold
      exact hpout x (holdp hx) x (.inl (Planted.mem_refs_of_ref? hm)) rfl
  obtain ⟨whole, hwhole, -, hperm, hsp⟩ := hold.make new t hnewt ((hr.node owner).trans (if_pos rfl))
    fun x hx hxo hxold => hrest hxo (fun hm => hpout x hx x (.inl (Planted.mem_refs_of_ref? hm)) rfl)
      fun hm => hxold (Planted.mem_refs_of_ref? hm)
  have hall : (Forest.refs (whole :: old :: G)).Perm (Forest.refs (p :: new :: G)) := by
    refine List.perm_iff_count.mpr fun z => ?_
    have := hperm.count_eq z
    simp only [Forest.refs_cons, List.count_append] at this ⊢
    omega
  have hspp := h.spelled p List.mem_cons_self
  have ht : t.Bears (whole :: old :: G) := by
    refine ⟨fun q hq => ?_, fun q hq => ?_, hr.apart (h.apart.perm hall)⟩
    · rcases List.mem_cons.mp hq with rfl | hq
      · exact hwhole
      rcases List.mem_cons.mp hq with rfl | hq
      · exact holdt
      refine (h.trees q (List.mem_cons_of_mem _ (List.mem_cons_of_mem _ hq))).congr fun x hx => ?_
      have hxG := Forest.subset_refs hq hx
      refine hrest (fun e => ?_) (fun hm => ?_) fun hm => ?_
      · exact hpout owner ho owner (.inr (e ▸ hxG)) rfl
      · exact hnG x (Planted.mem_refs_of_ref? hm) x hxG rfl
      · exact hpout x (holdp (Planted.mem_refs_of_ref? hm)) x (.inr hxG) rfl
    · rcases List.mem_cons.mp hq with rfl | hq
      · exact hsp hspp (h.spelled new (List.mem_cons_of_mem _ List.mem_cons_self))
      rcases List.mem_cons.mp hq with rfl | hq
      · exact hold.spelled hspp
      exact h.spelled q (List.mem_cons_of_mem _ (List.mem_cons_of_mem _ hq))
  refine ⟨whole, old, ht, hall, fun o ho => ?_⟩
  have hndo := hndp.sublist hold.sublist
  rw [h.postOrder_eq hold.isIn (fun x hx => List.mem_append_left _ (holdp hx)) hndo (hold.ref.trans ho),
    ht.postOrder_eq holdt (fun x hx => List.mem_append_right _ (List.mem_append_left _ hx)) hndo
      (hold.ref.trans ho)]

/-- Putting `c` into a slot of `owner` would close a cycle: `owner` is below `c`, which nothing keeps from
being moved. -/
def ClosesCycle (s : Store κ) (owner c : Ref) : Prop :=
  c ≠ owner ∧ s.parent? c = none ∧ owner ∈ s.postOrder c

instance (s : Store κ) (owner c : Ref) : Decidable (s.ClosesCycle owner c) :=
  inferInstanceAs (Decidable (_ ∧ _ ∧ _))

/-- A node without a parent may get any child. -/
theorem Bears.not_closesCycle (h : s.Bears F) (ho : s.parent? owner = none) (hc : c ∈ F.refs) :
    ¬s.ClosesCycle owner c := by
  rintro ⟨hne, hroot, hbelow⟩
  obtain ⟨q, G, hperm, hq⟩ := h.exists_root hc hroot
  have hin := h.trees q (hperm.mem_iff.mpr List.mem_cons_self)
  have hsub := Forest.subset_refs (hperm.mem_iff.mpr List.mem_cons_self)
  have hnd := (List.nodup_flatMap.mp h.apart.nodup_used).1 q (hperm.mem_iff.mpr List.mem_cons_self)
  rw [h.postOrder_eq hin hsub hnd hq] at hbelow
  obtain ⟨hr, -⟩ | ⟨y, -, hy, -⟩ := hin.parent?_cases hbelow
  · exact hne (Option.some.inj (hq.symm.trans hr))
  · rw [ho] at hy
    cases hy

/-- A slot may hold a node that it holds already, or one without a parent. -/
def MayHold (s : Store κ) (owner : Ref) (slot : Slot) (c : Ref) : Prop :=
  s.slot? owner slot = some c ∨ s.parent? c = none ∧ c ≠ owner

/-- **A change of links** takes a forest to one of the same nodes. Below what was in the slot nothing
changes. -/
theorem Bears.regrafted (h : s.Bears F) (ho : owner ∈ F.refs) (hs : s.HasSlot owner slot)
    (hr : Regrafted owner slot child s t)
    (hc : ∀ c, child = some c → c ∈ F.refs ∧ s.MayHold owner slot c ∧ ¬s.ClosesCycle owner c) :
    (∃ G, t.Bears G ∧ G.refs.Perm F.refs) ∧
      ∀ o, s.slot? owner slot = some o → t.postOrder o = s.postOrder o := by
  obtain ⟨p, G, hperm, hop⟩ := Forest.exists_perm ho
  cases child with
  | none =>
    have hF := (h.perm hperm.symm).cons_absent.perm (.swap _ _ _)
    obtain ⟨whole, old, hb, hrefs, hbelow⟩ := hF.regraft hop hs hr
    exact ⟨⟨_, hb, hrefs.trans (Forest.perm_refs hperm).symm⟩, hbelow⟩
  | some c =>
    obtain ⟨hcF, hmay, hcycle⟩ := hc c rfl
    rcases hmay with hheld | ⟨hroot, hne⟩
    · -- the slot holds it already
      obtain ⟨hcF, hpar⟩ := h.mem_of_slot? ho hheld
      have hco := h.ne_of_slot? ho hheld
      have hsame : ∀ x ∈ F.refs, t.node? x = s.node? x := ?same
      have ht := h.congr hsame (hr.apart h.apart)
      refine ⟨⟨F, ht, .refl _⟩, fun o ho' => ?_⟩
      · obtain ⟨q, hq, hstands, -⟩ := h.exists_stands (h.mem_of_slot? ho ho').1
        rw [h.postOrder_eq hstands.isIn hstands.subset hstands.nodup hq,
          ht.postOrder_eq (hstands.isIn.congr fun x hx => hsame x (hstands.subset hx)) hstands.subset
            hstands.nodup hq]
      case same =>
      intro x hx
      rw [hr.node]
      split
      · rename_i hxo
        subst hxo
        obtain ⟨n, hn, hslot⟩ := Option.bind_eq_some_iff.mp hheld
        rw [hn, ← hslot]
        simp [Cell.setSlot_slot?]
      · split
        · rename_i hxc
          obtain rfl := Option.some.inj hxc
          obtain ⟨n, hn, hpn⟩ := Option.bind_eq_some_iff.mp hpar
          rw [hn, ← hpn]
          rfl
        · rename_i hxc
          rw [if_neg fun hm => hxc (hheld.symm.trans hm)]
    · -- it is the root of another tree
      obtain ⟨q, G', hperm', hq⟩ := h.exists_root hcF hroot
      have hFq := h.perm hperm'.symm
      have hstands : q.Stands s (Forest.refs (q :: G')) none :=
        ⟨hFq.trees q List.mem_cons_self, List.subset_append_left _ _,
          hFq.apart.of_append_left.nodup_used⟩
      have hoq : owner ∉ q.refs := fun hm => hcycle
        ⟨hne, hroot, by rwa [hstands.postOrder_eq hFq.apart hq]⟩
      have hoG : owner ∈ Forest.refs G' := by
        have hm := (Forest.perm_refs hperm').mem_iff.mp ho
        exact (List.mem_append.mp hm).resolve_left hoq
      obtain ⟨p', G'', hperm'', hop'⟩ := Forest.exists_perm hoG
      have hall : F.Perm (p' :: q :: G'') := hperm'.trans ((hperm''.cons q).trans (.swap _ _ _))
      obtain ⟨whole, old, hb, hrefs, hbelow⟩ := (h.perm hall.symm).regraft hop' hs (hq ▸ hr)
      exact ⟨⟨_, hb, hrefs.trans (Forest.perm_refs hall).symm⟩, hbelow⟩

/-- Assigning a slot either leaves the store alone and is refused, or changes the links. Nothing is
assigned only to a slot that is empty. -/
theorem setSlot_regrafted (hown : ∀ o, s.slot? owner slot = some o → s.parent? o = some owner ∧ o ≠ owner)
    (he : child = none → s.slot? owner slot = none) :
    (setSlot owner slot child).Ensures s
      (fun _ t => Regrafted owner slot child s t ∧ ∀ c, child = some c → s.MayHold owner slot c)
      fun _ t => t = s := by
  have hrun := slotRun_setSlot s owner slot child
  unfold Ensures
  generalize (setSlot owner slot child).perform s = result at hrun
  cases hrun with
  | emptied =>
    have hrel := relinks_writeSlot s owner slot none
    refine ⟨⟨fun x => ?_, hrel.size, hrel.pool, hrel.roots⟩, nofun⟩
    rw [node?_writeSlot]
    simp [he rfl]
  | @again c hheld =>
    have hrel := relinks_writeSlot s owner slot (some c)
    refine ⟨⟨fun x => ?_, hrel.size, hrel.pool, hrel.roots⟩, fun _ hc => .inl (hheld.trans hc)⟩
    rw [node?_writeSlot]
    by_cases hxo : x = owner
    · rw [if_pos hxo, if_pos hxo]
    rw [if_neg hxo, if_neg hxo]
    by_cases hxc : some c = some x
    · obtain rfl := Option.some.inj hxc
      obtain ⟨n, hn, hpn⟩ := Option.bind_eq_some_iff.mp (hown c hheld).1
      rw [if_pos rfl, hn, ← hpn]
      rfl
    · rw [if_neg hxc, hheld, if_neg hxc]
  | refused => rfl
  | @filled c hp hco ho =>
    have hrel := (relinks_writeParent s c (some owner)).mono (List.subset_cons_self owner [c])
    have hrel' := hrel.trans ((relinks_writeSlot _ owner slot (some c)).mono (by simp))
    refine ⟨⟨fun x => ?_, hrel'.size, hrel'.pool, hrel'.roots⟩, ?_⟩
    · rw [node?_writeSlot, node?_writeParent, node?_writeParent, if_neg (Ne.symm hco), ho]
      by_cases hxc : x = c
      · simp [hxc, hco]
      · simp [hxc, Ne.symm hxc]
    · rintro _ ⟨⟩
      exact .inr ⟨hp, hco⟩
  | @exchanged c o hp hco ho hco' =>
    have hoo := (hown o ho).2
    have hrel : Relinks [owner, c, o] s (s.writeParent o none) :=
      (relinks_writeParent s o none).mono (by simp)
    have hrel₁ := hrel.trans ((relinks_writeParent _ c (some owner)).mono (by simp))
    have hrel₂ := hrel₁.trans ((relinks_writeSlot _ owner slot (some c)).mono (by simp))
    refine ⟨⟨fun x => ?_, hrel₂.size, hrel₂.pool, hrel₂.roots⟩, ?_⟩
    · simp only [node?_writeSlot, node?_writeParent, if_neg (Ne.symm hco), if_neg (Ne.symm hoo),
        if_neg hco', ho, Option.some.injEq]
      by_cases hxc : x = c
      · simp [hxc, hco]
      · by_cases hxo : x = o
        · simp [hxo, hoo, Ne.symm hco', hco']
        · simp [hxc, hxo, Ne.symm hxc, Ne.symm hxo]
    · rintro _ ⟨⟩
      exact .inr ⟨hp, hco⟩

/-- A slot that was emptied gets another node. -/
theorem Regrafted.again (h : Regrafted owner slot none s t) (h' : Regrafted owner slot child t u)
    (he : t.slot? owner slot = none) : Regrafted owner slot child s u := by
  refine ⟨fun x => ?_, h'.size.trans h.size, h'.pool.trans h.pool, h'.roots.trans h.roots⟩
  rw [h'.node, he]
  by_cases hxo : x = owner
  · rw [if_pos hxo, if_pos hxo, h.node, if_pos rfl, Option.map_map]
    congr 1
    funext n
    simp
  · rw [if_neg hxo, if_neg hxo, h.node, if_neg hxo]
    by_cases hxc : child = some x
    · rw [if_pos hxc, if_pos hxc]
      split
      · contradiction
      · split
        · rw [Option.map_map]
          rfl
        · rfl
    · simp [hxc]

/-- Replacing a child either leaves the store alone and is refused, or empties the slot of the old child
and is refused the new one, or changes the links. -/
theorem Bears.replaceChild_regrafted (h : s.Bears F) (ho : owner ∈ F.refs) (old new : Option Ref) :
    (replaceChild owner old new).Ensures s
      (fun _ t => ∃ slot o, old = some o ∧ s.slot? owner slot = some o ∧ Regrafted owner slot new s t ∧
        ∀ c, new = some c → s.MayHold owner slot c)
      fun _ t => t = s ∨
        ∃ slot o, old = some o ∧ s.slot? owner slot = some o ∧ Regrafted owner slot none s t := by
  by_cases hfound : ∃ slot o, old = some o ∧ s.slot? owner slot = some o
  · obtain ⟨slot, o, rfl, hso⟩ := hfound
    obtain ⟨⟨c, parent⟩, hn, hc⟩ := Option.bind_eq_some_iff.mp hso
    have hone : ∀ slot', c.slot? slot' = some o → slot' = slot := fun slot' hs =>
      h.once ho hso ((slot?_eq hn slot').trans hs)
    have hoo := h.ne_of_slot? ho hso
    let s₁ := (s.writeSlot owner slot none).writeParent o none
    have hrel : Relinks [owner, o] s s₁ := ((relinks_writeSlot s owner slot none).mono (by simp)).trans
      ((relinks_writeParent _ o none).mono (by simp))
    have hcut : Regrafted owner slot none s s₁ := by
      refine ⟨fun x => ?_, hrel.size, hrel.pool, hrel.roots⟩
      rw [node?_writeParent, node?_writeSlot, node?_writeSlot, if_neg hoo, hso]
      by_cases hxo : x = o
      · simp [hxo, hoo]
      · simp [hxo, Ne.symm hxo]
    have hempty : s₁.slot? owner slot = none := by
      rw [slot?, hcut.node, if_pos rfl, hn]
      exact Cell.slot?_setSlot_none slot c
    have hpar : ∀ x, s₁.parent? x = none → s.parent? x = none ∨ x = o := by
      intro x hx
      by_cases hxo : x = o
      · exact .inr hxo
      · left
        rw [← hx]
        have hrest : s₁.parent? x = (s.writeSlot owner slot none).parent? x := by
          rw [parent?, parent?, node?_writeParent, if_neg hxo]
        rw [hrest, parent?_writeSlot]
    have hset : (setSlot owner slot new).Ensures s₁ _ _ :=
      setSlot_regrafted (fun x hx => by rw [hempty] at hx; cases hx) fun _ => hempty
    unfold Ensures at hset ⊢
    rw [perform_replaceChild hn hc hone, perform_exchange]
    refine Ensures.mono hset ?_ ?_
    · rintro - t ⟨hreg, hmay⟩
      refine ⟨slot, o, rfl, hso, hcut.again hreg hempty, fun c hc => ?_⟩
      rcases hmay c hc with hheld | ⟨hp, hne⟩
      · rw [hempty] at hheld
        cases hheld
      · exact (hpar c hp).elim (fun hp => .inr ⟨hp, hne⟩) fun e => .inl (e ▸ hso)
    · rintro - _ rfl
      exact .inr ⟨slot, o, rfl, hso, hcut⟩
  · have hnone : ∀ slot o, old = some o → s.slot? owner slot ≠ some o := fun slot o hold hs =>
      hfound ⟨slot, o, hold, hs⟩
    obtain ⟨f, hrun⟩ := replaceChild_refused new hnone
    exact ensures_of_error hrun (.inl rfl)

/-- **Replacing a child** keeps a forest of the same nodes. Below the child nothing changes, and if it is
replaced by nothing it is free to move. -/
theorem Bears.replaceChild (h : s.Bears F) (ho : owner ∈ F.refs) (old new : Option Ref)
    (hc : ∀ c, new = some c → c ∈ F.refs ∧ ¬s.ClosesCycle owner c) :
    (replaceChild owner old new).Ensures s
      (fun _ t => (∃ G, t.Bears G ∧ G.refs.Perm F.refs) ∧
        ∀ o, old = some o → t.postOrder o = s.postOrder o ∧ (new = none → t.parent? o = none))
      fun _ t => ∃ G, t.Bears G ∧ G.refs.Perm F.refs := by
  refine (h.replaceChild_regrafted ho old new).mono ?_ ?_
  · rintro - t ⟨slot, o, rfl, hso, hreg, hmay⟩
    obtain ⟨hG, hbelow⟩ := h.regrafted ho (hasSlot_of_slot? hso) hreg fun c hcc =>
      ⟨(hc c hcc).1, hmay c hcc, (hc c hcc).2⟩
    refine ⟨hG, ?_⟩
    rintro _ ⟨⟩
    refine ⟨hbelow o hso, ?_⟩
    rintro rfl
    rw [parent?, hreg.node, if_neg (h.ne_of_slot? ho hso), if_neg (by simp), if_pos hso]
    cases s.node? o <;> rfl
  · rintro - t (rfl | ⟨slot, o, rfl, hso, hreg⟩)
    · exact ⟨F, h, .refl _⟩
    · exact (h.regrafted ho (hasSlot_of_slot? hso) hreg (by simp)).1

end Store

end Fluxion
