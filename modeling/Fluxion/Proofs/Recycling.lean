import Fluxion.Proofs.Linked
import Mathlib.Data.List.Induction

/-!
# Links and the pool

A node that is handed out has no links, so it changes none of the others. Below a node without a
parent hangs a tree, since every node in a slot has one parent and is in one slot; giving the tree
back bares its nodes and no others. So both keep the links in agreement.

* `Store.obtain_obtained` and `Linked.obtained` hand out a node.
* `Linked.exists_planted` finds the tree below a node.
* `Linked.releaseTo_released` and `Linked.released` give it back.
-/

namespace Fluxion

open Act

namespace Store

variable {κ : Type} {s t u : Store κ} {strays : List (Ref × Ref)} {r x n p : Ref} {slot : Slot}

/-! ## Handing out nodes -/

/-- A node was handed out that was not in use. -/
structure Obtained (r : Ref) (c : Cell κ) (s t : Store κ) : Prop where
  node : t.node? r = some ⟨c, none⟩
  others : ∀ x, x ≠ r → t.node? x = s.node? x
  fresh : ¬s.InUse r
  inUse : ∀ x, t.InUse x ↔ x = r ∨ s.InUse x
  apart : t.Apart []
  roots : t.roots = s.roots

theorem obtained_extend (h : s.Apart []) (c : Cell κ) :
    Obtained s.nodes.size c s (s.extend c).2 := by
  have hsize : (s.extend c).2.nodes.size = s.nodes.size + 1 := Array.size_push _
  have hbound : ∀ x ∈ s.pool.spare, x < s.nodes.size := h.bound
  refine ⟨by simp [extend, node?], fun x hx => ?_, fun hin => Nat.lt_irrefl _ hin.1, fun x => ?_,
    ⟨h.nodup, fun x hx => ?_⟩, rfl⟩
  · simp [extend, node?, Array.getElem?_push, hx]
  · have hpool : (s.extend c).2.pool = s.pool := rfl
    simp only [InUse, hsize, hpool]
    grind
  · rw [hsize]
    exact Nat.lt_succ_of_lt (hbound x hx)

theorem obtained_take (h : s.Apart []) (c : Cell κ) :
    Obtained (s.take c).1 c s (s.take c).2 := by
  unfold take
  simp only [Pool.free_charge]
  cases hf : s.pool.free c.kind with
  | nil =>
    have hcharged : ({ s with pool := s.pool.charge c.kind } : Store κ).Apart [] :=
      ⟨h.nodup, h.bound⟩
    obtain ⟨hn, hothers, hfresh, hin, ha, hroots⟩ := obtained_extend hcharged c
    exact ⟨hn, hothers, hfresh, hin, ha, hroots⟩
  | cons r rs =>
    have hperm := s.pool.spare_perm c.kind r hf
    have hnd := hperm.nodup_iff.mp h.nodup
    have hr : r < s.nodes.size := h.bound r (hperm.mem_iff.mpr List.mem_cons_self)
    have hnode := fun x => node?_write ({ s with pool := (s.pool.charge c.kind).setFree c.kind rs } :
      Store κ) r x ⟨c, none⟩ hr
    refine ⟨(hnode r).trans (if_pos rfl), fun x hx => (hnode x).trans (if_neg hx),
      fun hin => hin.2 (hperm.mem_iff.mpr List.mem_cons_self), fun x => ?_, ⟨?_, fun x hx => ?_⟩, rfl⟩
    · have hmem : x ∈ s.pool.spare ↔ x = r ∨ x ∈ (s.pool.setFree c.kind rs).spare := by
        rw [hperm.mem_iff, List.mem_cons]
      simp only [InUse, write, Array.size_setIfInBounds, Pool.charge_setFree, Pool.spare_charge, hmem]
      have := (List.nodup_cons.mp hnd).1
      grind
    · simpa [write] using (List.nodup_cons.mp hnd).2
    · have hx : x ∈ (s.pool.setFree c.kind rs).spare := by simpa [write] using hx
      have := h.bound x (hperm.mem_iff.mpr (List.mem_cons_of_mem _ hx))
      simpa [write] using this

theorem obtain_obtained (h : s.Apart []) (source : Source) (c : Cell κ) :
    (obtain source c).Succeeds s fun r t => Obtained r c s t := by
  cases source with
  | pool => exact ensures_of_ok rfl (obtained_take h c)
  | outside => exact ensures_of_ok rfl (obtained_extend h c)

section Obtained

variable {c : Cell κ}

/-- A node that is not in use has no parent. -/
theorem Linked.parent?_of_not_inUse (h : s.Linked strays) (hr : ¬s.InUse r) : s.parent? r = none := by
  cases hp : s.parent? r with
  | none => rfl
  | some p => exact absurd (h.inUse_of_parent? hp) hr

/-- A node that is not in use holds nothing. -/
theorem Linked.slot?_of_not_inUse (h : s.Linked strays) (hr : ¬s.InUse r) (slot : Slot) :
    s.slot? r slot = none := by
  cases hs : s.slot? r slot with
  | none => rfl
  | some x =>
    refine absurd ⟨(hasSlot_of_slot? hs).lt_size, fun hfree => ?_⟩ hr
    rw [h.freeSlot r hfree] at hs
    cases hs

theorem Obtained.parents (ho : Obtained r c s t) (h : s.Linked strays) (x : Ref) :
    t.parent? x = s.parent? x := by
  by_cases hx : x = r
  · rw [hx, h.parent?_of_not_inUse ho.fresh, parent?, ho.node]
    rfl
  · rw [parent?, parent?, ho.others x hx]

theorem Obtained.slots (ho : Obtained r c s t) (h : s.Linked strays)
    (hc : ∀ slot, c.slot? slot = none) (x : Ref) (slot : Slot) : t.slot? x slot = s.slot? x slot := by
  by_cases hx : x = r
  · rw [hx, h.slot?_of_not_inUse ho.fresh, slot?, ho.node]
    exact hc slot
  · rw [slot?, slot?, ho.others x hx]

/-- **Handing out a node** keeps the links. -/
theorem Linked.obtained (h : s.Linked strays) (ho : Obtained r c s t)
    (hc : ∀ slot, c.slot? slot = none) : t.Linked strays := by
  have hp := ho.parents h
  have hs := ho.slots h hc
  have hfree : ∀ x ∈ t.pool.spare, ¬s.InUse x := fun x hx hin => ((ho.inUse x).mpr (.inr hin)).2 hx
  refine ⟨fun hm => ?_, fun hm hm' => ?_, fun hm => ?_, fun x hx => ?_, ho.apart, fun x hx => ?_,
    fun x hx slot => ?_⟩
  · rw [hs] at hm
    rw [hp]
    exact h.owned hm
  · rw [hs] at hm hm'
    exact h.once hm hm'
  · rw [hp] at hm
    simpa only [hs] using h.placed hm
  · simpa only [hp, hs] using h.stray x hx
  · rw [hp]
    exact h.parent?_of_not_inUse (hfree x hx)
  · rw [hs]
    exact h.slot?_of_not_inUse (hfree x hx) slot

end Obtained

/-! ## Taking trees back -/

/-- Below a node without a parent every node is reached by one way. -/
theorem Linked.way_unique (h : s.Linked strays) (hr : s.parent? r = none) {way way' : List Slot}
    (hx : s.descend (some r) way = some x) (hx' : s.descend (some r) way' = some x) : way = way' := by
  induction way using List.reverseRecOn generalizing x way' with
  | nil =>
    obtain rfl : r = x := Option.some.inj hx
    rcases List.eq_nil_or_concat way' with rfl | ⟨way', slot, rfl⟩
    · rfl
    · rw [List.concat_eq_append, descend_append] at hx'
      obtain ⟨y, -, hslot⟩ := Option.bind_eq_some_iff.mp hx'
      rw [h.owned hslot] at hr
      cases hr
  | append_singleton way slot ih =>
    rw [descend_append] at hx
    obtain ⟨y, hy, hslot⟩ := Option.bind_eq_some_iff.mp hx
    rcases List.eq_nil_or_concat way' with rfl | ⟨way', slot', rfl⟩
    · obtain rfl : r = x := Option.some.inj hx'
      rw [h.owned hslot] at hr
      cases hr
    · rw [List.concat_eq_append, descend_append] at hx'
      obtain ⟨y', hy', hslot'⟩ := Option.bind_eq_some_iff.mp hx'
      obtain ⟨rfl, rfl⟩ := h.slot_unique hslot hslot'
      rw [ih hy hy', List.concat_eq_append]

theorem Linked.inUse_of_descend (h : s.Linked strays) (hr : s.InUse r) {way : List Slot}
    (hx : s.descend (some r) way = some x) : s.InUse x := by
  rcases List.eq_nil_or_concat way with rfl | ⟨way, slot, rfl⟩
  · exact Option.some.inj hx ▸ hr
  · rw [List.concat_eq_append, descend_append] at hx
    obtain ⟨y, -, hslot⟩ := Option.bind_eq_some_iff.mp hx
    exact h.inUse_of_slot? hslot

/-- **A tree hangs below every node without a parent**, and only nodes in use are in it. -/
theorem Linked.exists_planted (h : s.Linked strays) (hr : s.InUse r) (hp : s.parent? r = none) :
    ∃ p : Planted κ, p.ref? = some r ∧ p.In s none ∧ p.refs.Nodup ∧ ∀ x ∈ p.refs, s.InUse x := by
  have honce : ∀ way way' x, s.descend (some r) way = some x → s.descend (some r) way' = some x →
      way = way' := fun _ _ _ hx hx' => h.way_unique hp hx hx'
  have hbound : ∀ way x, s.descend (some r) way = some x → x < s.nodes.size := fun _ _ hx =>
    (h.inUse_of_descend hr hx).1
  have hnode : ∀ {x parent}, x < s.nodes.size → s.parent? x = parent →
      ∃ c, s.node? x = some ⟨c, parent⟩ := by
    intro x parent hx hpx
    have hn : s.node? x = some s.nodes[x] := Array.getElem?_eq_getElem hx
    refine ⟨s.nodes[x].cell, ?_⟩
    rw [hn, ← hpx, parent?, hn]
    rfl
  have hplanted : (s.plantedTo s.nodes.size (some r)).ref? = some r ∧
      (s.plantedTo s.nodes.size (some r)).In s none := in_plantedTo
    (fun _ _ hx => length_lt_of_once honce hbound hx)
    (fun x hx => by
      cases hx
      exact hnode hr.1 hp)
    fun way x slot y _ hslot => hnode (h.inUse_of_slot? hslot).1 (h.owned hslot)
  refine ⟨_, hplanted.1, hplanted.2, nodup_plantedTo honce, fun x hx => ?_⟩
  obtain ⟨way, hway⟩ := descend_of_mem_plantedTo hx
  exact h.inUse_of_descend hr hway

theorem node?_giveBack (s : Store κ) (r x : Ref) :
    (s.giveBack r).node? x =
      if x = r then (s.node? x).map fun n => ⟨n.cell.cleared, none⟩ else s.node? x := by
  unfold giveBack
  cases hr : s.node? r with
  | none =>
    by_cases hx : x = r
    · simp [hx, hr]
    · simp [hx]
  | some n =>
    refine (node?_write s r x _ (lt_size_of_node? hr)).trans ?_
    by_cases hx : x = r
    · simp [hx, hr]
    · simp [hx]

/-- What is left after a tree was given back: its nodes are bare. -/
def Bared (rs : List Ref) (s t : Store κ) : Prop :=
  ∀ x, t.node? x = if x ∈ rs then (s.node? x).map fun n => ⟨n.cell.cleared, none⟩ else s.node? x

theorem Bared.trans {rs rs' : List Ref} (h : Bared rs s t) (h' : Bared rs' t u)
    (hd : ∀ x ∈ rs, x ∉ rs') : Bared (rs ++ rs') s u := by
  intro x
  rw [h' x, h x]
  by_cases hx : x ∈ rs
  · simp [hx, hd x hx]
  · simp [hx]

theorem bared_giveBack (s : Store κ) (r : Ref) : Bared [r] s (s.giveBack r) := fun x => by
  rw [node?_giveBack]
  simp

theorem Bared.perm {rs rs' : List Ref} (h : Bared rs s t) (hp : ∀ x, x ∈ rs ↔ x ∈ rs') :
    Bared rs' s t := fun x => by
  simp only [h x, hp]

theorem in_bared {q : Planted κ} {rs : List Ref} {parent : Option Ref} (hq : q.In s parent)
    (h : Bared rs s t) (hd : ∀ x ∈ q.refs, x ∉ rs) : q.In t parent :=
  hq.congr fun x hx => by rw [h x, if_neg (hd x hx)]

theorem bared_slot {q : Planted κ} {depth : Nat}
    (h : ∀ r, q.ref? = some r → Bared q.refs s (releaseTo depth r s)) :
    Bared q.refs s (q.ref?.toList.foldl (fun s c => releaseTo depth c s) s) := by
  cases hr : q.ref? with
  | none =>
    rw [Planted.eq_absent_of_ref? hr]
    intro x
    simp [Planted.refs]
  | some r => exact h r hr

/-- Giving back down far enough bares the nodes of the tree and no others. -/
theorem releaseTo_bared {q : Planted κ} {depth : Nat} {parent : Option Ref} (hq : q.In s parent)
    (hd : q.tree.depth ≤ depth) (hr : q.ref? = some r) (hnd : q.refs.Nodup) :
    Bared q.refs s (releaseTo depth r s) := by
  induction q generalizing s parent depth r with
  | absent => cases hr
  | literal y v =>
    obtain rfl : y = r := Option.some.inj hr
    obtain ⟨d, rfl⟩ := Nat.exists_eq_add_one.mpr hd
    simp only [releaseTo, Planted.children_eq hq, Cell.children, List.reverse_nil, List.foldl_nil]
    exact bared_giveBack s y
  | var y n =>
    obtain rfl : y = r := Option.some.inj hr
    obtain ⟨d, rfl⟩ := Nat.exists_eq_add_one.mpr hd
    simp only [releaseTo, Planted.children_eq hq, Cell.children, List.reverse_nil, List.foldl_nil]
    exact bared_giveBack s y
  | binary y op p q ihp ihq =>
    obtain rfl : y = r := Option.some.inj hr
    obtain ⟨d, rfl, hdp, hdq⟩ := Tree.exists_of_depth_binary_le hd
    obtain ⟨hn, hp, hq⟩ := hq
    simp only [Planted.refs, List.nodup_append, List.mem_append, List.mem_singleton] at hnd
    obtain ⟨⟨hndp, hndq, hpq⟩, -, hout⟩ := hnd
    simp only [releaseTo, Planted.children_eq hn, reverse_children_binary, List.foldl_append]
    -- the right side is given back before the left one
    have hroot := bared_giveBack s y
    have hright := bared_slot fun z hz => ihq
      (in_bared hq hroot fun x hx hm => hout x (.inr hx) y rfl (List.mem_singleton.mp hm))
      hdq hz hndq
    have hboth := hroot.trans hright fun x hx hm => hout x (.inr hm) y rfl (List.mem_singleton.mp hx)
    have hleft := bared_slot fun z hz => ihp
      (in_bared hp hboth fun x hx hm => (List.mem_append.mp hm).elim
        (fun hm => hout x (.inl hx) y rfl (List.mem_singleton.mp hm)) fun hm => hpq x hx x hm rfl)
      hdp hz hndp
    refine (hboth.trans hleft fun x hx hm => ?_).perm fun x => ?_
    · exact (List.mem_append.mp hx).elim
        (fun hx => hout x (.inl hm) y rfl (List.mem_singleton.mp hx)) fun hx => hpq x hm x hx rfl
    · simp only [Planted.refs, List.mem_append, List.mem_singleton]
      tauto
  | unary y op p ih =>
    obtain rfl : y = r := Option.some.inj hr
    obtain ⟨d, rfl, hdp⟩ := Tree.exists_of_depth_unary_le hd
    obtain ⟨hn, hp⟩ := hq
    simp only [Planted.refs, List.nodup_append, List.mem_singleton] at hnd
    obtain ⟨hndp, -, hout⟩ := hnd
    simp only [releaseTo, Planted.children_eq hn, reverse_children_unary]
    have hroot := bared_giveBack s y
    have hslot := bared_slot fun z hz => ih
      (in_bared hp hroot fun x hx hm => hout x hx y rfl (List.mem_singleton.mp hm))
      hdp hz hndp
    refine (hroot.trans hslot fun x hx hm => ?_).perm fun x => ?_
    · exact hout x hm y rfl (List.mem_singleton.mp hx)
    · simp only [Planted.refs, List.mem_append, List.mem_singleton]
      tauto

/-- A tree was given back: its nodes have no links, and nothing else changed. -/
structure Released (rs : List Ref) (s t : Store κ) : Prop where
  bared : Bared rs s t
  apart : t.Apart []
  spare : ∀ x ∈ t.pool.spare, x ∈ rs ∨ x ∈ s.pool.spare
  roots : t.roots = s.roots

/-- **Giving back the tree below a node without a parent.** -/
theorem Linked.releaseTo_released (h : s.Linked strays) {q : Planted κ} (hq : q.In s none)
    (hr : q.ref? = some r) (hnd : q.refs.Nodup) (hin : ∀ x ∈ q.refs, s.InUse x) :
    Released q.refs s (releaseTo s.nodes.size r s) := by
  let rest : List Ref := (List.range s.nodes.size).filter fun x => x ∉ q.refs ∧ x ∉ s.pool.spare
  have hrest : ∀ x, x ∈ rest ↔ x < s.nodes.size ∧ x ∉ q.refs ∧ x ∉ s.pool.spare := by
    intro x
    simp [rest]
  have hapart : s.Apart (q.refs ++ rest) := by
    refine ⟨?_, fun x hx => ?_⟩
    · have hndr : rest.Nodup := List.Nodup.filter _ List.nodup_range
      simp only [List.nodup_append, List.mem_append]
      refine ⟨⟨hnd, hndr, ?_⟩, h.apart.nodup, ?_⟩
      · rintro x hx _ hy rfl
        exact ((hrest x).mp hy).2.1 hx
      · rintro x (hx | hx) _ hy rfl
        · exact (hin x hx).2 hy
        · exact ((hrest x).mp hx).2.2 hy
    · simp only [List.mem_append] at hx
      rcases hx with (hx | hx) | hx
      · exact (hin x hx).1
      · exact ((hrest x).mp hx).1
      · exact h.apart.bound x hx
  have hdepth := (hq.stands hapart).depth_le hapart
  have hbared := releaseTo_bared hq hdepth hr hnd
  have hfreed := releaseTo_spec hq hdepth hr hapart.accounted
  refine ⟨hbared, hfreed.accounted.toApart.sublist (List.nil_sublist _), fun x hx => ?_, hfreed.kept.roots⟩
  have hused : x ∉ rest := fun hm =>
    (List.nodup_append.mp hfreed.accounted.nodup).2.2 x hm x hx rfl
  have hlt : x < s.nodes.size := by
    have hx := hfreed.accounted.bound x (List.mem_append_right _ hx)
    by_contra hge
    have hnone : s.node? x = none := Array.getElem?_eq_none (Nat.not_lt.mp hge)
    have hnone' : (releaseTo s.nodes.size r s).node? x = none := by simp [hbared x, hnone]
    rw [node?, Array.getElem?_eq_getElem hx] at hnone'
    cases hnone'
  rw [hrest] at hused
  tauto

theorem Bared.parent? {rs : List Ref} (h : Bared rs s t) (x : Ref) :
    t.parent? x = if x ∈ rs then none else s.parent? x := by
  unfold Store.parent?
  rw [h x]
  split
  · cases s.node? x <;> rfl
  · rfl

theorem Bared.slot? {rs : List Ref} (h : Bared rs s t) (x : Ref) (slot : Slot) :
    t.slot? x slot = if x ∈ rs then none else s.slot? x slot := by
  unfold Store.slot?
  rw [h x]
  split
  · cases s.node? x with
    | none => rfl
    | some n => exact Cell.slot?_cleared slot n.cell
  · rfl

/-- What is in a planted tree below its root is in a slot of it. -/
theorem exists_slot?_of_mem_refs {q : Planted κ} {parent : Option Ref} (hq : q.In s parent)
    (hx : x ∈ q.refs) (hne : q.ref? ≠ some x) : ∃ y ∈ q.refs, ∃ slot, s.slot? y slot = some x := by
  induction q generalizing parent with
  | absent => cases hx
  | literal y v => exact absurd (congrArg some (List.mem_singleton.mp hx).symm) hne
  | var y n => exact absurd (congrArg some (List.mem_singleton.mp hx).symm) hne
  | binary y op l r ihl ihr =>
    simp only [Planted.refs, List.mem_append, List.mem_singleton] at hx ⊢
    rcases hx with (hx | hx) | rfl
    · by_cases hl : l.ref? = some x
      · exact ⟨y, .inr rfl, .left, (slot?_eq hq.1 _).trans hl⟩
      · obtain ⟨z, hz, hslot⟩ := ihl hq.2.1 hx hl
        exact ⟨z, .inl (.inl hz), hslot⟩
    · by_cases hr : r.ref? = some x
      · exact ⟨y, .inr rfl, .right, (slot?_eq hq.1 _).trans hr⟩
      · obtain ⟨z, hz, hslot⟩ := ihr hq.2.2 hx hr
        exact ⟨z, .inl (.inr hz), hslot⟩
    · exact absurd rfl hne
  | unary y op l ih =>
    simp only [Planted.refs, List.mem_append, List.mem_singleton] at hx ⊢
    rcases hx with hx | rfl
    · by_cases hl : l.ref? = some x
      · exact ⟨y, .inr rfl, .operand, (slot?_eq hq.1 _).trans hl⟩
      · obtain ⟨z, hz, hslot⟩ := ih hq.2 hx hl
        exact ⟨z, .inl hz, hslot⟩
    · exact absurd rfl hne

/-- **Giving a tree back** keeps the links. -/
theorem Linked.released (h : s.Linked strays) {q : Planted κ} (hq : q.In s none)
    (hrel : Released q.refs s t) : t.Linked strays := by
  have hp := hrel.bared.parent?
  have hs := hrel.bared.slot?
  have hdown : ∀ {p slot n}, s.slot? p slot = some n → p ∈ q.refs → n ∈ q.refs := fun hm hmem =>
    hq.mem_refs_of_slot? hmem hm
  -- a node of the tree has no parent, or has it in the tree
  have hup : ∀ {p n}, s.parent? n = some p → n ∈ q.refs →
      p ∈ q.refs ∧ ∃ slot, s.slot? p slot = some n := by
    intro p n hn hmem
    have hne : q.ref? ≠ some n := fun hr => by
      rw [hq.parent?_eq hr] at hn
      cases hn
    obtain ⟨y, hy, slot, hslot⟩ := exists_slot?_of_mem_refs hq hmem hne
    obtain rfl := h.owner_eq hslot hn
    exact ⟨hy, slot, hslot⟩
  exact
  { owned := fun hm => by
      rw [hs] at hm
      split at hm
      · cases hm
      · rename_i hpq
        rw [hp, if_neg fun hmem => hpq (hup (h.owned hm) hmem).1]
        exact h.owned hm
    once := fun hm hm' => by
      rw [hs] at hm hm'
      split at hm
      · cases hm
      · rename_i hpq
        rw [if_neg hpq] at hm'
        exact h.once hm hm'
    placed := fun hm => by
      rw [hp] at hm
      split at hm
      · cases hm
      · rename_i hnq
        refine (h.placed hm).imp_left fun ⟨slot, hslot⟩ => ⟨slot, ?_⟩
        rw [hs, if_neg fun hmem => hnq (hdown hslot hmem)]
        exact hslot
    stray := fun x hx => by
      obtain ⟨hxp, hnone⟩ := h.stray x hx
      have hnq : x.1 ∉ q.refs := fun hmem => by
        obtain ⟨-, slot, hslot⟩ := hup hxp hmem
        exact hnone _ _ hslot
      refine ⟨?_, fun p slot => ?_⟩
      · rw [hp, if_neg hnq]
        exact hxp
      · rw [hs]
        split
        · exact fun hc => nomatch hc
        · exact hnone p slot
    apart := hrel.apart
    freeParent := fun x hx => by
      rw [hp]
      split
      · rfl
      · exact h.freeParent x ((hrel.spare x hx).resolve_left ‹_›)
    freeSlot := fun x hx slot => by
      rw [hs]
      split
      · rfl
      · exact h.freeSlot x ((hrel.spare x hx).resolve_left ‹_›) slot }

end Store

end Fluxion
