import Fluxion.Proofs.Ownership
import Fluxion.Proofs.Seats

/-!
# Links of the nodes in use

The links of a store are what is in the slots of its nodes and the references back to their parents.
They agree when a node refers back to `p` just if it is in one slot of `p` and in no other slot. Nodes
that do not agree with the rest are strays: they refer back to a node, but no slot holds them. A stray
stays one for good, since no slot takes a node that has a parent.

* `Store.LinksAgree` says that the links agree, and `Store.Linked` that they do but for some strays.
* `Store.Refilled` says what a slot gets and which references back change with it;
  `Linked.refilled` carries the links over.
* `Store.setSlot_assigned` and `Store.replaceChild_exchanged` list all that an assignment and a
  replacement can do.
-/

namespace Fluxion

open Act

namespace Cell

variable {κ : Type}

/-- Whether a cell has a slot. -/
def hasSlot : Slot → Cell κ → Bool
  | .left, binary .. | .right, binary .. | .operand, unary .. => true
  | _, _ => false

theorem hasSlot_of_slot? {slot : Slot} {c : Cell κ} {r : Ref} (h : c.slot? slot = some r) :
    c.hasSlot slot = true := by
  cases slot <;> cases c <;> first | rfl | cases h

theorem slot?_setSlot_self {slot : Slot} {c : Cell κ} (h : c.hasSlot slot = true) (x : Option Ref) :
    (c.setSlot slot x).slot? slot = x := by
  cases slot <;> cases c <;> first | rfl | cases h

theorem slot?_cleared (slot : Slot) (c : Cell κ) : c.cleared.slot? slot = none := by
  cases slot <;> cases c <;> rfl

end Cell

namespace Store

variable {κ : Type} {s t u : Store κ} {strays : List (Ref × Ref)} {owner r x n p : Ref} {slot : Slot}
  {child : Option Ref} {f : Fault} {p' : Ref} {slot' : Slot}

/-! ## Links -/

/-- A node has a slot. -/
def HasSlot (s : Store κ) (r : Ref) (slot : Slot) : Prop :=
  ∃ n, s.node? r = some n ∧ n.cell.hasSlot slot = true

instance (s : Store κ) (r : Ref) (slot : Slot) : Decidable (s.HasSlot r slot) :=
  decidable_of_iff ((s.node? r).any fun n => n.cell.hasSlot slot) (Option.any_eq_true _ _)

/-- A node of the store that is not free. -/
def InUse (s : Store κ) (r : Ref) : Prop := r < s.nodes.size ∧ r ∉ s.pool.spare

instance (s : Store κ) (r : Ref) : Decidable (s.InUse r) :=
  inferInstanceAs (Decidable (r < s.nodes.size ∧ r ∉ s.pool.spare))

/-- A node is in one slot of `p` and in no other slot. -/
def OnlyIn (s : Store κ) (n p : Ref) : Prop :=
  ∃ slot, s.slot? p slot = some n ∧ ∀ p' slot', s.slot? p' slot' = some n → p' = p ∧ slot' = slot

/-- The references back agree with the slots. -/
def LinksAgree (s : Store κ) : Prop := ∀ n p, s.parent? n = some p ↔ s.OnlyIn n p

/-- The links agree but for strays, which refer back to a node without being in any slot. Free nodes
have no links. -/
structure Linked (strays : List (Ref × Ref)) (s : Store κ) : Prop where
  owned : ∀ {p slot n}, s.slot? p slot = some n → s.parent? n = some p
  once : ∀ {p slot slot' n}, s.slot? p slot = some n → s.slot? p slot' = some n → slot = slot'
  placed : ∀ {n p}, s.parent? n = some p → (∃ slot, s.slot? p slot = some n) ∨ (n, p) ∈ strays
  stray : ∀ x ∈ strays, s.parent? x.1 = some x.2 ∧ ∀ p slot, s.slot? p slot ≠ some x.1
  apart : s.Apart []
  freeParent : ∀ r ∈ s.pool.spare, s.parent? r = none
  freeSlot : ∀ r ∈ s.pool.spare, ∀ slot, s.slot? r slot = none

/-- Two stores have the same links, nodes in use and roots. -/
structure SameLinks (s t : Store κ) : Prop where
  parents : ∀ r, t.parent? r = s.parent? r
  slots : ∀ r slot, t.slot? r slot = s.slot? r slot
  hasSlot : ∀ r slot, t.HasSlot r slot ↔ s.HasSlot r slot
  size : t.nodes.size = s.nodes.size
  pool : t.pool = s.pool
  roots : t.roots = s.roots

/-- A slot holds `child` now. What was in it has no parent any more, and nothing else changed. -/
structure Refilled (owner : Ref) (slot : Slot) (child : Option Ref) (s t : Store κ) : Prop where
  slots : ∀ p slot', t.slot? p slot' = if p = owner ∧ slot' = slot then child else s.slot? p slot'
  parents : ∀ n, t.parent? n =
    if child = some n then some owner else if s.slot? owner slot = some n then none else s.parent? n
  hasSlot : ∀ r slot, t.HasSlot r slot ↔ s.HasSlot r slot
  size : t.nodes.size = s.nodes.size
  pool : t.pool = s.pool
  roots : t.roots = s.roots

theorem SameLinks.inUse (h : SameLinks s t) : t.InUse r ↔ s.InUse r := by
  unfold InUse
  rw [h.size, h.pool]

theorem Refilled.inUse (h : Refilled owner slot child s t) : t.InUse r ↔ s.InUse r := by
  unfold InUse
  rw [h.size, h.pool]

theorem HasSlot.lt_size (h : s.HasSlot r slot) : r < s.nodes.size := by
  obtain ⟨n, hn, -⟩ := h
  exact lt_size_of_node? hn

/-- What is in a slot is in one that is there. -/
theorem hasSlot_of_slot? (h : s.slot? r slot = some x) : s.HasSlot r slot := by
  obtain ⟨n, hn, hx⟩ := Option.bind_eq_some_iff.mp h
  exact ⟨n, hn, Cell.hasSlot_of_slot? hx⟩

theorem lt_size_of_parent? (h : s.parent? n = some p) : n < s.nodes.size := by
  obtain ⟨_, hn, -⟩ := Option.bind_eq_some_iff.mp h
  exact lt_size_of_node? hn

/-! ### Reading links after writing -/

theorem parent?_writeParent (hr : r < s.nodes.size) (parent : Option Ref) (x : Ref) :
    (s.writeParent r parent).parent? x = if x = r then parent else s.parent? x := by
  have hn : s.node? r = some s.nodes[r] := Array.getElem?_eq_getElem hr
  unfold parent?
  rw [node?_writeParent]
  split
  · rw [hn]
    rfl
  · rfl

@[simp] theorem slot?_writeParent (s : Store κ) (r : Ref) (parent : Option Ref) (x : Ref)
    (slot : Slot) : (s.writeParent r parent).slot? x slot = s.slot? x slot := by
  unfold slot?
  rw [node?_writeParent]
  split
  · subst x
    cases s.node? r <;> rfl
  · rfl

@[simp] theorem parent?_writeSlot (s : Store κ) (r : Ref) (slot : Slot) (child : Option Ref)
    (x : Ref) : (s.writeSlot r slot child).parent? x = s.parent? x := by
  unfold parent?
  rw [node?_writeSlot]
  split
  · subst x
    cases s.node? r <;> rfl
  · rfl

theorem slot?_writeSlot (h : s.HasSlot r slot) (child : Option Ref) (x : Ref) (slot' : Slot) :
    (s.writeSlot r slot child).slot? x slot' =
      if x = r ∧ slot' = slot then child else s.slot? x slot' := by
  obtain ⟨n, hn, hs⟩ := h
  unfold slot?
  rw [node?_writeSlot]
  by_cases hx : x = r
  · subst x
    rw [if_pos rfl, hn]
    by_cases hslot : slot' = slot
    · subst slot'
      simp [Cell.slot?_setSlot_self hs]
    · simp [hslot, Cell.slot?_setSlot_ne hslot]
  · simp [hx]

theorem hasSlot_writeParent (s : Store κ) (r : Ref) (parent : Option Ref) (x : Ref) (slot : Slot) :
    (s.writeParent r parent).HasSlot x slot ↔ s.HasSlot x slot := by
  unfold HasSlot
  rw [node?_writeParent]
  split
  · subst x
    cases s.node? r <;> simp
  · rfl

theorem hasSlot_writeSlot (s : Store κ) (r : Ref) (slot : Slot) (child : Option Ref) (x : Ref)
    (slot' : Slot) : (s.writeSlot r slot child).HasSlot x slot' ↔ s.HasSlot x slot' := by
  have hkind : ∀ c : Cell κ, (c.setSlot slot child).hasSlot slot' = c.hasSlot slot' := by
    intro c
    cases slot <;> cases slot' <;> cases c <;> rfl
  unfold HasSlot
  rw [node?_writeSlot]
  split
  · subst x
    cases s.node? r <;> simp [hkind]
  · rfl

/-- Writing what a slot holds already changes no link. -/
theorem sameLinks_writeSlot (h : s.slot? owner slot = child) :
    SameLinks s (s.writeSlot owner slot child) := by
  have hrel := relinks_writeSlot s owner slot child
  refine ⟨fun x => parent?_writeSlot .., fun x slot' => ?_, hasSlot_writeSlot s owner slot child,
    hrel.size, hrel.pool, hrel.roots⟩
  unfold slot?
  rw [node?_writeSlot]
  split
  · subst x
    cases hn : s.node? owner with
    | none => rfl
    | some n =>
      have hc : n.cell.slot? slot = child := by
        rw [← h, slot?, hn]
        rfl
      rw [← hc, Option.map_some, Option.bind_some, Cell.setSlot_slot?, Option.bind_some]
  · rfl

/-! ## What keeps the links -/

theorem Linked.owner_eq (h : s.Linked strays) (hs : s.slot? p slot = some n)
    (hp : s.parent? n = some p') : p = p' :=
  Option.some.inj ((h.owned hs).symm.trans hp)

/-- No node is in two slots. -/
theorem Linked.slot_unique (h : s.Linked strays) (hs : s.slot? p slot = some n)
    (hs' : s.slot? p' slot' = some n) : p = p' ∧ slot = slot' := by
  obtain rfl := h.owner_eq hs (h.owned hs')
  exact ⟨rfl, h.once hs hs'⟩

/-- **What a reference back means**: the node is in one slot of the other and in no other slot, or it
is a stray. -/
theorem Linked.parent?_iff (h : s.Linked strays) :
    s.parent? n = some p ↔ s.OnlyIn n p ∨ (n, p) ∈ strays := by
  constructor
  · intro hparent
    obtain ⟨slot, hslot⟩ | hmem := h.placed hparent
    · exact .inl ⟨slot, hslot, fun p' slot' hslot' => h.slot_unique hslot' hslot⟩
    · exact .inr hmem
  · rintro (⟨slot, hslot, -⟩ | hmem)
    · exact h.owned hslot
    · exact (h.stray _ hmem).1

/-- The links agree just if there are no strays. -/
theorem Linked.linksAgree_iff_nil (h : s.Linked strays) : s.LinksAgree ↔ strays = [] := by
  constructor
  · intro hagree
    by_contra hne
    obtain ⟨x, hx⟩ := List.exists_mem_of_ne_nil _ hne
    obtain ⟨hparent, hnone⟩ := h.stray x hx
    obtain ⟨slot, hslot, -⟩ := (hagree x.1 x.2).mp hparent
    exact hnone _ _ hslot
  · rintro rfl n p
    have hiff : s.parent? n = some p ↔ _ := h.parent?_iff
    simpa using hiff

/-- A node with a parent is in use. -/
theorem Linked.inUse_of_parent? (h : s.Linked strays) (hp : s.parent? n = some p) : s.InUse n :=
  ⟨lt_size_of_parent? hp, fun hfree => by simp [h.freeParent n hfree] at hp⟩

theorem Linked.inUse_of_slot? (h : s.Linked strays) (hs : s.slot? p slot = some n) : s.InUse n :=
  h.inUse_of_parent? (h.owned hs)

/-- A node that holds another is in use. -/
theorem Linked.inUse_of_holds (h : s.Linked strays) (hs : s.slot? p slot = some n) : s.InUse p :=
  ⟨(hasSlot_of_slot? hs).lt_size, fun hfree => by simp [h.freeSlot p hfree] at hs⟩

theorem Linked.sameLinks (h : s.Linked strays) (hst : SameLinks s t) : t.Linked strays where
  owned hs := by
    rw [hst.slots] at hs
    rw [hst.parents]
    exact h.owned hs
  once hs hs' := by
    rw [hst.slots] at hs hs'
    exact h.once hs hs'
  placed hp := by
    rw [hst.parents] at hp
    simpa only [hst.slots] using h.placed hp
  stray x hx := by
    simpa only [hst.parents, hst.slots] using h.stray x hx
  apart := ⟨hst.pool ▸ h.apart.nodup, hst.pool ▸ hst.size ▸ h.apart.bound⟩
  freeParent r hr := by
    rw [hst.parents]
    exact h.freeParent r (hst.pool ▸ hr)
  freeSlot r hr slot := by
    rw [hst.slots]
    exact h.freeSlot r (hst.pool ▸ hr) slot

/-- A node that a slot may take: it is in use, and it has no parent or is in that slot already. -/
def MayFill (s : Store κ) (owner : Ref) (slot : Slot) (child : Option Ref) : Prop :=
  ∀ n, child = some n → s.InUse n ∧ (s.parent? n = none ∨ s.slot? owner slot = some n)

/-- What another slot holds is neither the new child nor the old one. -/
theorem Linked.ne_of_other_slot (h : s.Linked strays) (hchild : s.MayFill owner slot child)
    (hne : ¬(p = owner ∧ slot' = slot)) (hs : s.slot? p slot' = some n) :
    child ≠ some n ∧ s.slot? owner slot ≠ some n := by
  have hold : s.slot? owner slot ≠ some n := fun ho => hne (h.slot_unique hs ho)
  refine ⟨fun hc => ?_, hold⟩
  obtain ⟨-, hp | ho⟩ := hchild n hc
  · rw [h.owned hs] at hp
    cases hp
  · exact hold ho

/-- No slot takes a stray. -/
theorem Linked.ne_of_stray (h : s.Linked strays) (hchild : s.MayFill owner slot child)
    (hx : (n, p) ∈ strays) : child ≠ some n := by
  obtain ⟨hparent, hnone⟩ := h.stray _ hx
  intro hc
  obtain ⟨-, hp | ho⟩ := hchild n hc
  · rw [hparent] at hp
    cases hp
  · exact hnone _ _ ho

/-- **Filling a slot** keeps the links in agreement. -/
theorem Linked.refilled (h : s.Linked strays) (hst : Refilled owner slot child s t)
    (howner : s.InUse owner) (hchild : s.MayFill owner slot child) : t.Linked strays where
  owned hs := by
    rw [hst.slots] at hs
    rw [hst.parents]
    split at hs
    · rename_i heq
      rw [if_pos hs, heq.1]
    · rename_i hne
      have hother := h.ne_of_other_slot hchild hne hs
      rw [if_neg hother.1, if_neg hother.2]
      exact h.owned hs
  once hs hs' := by
    rw [hst.slots] at hs hs'
    split at hs <;> split at hs'
    · rename_i heq heq'
      exact heq.2.trans heq'.2.symm
    · rename_i hne
      exact absurd hs (h.ne_of_other_slot hchild hne hs').1
    · rename_i hne _
      exact absurd hs' (h.ne_of_other_slot hchild hne hs).1
    · exact h.once hs hs'
  placed hp := by
    rw [hst.parents] at hp
    split at hp
    · rename_i hc
      refine .inl ⟨slot, ?_⟩
      rw [hst.slots, if_pos ⟨(Option.some.inj hp).symm, rfl⟩, hc]
    · split at hp
      · cases hp
      · rename_i hold
        obtain ⟨slot', hs⟩ | hmem := h.placed hp
        · refine .inl ⟨slot', ?_⟩
          rw [hst.slots, if_neg]
          · exact hs
          · rintro ⟨rfl, rfl⟩
            exact hold hs
        · exact .inr hmem
  stray x hx := by
    obtain ⟨hp, hnone⟩ := h.stray x hx
    have hc := h.ne_of_stray hchild hx
    refine ⟨?_, fun p slot' => ?_⟩
    · rw [hst.parents, if_neg hc, if_neg (hnone _ _)]
      exact hp
    · rw [hst.slots]
      split
      · exact hc
      · exact hnone _ _
  apart := ⟨hst.pool ▸ h.apart.nodup, hst.pool ▸ hst.size ▸ h.apart.bound⟩
  freeParent r hr := by
    rw [hst.pool] at hr
    have hc : child ≠ some r := fun hc => (hchild r hc).1.2 hr
    rw [hst.parents, if_neg hc]
    split
    · rfl
    · exact h.freeParent r hr
  freeSlot r hr slot' := by
    rw [hst.pool] at hr
    have hne : ¬(r = owner ∧ slot' = slot) := fun heq => howner.2 (heq.1 ▸ hr)
    rw [hst.slots, if_neg hne]
    exact h.freeSlot r hr slot'

/-- **Emptying a slot by assignment** makes a stray of what was in it. -/
theorem Linked.emptied (h : s.Linked strays) (hs : s.slot? owner slot = some n) :
    (s.writeSlot owner slot none).Linked ((n, owner) :: strays) := by
  have hslots := slot?_writeSlot (hasSlot_of_slot? hs) none
  have hrel := relinks_writeSlot s owner slot none
  exact
  { owned := fun hm => by
      rw [hslots] at hm
      split at hm
      · cases hm
      · exact (parent?_writeSlot ..).trans (h.owned hm)
    once := fun hm hm' => by
      rw [hslots] at hm hm'
      split at hm
      · cases hm
      · split at hm'
        · cases hm'
        · exact h.once hm hm'
    placed := fun {m p} hp => by
      rw [parent?_writeSlot] at hp
      obtain ⟨slot', hm⟩ | hmem := h.placed hp
      · by_cases heq : p = owner ∧ slot' = slot
        · obtain ⟨rfl, rfl⟩ := heq
          obtain rfl : n = m := Option.some.inj (hs.symm.trans hm)
          exact .inr List.mem_cons_self
        · refine .inl ⟨slot', ?_⟩
          rw [hslots, if_neg heq]
          exact hm
      · exact .inr (List.mem_cons_of_mem _ hmem)
    stray := fun x hx => by
      rw [parent?_writeSlot]
      rcases List.mem_cons.mp hx with rfl | hx
      · refine ⟨h.owned hs, fun p slot' => ?_⟩
        rw [hslots]
        split
        · exact fun hc => nomatch hc
        · rename_i hne
          exact fun hm => hne (h.slot_unique hm hs)
      · refine ⟨(h.stray x hx).1, fun p slot' => ?_⟩
        rw [hslots]
        split
        · exact fun hc => nomatch hc
        · exact (h.stray x hx).2 p slot'
    apart := ⟨hrel.pool ▸ h.apart.nodup, hrel.pool ▸ hrel.size ▸ h.apart.bound⟩
    freeParent := fun r hr => by
      rw [parent?_writeSlot]
      exact h.freeParent r (hrel.pool ▸ hr)
    freeSlot := fun r hr slot' => by
      rw [hslots]
      split
      · rfl
      · exact h.freeSlot r (hrel.pool ▸ hr) slot' }

/-! ## Assigning a slot -/

/-- All that assigning a slot can do. -/
inductive Assigned (owner : Ref) (slot : Slot) (s : Store κ) :
    Option Ref → Except Fault Unit → Store κ → Prop
  /-- The node has a parent already, or would be its own child. -/
  | refused {c : Ref} {f : Fault} (hc : s.slot? owner slot ≠ some c)
      (hp : s.parent? c ≠ none ∨ c = owner) : Assigned owner slot s (some c) (.error f) s
  /-- The slot holds it already. -/
  | held {child : Option Ref} {t : Store κ} (hc : s.slot? owner slot = child) (h : SameLinks s t) :
      Assigned owner slot s child (.ok ()) t
  /-- What was in the slot still refers back. -/
  | emptied {old : Ref} (hc : s.slot? owner slot = some old) :
      Assigned owner slot s none (.ok ()) (s.writeSlot owner slot none)
  /-- The node is taken. -/
  | filled {c : Ref} {t : Store κ} (hp : s.parent? c = none) (hc : c ≠ owner)
      (h : Refilled owner slot (some c) s t) : Assigned owner slot s (some c) (.ok ()) t

/-- The same store but for the references back to parents. -/
structure Reparented (parent : Ref → Option Ref) (s t : Store κ) : Prop where
  parents : ∀ n, t.parent? n = parent n
  slots : ∀ r slot, t.slot? r slot = s.slot? r slot
  hasSlot : ∀ r slot, t.HasSlot r slot ↔ s.HasSlot r slot
  size : t.nodes.size = s.nodes.size
  pool : t.pool = s.pool
  roots : t.roots = s.roots

theorem Reparented.refl (s : Store κ) : Reparented s.parent? s s :=
  ⟨fun _ => rfl, fun _ _ => rfl, fun _ _ => .rfl, rfl, rfl, rfl⟩

theorem Reparented.writeParent {parent : Ref → Option Ref} (h : Reparented parent s t)
    (hr : r < s.nodes.size) (y : Option Ref) :
    Reparented (fun n => if n = r then y else parent n) s (t.writeParent r y) := by
  have hrel := relinks_writeParent t r y
  refine ⟨fun n => ?_, fun x slot => ?_, fun x slot => ?_, hrel.size.trans h.size,
    hrel.pool.trans h.pool, hrel.roots.trans h.roots⟩
  · rw [parent?_writeParent (h.size ▸ hr), h.parents]
  · rw [slot?_writeParent, h.slots]
  · rw [hasSlot_writeParent, h.hasSlot]

/-- A slot is filled after the references back have been set right. -/
theorem Reparented.refilled {parent : Ref → Option Ref} (h : Reparented parent s t)
    (hs : s.HasSlot owner slot) (hp : ∀ n, parent n =
      if child = some n then some owner else if s.slot? owner slot = some n then none else s.parent? n) :
    Refilled owner slot child s (t.writeSlot owner slot child) := by
  have hrel := relinks_writeSlot t owner slot child
  refine ⟨fun p slot' => ?_, fun n => ?_, fun x slot' => ?_, hrel.size.trans h.size,
    hrel.pool.trans h.pool, hrel.roots.trans h.roots⟩
  · rw [slot?_writeSlot ((h.hasSlot owner slot).mpr hs), h.slots]
  · rw [parent?_writeSlot, h.parents, hp]
  · rw [hasSlot_writeSlot, h.hasSlot]

/-- **Assigning a slot** that is there. -/
theorem setSlot_assigned (child : Option Ref) (hs : s.HasSlot owner slot)
    (hold : ∀ o, s.slot? owner slot = some o → o < s.nodes.size)
    (hchild : ∀ c, child = some c → c < s.nodes.size) :
    Assigned owner slot s child ((setSlot owner slot child).perform s).1
      ((setSlot owner slot child).perform s).2 := by
  have hrun := slotRun_setSlot s owner slot child
  generalize (setSlot owner slot child).perform s = result at hrun
  cases hrun with
  | emptied =>
    cases ho : s.slot? owner slot with
    | none => exact .held ho (sameLinks_writeSlot ho)
    | some o => exact .emptied ho
  | again hheld => exact .held hheld (sameLinks_writeSlot hheld)
  | refused hne hp => exact .refused hne hp
  | filled hp hc ho =>
    refine .filled hp hc (((Reparented.refl s).writeParent (hchild _ rfl) _).refilled hs fun n => ?_)
    simp [ho, eq_comm]
  | exchanged hp hc ho =>
    have hcut := (Reparented.refl s).writeParent (hold _ ho) none
    refine .filled hp hc ((hcut.writeParent (hchild _ rfl) _).refilled hs fun n => ?_)
    simp [ho, eq_comm]

/-! ## Replacing a child -/

/-- All that replacing a child can do. -/
inductive Exchanged (owner : Ref) (old new : Option Ref) (s : Store κ) :
    Except Fault Unit → Store κ → Prop
  /-- It is not a child. -/
  | refused {f : Fault} (h : ∀ slot o, old = some o → s.slot? owner slot ≠ some o) :
      Exchanged owner old new s (.error f) s
  /-- The slot is empty by the time the new child is refused. -/
  | torn {slot : Slot} {o c : Ref} {f : Fault} {t : Store κ} (hold : old = some o)
      (ho : s.slot? owner slot = some o) (hnew : new = some c) (h : Refilled owner slot none s t) :
      Exchanged owner old new s (.error f) t
  /-- The slot holds the new child, if there is one. -/
  | replaced {slot : Slot} {o : Ref} {t : Store κ} (hold : old = some o)
      (ho : s.slot? owner slot = some o)
      (hnew : ∀ c, new = some c → s.parent? c = none ∨ s.slot? owner slot = some c)
      (h : Refilled owner slot new s t) : Exchanged owner old new s (.ok ()) t

theorem Refilled.sameLinks (h : Refilled owner slot child s t) (h' : SameLinks t u) :
    Refilled owner slot child s u :=
  ⟨fun p slot' => (h'.slots p slot').trans (h.slots p slot'), fun n => (h'.parents n).trans (h.parents n),
    fun p slot' => (h'.hasSlot p slot').trans (h.hasSlot p slot'), h'.size.trans h.size, h'.pool.trans h.pool, h'.roots.trans h.roots⟩

/-- A slot that was emptied is filled again. -/
theorem Refilled.again (h : Refilled owner slot none s t) (h' : Refilled owner slot child t u) :
    Refilled owner slot child s u := by
  refine ⟨fun p slot' => ?_, fun n => ?_, fun p slot' => (h'.hasSlot p slot').trans (h.hasSlot p slot'),
    h'.size.trans h.size, h'.pool.trans h.pool, h'.roots.trans h.roots⟩
  · rw [h'.slots, h.slots]
    split <;> rfl
  · have hempty : t.slot? owner slot = none := by simp [h.slots]
    simp [h'.parents, h.parents, hempty]

/-- A child that is cut off leaves its slot empty. -/
theorem refilled_cut (h : s.Linked strays) (ho : s.slot? owner slot = some x) :
    Refilled owner slot none s ((s.writeSlot owner slot none).writeParent x none) := by
  have hrel := relinks_writeSlot s owner slot none
  have hrel' := relinks_writeParent (s.writeSlot owner slot none) x none
  have hx := (h.inUse_of_slot? ho).1
  refine ⟨fun p slot' => ?_, fun n => ?_, fun p slot' => ?_, hrel'.size.trans hrel.size,
    hrel'.pool.trans hrel.pool, hrel'.roots.trans hrel.roots⟩
  · rw [slot?_writeParent, slot?_writeSlot (hasSlot_of_slot? ho)]
  · rw [parent?_writeParent (hrel.size ▸ hx), parent?_writeSlot, ho]
    simp [eq_comm]
  · rw [hasSlot_writeParent, hasSlot_writeSlot]

/-- A node that is not a child is refused. -/
theorem replaceChild_refused {old : Option Ref} (new : Option Ref)
    (h : ∀ slot o, old = some o → s.slot? owner slot ≠ some o) :
    ∃ f, (replaceChild owner old new).perform s = (.error f, s) := by
  have hslot : ∀ slot {n o}, s.node? owner = some n → old = some o → n.cell.slot? slot ≠ some o := by
    intro slot n o hn ho hs
    exact h slot o ho (by simp [slot?, hn, hs])
  unfold replaceChild
  rw [perform_bind, perform_get]
  dsimp only
  cases hn : s.node? owner with
  | none => exact ⟨_, rfl⟩
  | some n =>
    obtain ⟨c, parent⟩ := n
    cases c with
    | literal v => exact ⟨_, rfl⟩
    | var n => exact ⟨_, rfl⟩
    | binary op l r =>
      cases old with
      | none => exact ⟨_, rfl⟩
      | some o =>
        have hl : l ≠ some o := hslot .left hn rfl
        have hr : r ≠ some o := hslot .right hn rfl
        simp only [hl, hr, if_false]
        exact ⟨_, rfl⟩
    | unary op y =>
      cases old with
      | none => exact ⟨_, rfl⟩
      | some o =>
        have hy : y ≠ some o := hslot .operand hn rfl
        simp only [hy, if_false]
        exact ⟨_, rfl⟩

/-- **Replacing a child** where the links agree but for strays. -/
theorem replaceChild_exchanged (h : s.Linked strays) (owner : Ref) (old new : Option Ref)
    (hnew : ∀ c, new = some c → c < s.nodes.size) :
    Exchanged owner old new s ((replaceChild owner old new).perform s).1
      ((replaceChild owner old new).perform s).2 := by
  by_cases hfound : ∃ slot o, old = some o ∧ s.slot? owner slot = some o
  · obtain ⟨slot, o, rfl, ho⟩ := hfound
    obtain ⟨⟨c, parent⟩, hn, hc⟩ := Option.bind_eq_some_iff.mp ho
    have hone : ∀ slot', c.slot? slot' = some o → slot' = slot := fun slot' hs =>
      h.once ((slot?_eq hn slot').trans hs) ho
    have hcut := refilled_cut h ho
    have hempty : ((s.writeSlot owner slot none).writeParent o none).slot? owner slot = none := by
      simp [hcut.slots]
    rw [perform_replaceChild hn hc hone, perform_exchange]
    have hassigned := setSlot_assigned new
      ((hcut.hasSlot owner slot).mpr (hasSlot_of_slot? ho))
      (fun x hx => by rw [hempty] at hx; cases hx) fun x hx => hcut.size ▸ hnew x hx
    generalize (setSlot owner slot new).perform _ = result at hassigned
    obtain ⟨res, t⟩ := result
    cases hassigned with
    | refused _ _ => exact .torn rfl ho rfl hcut
    | held hc hsame =>
      obtain rfl := hempty.symm.trans hc
      exact .replaced rfl ho (fun _ hx => nomatch hx) (hcut.sameLinks hsame)
    | emptied hc =>
      rw [hempty] at hc
      cases hc
    | filled hp _ hfill =>
      refine .replaced rfl ho ?_ (hcut.again hfill)
      rintro x ⟨⟩
      rw [hcut.parents] at hp
      split at hp
      · cases hp
      · split at hp
        · exact .inr ‹_›
        · exact .inl hp
  · have hnone : ∀ slot o, old = some o → s.slot? owner slot ≠ some o := fun slot o ho hs =>
      hfound ⟨slot, o, ho, hs⟩
    obtain ⟨f, hrun⟩ := replaceChild_refused new hnone
    rw [hrun]
    exact .refused hnone

end Store

end Fluxion
