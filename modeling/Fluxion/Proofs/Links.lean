import Fluxion.Proofs.Ensures
import Fluxion.Proofs.Planted

/-!
# Linking planted trees

What the operations on links do to planted trees. A change of links touches a few nodes and nothing
else; a tree whose root gets another parent is otherwise the same tree. From this follows what it
means to make a node over trees that have no parent yet, and to give a tree back.

* `Store.Relinks` says that nothing but the nodes of a list may have changed.
* `Store.SlotRun` lists the runs of an assignment of a slot.
* `Store.Made` says that a tree was made beside what is in use.
* `Store.newBinary_spec` and its neighbours make nodes.
-/

namespace Fluxion

open Act

namespace Cell

variable {κ : Type}

/-- An empty slot, and a slot that is not there, hold nothing. -/
theorem slot?_setSlot_none (slot : Slot) (c : Cell κ) : (c.setSlot slot none).slot? slot = none := by
  cases slot <;> cases c <;> rfl

@[simp] theorem setSlot_setSlot (slot : Slot) (x y : Option Ref) (c : Cell κ) :
    (c.setSlot slot x).setSlot slot y = c.setSlot slot y := by
  cases slot <;> cases c <;> rfl

end Cell

namespace Store

variable {κ : Type} {s t u : Store κ} {p q : Planted κ} {used touched touched' : List Ref}
  {parent : Option Ref} {r owner : Ref} {b : Int}

/-! ## Reading after writing -/

theorem node?_writeParent (s : Store κ) (r x : Ref) (parent : Option Ref) :
    (s.writeParent r parent).node? x =
      if x = r then (s.node? r).map fun n => { n with parent } else s.node? x := by
  unfold writeParent
  cases h : s.node? r with
  | none =>
    by_cases hx : x = r
    · simp [hx, h]
    · simp [hx]
  | some n => exact node?_write s r x _ (lt_size_of_node? h)

theorem node?_writeSlot (s : Store κ) (r x : Ref) (slot : Slot) (child : Option Ref) :
    (s.writeSlot r slot child).node? x =
      if x = r then (s.node? r).map fun n => { n with cell := n.cell.setSlot slot child }
      else s.node? x := by
  unfold writeSlot
  cases h : s.node? r with
  | none =>
    by_cases hx : x = r
    · simp [hx, h]
    · simp [hx]
  | some n => exact node?_write s r x _ (lt_size_of_node? h)

/-- Nothing but the nodes at some references may have changed. -/
structure Relinks (touched : List Ref) (s t : Store κ) : Prop where
  nodes : ∀ r ∉ touched, t.node? r = s.node? r
  size : t.nodes.size = s.nodes.size
  roots : t.roots = s.roots
  pool : t.pool = s.pool

theorem Relinks.trans (h : Relinks touched s t) (h' : Relinks touched t u) :
    Relinks touched s u where
  nodes r hr := (h'.nodes r hr).trans (h.nodes r hr)
  size := h'.size.trans h.size
  roots := h'.roots.trans h.roots
  pool := h'.pool.trans h.pool

theorem Relinks.mono (h : Relinks touched s t) (hs : touched ⊆ touched') : Relinks touched' s t where
  nodes r hr := h.nodes r fun hm => hr (hs hm)
  size := h.size
  roots := h.roots
  pool := h.pool

theorem relinks_writeParent (s : Store κ) (r : Ref) (parent : Option Ref) :
    Relinks [r] s (s.writeParent r parent) := by
  refine ⟨fun x hx => ?_, ?_, ?_, ?_⟩
  · rw [node?_writeParent, if_neg (by simpa using hx)]
  all_goals
    unfold writeParent
    split <;> simp [write]

theorem relinks_writeSlot (s : Store κ) (r : Ref) (slot : Slot) (child : Option Ref) :
    Relinks [r] s (s.writeSlot r slot child) := by
  refine ⟨fun x hx => ?_, ?_, ?_, ?_⟩
  · rw [node?_writeSlot, if_neg (by simpa using hx)]
  all_goals
    unfold writeSlot
    split <;> simp [write]

/-- Links do not decide which references are in use. -/
theorem Relinks.apart (h : Relinks touched s t) (ha : s.Apart used) : t.Apart used where
  nodup := by
    rw [h.pool]
    exact ha.nodup
  bound := by
    rw [h.pool, h.size]
    exact ha.bound

theorem Relinks.accounted (h : Relinks touched s t) (ha : s.Accounted b used) :
    t.Accounted b used :=
  ⟨h.apart ha.toApart, h.pool ▸ ha.balance⟩

theorem Relinks.kept (h : Relinks touched s t) (hd : ∀ r ∈ used, r ∉ touched) : Kept used s t where
  nodes r hr := h.nodes r (hd r hr)
  roots := h.roots

end Store

namespace Planted

variable {κ : Type} {s t : Store κ} {p : Planted κ} {parent parent' : Option Ref} {r : Ref}

/-- A tree whose root gets another parent is the same tree below it. -/
theorem In.reparent (h : p.In s parent) (hnd : p.refs.Nodup)
    (hroot : ∀ r, p.ref? = some r → t.node? r = (s.node? r).map fun n => { n with parent := parent' })
    (hrest : ∀ r ∈ p.refs, p.ref? ≠ some r → t.node? r = s.node? r) : p.In t parent' := by
  cases p with
  | absent => trivial
  | literal r v =>
    simp only [In] at h ⊢
    rw [hroot r rfl, h]
    rfl
  | var r n =>
    simp only [In] at h ⊢
    rw [hroot r rfl, h]
    rfl
  | binary r op p q =>
    obtain ⟨hr, hp, hq⟩ := h
    simp only [refs, List.nodup_append, List.nodup_cons, List.mem_append, List.mem_singleton] at hnd
    refine ⟨?_, hp.congr fun x hx => hrest x ?_ ?_, hq.congr fun x hx => hrest x ?_ ?_⟩
    · rw [hroot r rfl, hr]
      rfl
    · simp [refs, hx]
    · rintro ⟨⟩
      exact hnd.2.2 r (.inl hx) r rfl rfl
    · simp [refs, hx]
    · rintro ⟨⟩
      exact hnd.2.2 r (.inr hx) r rfl rfl
  | unary r op p =>
    obtain ⟨hr, hp⟩ := h
    simp only [refs, List.nodup_append, List.mem_singleton] at hnd
    refine ⟨?_, hp.congr fun x hx => hrest x ?_ ?_⟩
    · rw [hroot r rfl, hr]
      rfl
    · simp [refs, hx]
    · rintro ⟨⟩
      exact hnd.2.2 r hx r rfl rfl

end Planted

namespace Store

variable {κ : Type} {s t u : Store κ} {p q : Planted κ} {c : Cell κ} {used : List Ref}
  {parent : Option Ref} {r owner : Ref} {slot : Slot} {b : Int}

/-! ## Filling a slot -/

/-- Emptying a slot leaves all nodes but the owner alone. -/
theorem setSlot_none (s : Store κ) (owner : Ref) (slot : Slot) :
    (setSlot owner slot none).perform s = (.ok (), s.writeSlot owner slot none) := rfl

/-- A slot that is empty takes any node without a parent. -/
theorem setSlot_some (hp : s.parent? r = none) (hr : r ≠ owner) (he : s.slot? owner slot = none) :
    (setSlot owner slot (some r)).perform s =
      (.ok (), (s.writeParent r (some owner)).writeSlot owner slot (some r)) := by
  simp [setSlot, adopt, perform_bind, he, hp, hr]

/-- **The runs of an assignment**, each with what it needs and what it writes. -/
inductive SlotRun (s : Store κ) (owner : Ref) (slot : Slot) :
    Option Ref → Except Fault Unit × Store κ → Prop
  /-- What was in the slot keeps its reference back. -/
  | emptied : SlotRun s owner slot none (.ok (), s.writeSlot owner slot none)
  /-- The slot holds the node already. -/
  | again {c : Ref} (hold : s.slot? owner slot = some c) :
      SlotRun s owner slot (some c) (.ok (), s.writeSlot owner slot (some c))
  /-- The node has a parent, or would be its own child. -/
  | refused {c : Ref} {f : Fault} (hne : s.slot? owner slot ≠ some c)
      (hp : s.parent? c ≠ none ∨ c = owner) : SlotRun s owner slot (some c) (.error f, s)
  /-- The slot was empty. -/
  | filled {c : Ref} (hp : s.parent? c = none) (hc : c ≠ owner) (he : s.slot? owner slot = none) :
      SlotRun s owner slot (some c)
        (.ok (), (s.writeParent c (some owner)).writeSlot owner slot (some c))
  /-- What was in the slot has no parent any more. -/
  | exchanged {c o : Ref} (hp : s.parent? c = none) (hc : c ≠ owner)
      (ho : s.slot? owner slot = some o) (hne : c ≠ o) :
      SlotRun s owner slot (some c)
        (.ok (), ((s.writeParent o none).writeParent c (some owner)).writeSlot owner slot (some c))

/-- **Every assignment** is one of these runs. -/
theorem slotRun_setSlot (s : Store κ) (owner : Ref) (slot : Slot) (child : Option Ref) :
    SlotRun s owner slot child ((setSlot owner slot child).perform s) := by
  cases child with
  | none => exact .emptied
  | some c =>
    by_cases hold : s.slot? owner slot = some c
    · have hrun : (setSlot owner slot (some c)).perform s =
          (.ok (), s.writeSlot owner slot (some c)) := by
        simp [setSlot, perform_bind, hold]
      exact hrun ▸ .again hold
    have hne : some c ≠ s.slot? owner slot := Ne.symm hold
    by_cases hp : s.parent? c = none
    · by_cases hc : c = owner
      · have hrun : (setSlot owner slot (some c)).perform s = (.error .ownChild, s) := by
          subst c
          simp [setSlot, adopt, perform_bind, hne, hp]
        exact hrun ▸ .refused hold (.inr hc)
      · cases ho : s.slot? owner slot with
        | none => exact setSlot_some hp hc ho ▸ .filled hp hc ho
        | some o =>
          have hco : c ≠ o := fun e => hold (e ▸ ho)
          have hrun : (setSlot owner slot (some c)).perform s =
              (.ok (), ((s.writeParent o none).writeParent c (some owner)).writeSlot owner slot
                (some c)) := by
            simp [setSlot, adopt, perform_bind, hp, hc, ho, hco]
          exact hrun ▸ .exchanged hp hc ho hco
    · have hrun : (setSlot owner slot (some c)).perform s = (.error .alreadyOwned, s) := by
        simp [setSlot, adopt, perform_bind, hne, Option.isSome_iff_ne_none.mpr hp]
      exact hrun ▸ .refused hold (.inl hp)

/-- **Filling a slot.** The tree moves below the owner of the slot, and nothing else changes. -/
theorem setSlot_spec (hp : p.In s none) (hnd : p.refs.Nodup) (ho : owner ∉ p.refs)
    (hn : s.node? owner = some ⟨c, parent⟩) (he : c.slot? slot = none) :
    (setSlot owner slot p.ref?).Succeeds s fun _ t =>
      p.In t (some owner) ∧ t.node? owner = some ⟨c.setSlot slot p.ref?, parent⟩ ∧
        Relinks (owner :: p.refs) s t := by
  cases hr : p.ref? with
  | none =>
    rw [Planted.eq_absent_of_ref? hr]
    refine ensures_of_ok (setSlot_none s owner slot) ⟨trivial, ?_, ?_⟩
    · rw [node?_writeSlot, if_pos rfl, hn]
      rfl
    · exact (relinks_writeSlot s owner slot none).mono (by simp)
  | some r =>
    have hmem := Planted.mem_refs_of_ref? hr
    have hne : r ≠ owner := fun e => ho (e ▸ hmem)
    have hempty : s.slot? owner slot = none := by simp [slot?, hn, he]
    refine ensures_of_ok (setSlot_some (hp.parent?_eq hr) hne hempty) ⟨?_, ?_, ?_⟩
    · refine hp.reparent hnd (fun x hx => ?_) fun x hx hxr => ?_
      · obtain rfl : r = x := Option.some.inj (hr.symm.trans hx)
        rw [node?_writeSlot, if_neg hne, node?_writeParent, if_pos rfl]
      · have hxo : x ≠ owner := fun e => ho (e ▸ hx)
        have hxr : x ≠ r := fun e => hxr (e ▸ hr)
        rw [node?_writeSlot, if_neg hxo, node?_writeParent, if_neg hxr]
    · rw [node?_writeSlot, if_pos rfl, node?_writeParent, if_neg (Ne.symm hne), hn]
      rfl
    · have h₁ : Relinks (owner :: p.refs) s (s.writeParent r (some owner)) :=
        (relinks_writeParent s r _).mono (by simp [hmem])
      exact h₁.trans ((relinks_writeSlot _ owner slot _).mono (by simp))

/-! ## Replacing a child -/

theorem perform_exchange (s : Store κ) (owner : Ref) (slot : Slot) (old : Ref) (new : Option Ref) :
    (exchange owner slot old new).perform s =
      (setSlot owner slot new).perform ((s.writeSlot owner slot none).writeParent old none) := rfl

/-- A child is replaced in the one slot that holds it. -/
theorem perform_replaceChild (hn : s.node? owner = some ⟨c, parent⟩) (hr : c.slot? slot = some r)
    (hone : ∀ slot', c.slot? slot' = some r → slot' = slot) (new : Option Ref) :
    (replaceChild owner (some r) new).perform s = (exchange owner slot r new).perform s := by
  unfold replaceChild
  rw [perform_bind, perform_get]
  dsimp only
  rw [hn]
  cases c with
  | literal v => cases slot <;> cases hr
  | var n => cases slot <;> cases hr
  | binary op x y =>
    cases slot with
    | left =>
      obtain rfl : x = some r := hr
      simp
    | right =>
      obtain rfl : y = some r := hr
      have hx : x ≠ some r := fun e => nomatch hone .left e
      simp [hx]
    | operand => cases hr
  | unary op x =>
    cases slot with
    | operand =>
      obtain rfl : x = some r := hr
      simp
    | left => cases hr
    | right => cases hr

/-- **Replacing a child.** The old tree loses its parent, the new one takes its place, and nothing
else changes. -/
theorem replaceChild_spec (hn : s.node? owner = some ⟨c, parent⟩) (hc : c.slot? slot = some r)
    (hone : ∀ slot', c.slot? slot' = some r → slot' = slot) (hr : p.ref? = some r)
    (hp : p.In s (some owner)) (hq : q.In s none) (hnd : (p.refs ++ q.refs ++ [owner]).Nodup) :
    (replaceChild owner (some r) q.ref?).Succeeds s fun _ t =>
      p.In t none ∧ q.In t (some owner) ∧ t.node? owner = some ⟨c.setSlot slot q.ref?, parent⟩ ∧
        Relinks (owner :: (p.refs ++ q.refs)) s t := by
  simp only [List.nodup_append, List.mem_append, List.mem_singleton] at hnd
  obtain ⟨⟨hndp, hndq, hpq⟩, -, hout⟩ := hnd
  have hop : owner ∉ p.refs := fun h => hout owner (.inl h) owner rfl rfl
  have hoq : owner ∉ q.refs := fun h => hout owner (.inr h) owner rfl rfl
  have hmem := Planted.mem_refs_of_ref? hr
  have hro : r ≠ owner := fun e => hop (e ▸ hmem)
  -- the slot is emptied and the reference back is cut before the slot is filled again
  let s₁ := (s.writeSlot owner slot none).writeParent r none
  have hrel : Relinks (owner :: p.refs) s s₁ :=
    ((relinks_writeSlot s owner slot none).mono (by simp)).trans
      ((relinks_writeParent _ r none).mono (by simp [hmem]))
  have hp₁ : p.In s₁ none := by
    refine hp.reparent hndp (fun x hx => ?_) fun x hx hxr => ?_
    · obtain rfl : r = x := Option.some.inj (hr.symm.trans hx)
      rw [node?_writeParent, if_pos rfl, node?_writeSlot, if_neg hro]
    · have hxo : x ≠ owner := fun e => hop (e ▸ hx)
      have hxr : x ≠ r := fun e => hxr (e ▸ hr)
      rw [node?_writeParent, if_neg hxr, node?_writeSlot, if_neg hxo]
  have hq₁ : q.In s₁ none := hq.congr fun x hx => hrel.nodes x fun hm => by
    rcases List.mem_cons.mp hm with rfl | hm
    · exact hoq hx
    · exact hpq x hm x hx rfl
  have hn₁ : s₁.node? owner = some ⟨c.setSlot slot none, parent⟩ := by
    rw [node?_writeParent, if_neg (Ne.symm hro), node?_writeSlot, if_pos rfl, hn]
    rfl
  have hfill := setSlot_spec hq₁ hndq hoq hn₁ (Cell.slot?_setSlot_none slot c)
  unfold Succeeds Ensures at hfill ⊢
  rw [perform_replaceChild hn hc hone, perform_exchange]
  refine Succeeds.mono hfill ?_
  rintro - t ⟨hq₂, hn₂, hrel₂⟩
  refine ⟨hp₁.congr fun x hx => hrel₂.nodes x fun hm => ?_, hq₂, ?_, ?_⟩
  · rcases List.mem_cons.mp hm with rfl | hm
    · exact hop hx
    · exact hpq x hx x hm rfl
  · rw [hn₂, Cell.setSlot_setSlot]
  · exact (hrel.mono (List.cons_subset_cons _ (by simp))).trans
      (hrel₂.mono (List.cons_subset_cons _ (by simp)))

/-! ## Making nodes -/

/-- A tree was made beside what is in use: it stands without a parent, and nothing else changed. -/
structure Made (b : Int) (used : List Ref) (s : Store κ) (p : Planted κ) (t : Store κ) : Prop where
  stands : p.In t none
  accounted : t.Accounted b (p.refs ++ used)
  kept : Kept used s t

theorem obtain_spec (h : s.Accounted b used) (c : Cell κ) :
    (obtain .pool c).Succeeds s fun r t =>
      t.node? r = some ⟨c, none⟩ ∧ t.Accounted b (r :: used) ∧ Kept used s t ∧
        t.pool = s.pool.draw c.kind := by
  obtain ⟨hn, ha, hk, hp⟩ := take_spec h.toApart c rfl
  refine ensures_of_ok rfl ⟨hn, ⟨ha, ?_⟩, hk, hp⟩
  rw [hp, Pool.balance_draw, h.balance, List.length_cons]
  omega

theorem newLiteral_spec (h : s.Accounted b used) (v : κ) :
    (newLiteral .pool v).Succeeds s fun r t =>
      Made b used s (.literal r v) t ∧ t.pool = s.pool.draw .literal :=
  (obtain_spec h (.literal v)).mono fun _ _ ⟨hn, ha, hk, hp⟩ => ⟨⟨hn, ha, hk⟩, hp⟩

/-- A variable whose name is refused uses up a node all the same, which is lost. -/
theorem newVar_spec (h : s.Accounted b used) (n : Name) :
    (newVar .pool n).Ensures s
      (fun r t => n.isLetter = true ∧ Made b used s (.var r n) t ∧ t.pool = s.pool.draw .var)
      fun f t => f = .invalidName n ∧ n.isLetter = false ∧ t.Accounted (b + 1) used ∧ Kept used s t := by
  unfold newVar
  refine (obtain_spec h (.var n)).bind ?_
  rintro r t ⟨hn, ha, hk, hp⟩
  cases hl : n.isLetter with
  | true => exact ensures_pure ⟨rfl, ⟨hn, ha, hk⟩, hp⟩
  | false =>
    refine ensures_throw ⟨rfl, rfl, ⟨ha.toApart.sublist (List.sublist_cons_self _ _), ?_⟩, hk⟩
    rw [ha.balance, List.length_cons]
    omega

/-- **Making a node over two trees.** -/
theorem newBinary_spec (op : Operator) (hp : p.In s none) (hq : q.In s none)
    (h : s.Accounted b (p.refs ++ q.refs ++ used)) :
    (newBinary .pool op p.ref? q.ref?).Succeeds s fun r t =>
      Made b used s (.binary r op p q) t ∧ t.pool = s.pool.draw .binary := by
  refine (obtain_spec h _).bind ?_
  rintro r t ⟨hn, ha, hk, hpool⟩
  have hnd := ha.nodup_used
  simp only [List.nodup_cons, List.nodup_append, List.mem_append, not_or] at hnd
  obtain ⟨⟨⟨hrp, hrq⟩, hru⟩, ⟨hndp, hndq, hpq⟩, -, hdis⟩ := hnd
  refine Succeeds.bind (setSlot_spec (hp.kept hk (by simp)) hndp hrp hn rfl) ?_
  rintro - t₁ ⟨hp₁, hn₁, hr₁⟩
  have hq₁ : q.In t₁ none := (hq.kept hk (by simp)).congr fun x hx => hr₁.nodes x fun hm => by
    rcases List.mem_cons.mp hm with rfl | hm
    · exact hrq hx
    · exact hpq x hm x hx rfl
  refine Succeeds.bind (setSlot_spec hq₁ hndq hrq hn₁ rfl) ?_
  rintro - t₂ ⟨hq₂, hn₂, hr₂⟩
  have hp₂ : p.In t₂ (some r) := hp₁.congr fun x hx => hr₂.nodes x fun hm => by
    rcases List.mem_cons.mp hm with rfl | hm
    · exact hrp hx
    · exact hpq x hx x hm rfl
  have hall : Relinks (r :: (p.refs ++ q.refs)) t t₂ :=
    (hr₁.mono (List.cons_subset_cons _ (by simp))).trans (hr₂.mono (List.cons_subset_cons _ (by simp)))
  refine ensures_pure ⟨⟨⟨hn₂, hp₂, hq₂⟩, ?_, ?_⟩, hall.pool.trans hpool⟩
  · refine (hall.accounted ha).perm ?_
    refine List.perm_iff_count.mpr fun x => ?_
    simp only [Planted.refs, List.count_append, List.count_cons, List.count_nil]
    omega
  · refine (hk.subset (by simp)).trans (hall.kept fun x hx hm => ?_)
    rcases List.mem_cons.mp hm with rfl | hm
    · exact hru hx
    · exact hdis x (List.mem_append.mp hm) x hx rfl

/-- **Making a node over one tree.** -/
theorem newUnary_spec (op : Operator) (hp : p.In s none) (h : s.Accounted b (p.refs ++ used)) :
    (newUnary .pool op p.ref?).Succeeds s fun r t =>
      Made b used s (.unary r op p) t ∧ t.pool = s.pool.draw .unary := by
  unfold newUnary
  refine (obtain_spec h _).bind ?_
  rintro r t ⟨hn, ha, hk, hpool⟩
  have hnd := ha.nodup_used
  simp only [List.nodup_cons, List.nodup_append, List.mem_append, not_or] at hnd
  obtain ⟨⟨hrp, hru⟩, hndp, -, hdis⟩ := hnd
  refine Succeeds.bind (setSlot_spec (hp.kept hk (by simp)) hndp hrp hn rfl) ?_
  rintro - t₁ ⟨hp₁, hn₁, hr₁⟩
  refine ensures_pure ⟨⟨⟨hn₁, hp₁⟩, ?_, ?_⟩, hr₁.pool.trans hpool⟩
  · refine (hr₁.accounted ha).perm ?_
    refine List.perm_iff_count.mpr fun x => ?_
    simp only [Planted.refs, List.count_append, List.count_cons, List.count_nil]
    omega
  · refine (hk.subset (by simp)).trans (hr₁.kept fun x hx hm => ?_)
    rcases List.mem_cons.mp hm with rfl | hm
    · exact hru hx
    · exact hdis x hm x hx rfl

/-- A node over two trees that were made one after the other. -/
theorem newBinary_after (op : Operator) (hp : Made b used s p t) (hq : Made b (p.refs ++ used) t q u) :
    (newBinary .pool op p.ref? q.ref?).Succeeds u fun r v =>
      Made b used s (.binary r op p q) v ∧ v.pool = u.pool.draw .binary := by
  have hp' : p.In u none := hp.stands.kept hq.kept (List.subset_append_left _ _)
  have ha : u.Accounted b (p.refs ++ q.refs ++ used) :=
    hq.accounted.perm (List.perm_iff_count.mpr fun x => by
      simp only [List.count_append]
      omega)
  have hk : Kept used s u := hp.kept.trans (hq.kept.subset (List.subset_append_right _ _))
  refine (newBinary_spec op hp' hq.stands ha).mono ?_
  rintro r v ⟨hm, hpool⟩
  exact ⟨⟨hm.stands, hm.accounted, hk.trans hm.kept⟩, hpool⟩

/-- The same where the right one was made first. -/
theorem newBinary_before (op : Operator) (hq : Made b used s q t)
    (hp : Made b (q.refs ++ used) t p u) :
    (newBinary .pool op p.ref? q.ref?).Succeeds u fun r v =>
      Made b used s (.binary r op p q) v ∧ v.pool = u.pool.draw .binary := by
  have hq' : q.In u none := hq.stands.kept hp.kept (List.subset_append_left _ _)
  have ha : u.Accounted b (p.refs ++ q.refs ++ used) := by simpa using hp.accounted
  have hk : Kept used s u := hq.kept.trans (hp.kept.subset (List.subset_append_right _ _))
  refine (newBinary_spec op hp.stands hq' ha).mono ?_
  rintro r v ⟨hm, hpool⟩
  exact ⟨⟨hm.stands, hm.accounted, hk.trans hm.kept⟩, hpool⟩

/-- A node over a tree that was just made. -/
theorem newUnary_after (op : Operator) (hp : Made b used s p t) :
    (newUnary .pool op p.ref?).Succeeds t fun r u =>
      Made b used s (.unary r op p) u ∧ u.pool = t.pool.draw .unary := by
  refine (newUnary_spec op hp.stands hp.accounted).mono ?_
  rintro r u ⟨hm, hpool⟩
  exact ⟨⟨hm.stands, hm.accounted, hp.kept.trans hm.kept⟩, hpool⟩

end Store

end Fluxion
