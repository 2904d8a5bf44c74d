import Fluxion.Proofs.Holdings
import Fluxion.Simplify.InPlace

/-!
# Seats of subtrees

A subtree hangs at the root of an expression or in a slot of a node: this is its seat. Putting another
tree into a seat changes the expression or the node that owns the slot, and nothing else in use. All
changes of a tree in place are such moves, so a change is stated for a tree in any seat.

* `Frame` is an operation with one of its slots left open, so that what holds of the operands of an
  operation is stated once for all slots.
* `Store.Seated` says that a tree hangs in a seat.
* `Store.Replaced` says that a seat holds another tree and that nothing else changed.
* `Store.replaceSubtree_spec` puts a new tree into a seat.
* `Simplifier.promote_spec` moves an operand to the seat of its operation.
-/

namespace Fluxion

open Act

namespace Cell

variable {κ : Type} {c : Cell κ} {slot slot' : Slot} {r : Ref}

/-- A slot that holds something is there. -/
theorem slot?_setSlot (h : c.slot? slot = some r) (x : Option Ref) :
    (c.setSlot slot x).slot? slot = x := by
  cases slot <;> cases c <;> first | rfl | cases h

theorem slot?_setSlot_ne (h : slot' ≠ slot) (x : Option Ref) (c : Cell κ) :
    (c.setSlot slot x).slot? slot' = c.slot? slot' := by
  cases slot <;> cases slot' <;> cases c <;> first | rfl | exact absurd rfl h

/-- A slot with what it holds already is the same slot. -/
theorem setSlot_slot? (slot : Slot) (c : Cell κ) : c.setSlot slot (c.slot? slot) = c := by
  cases slot <;> cases c <;> rfl

end Cell

/-! ## Operations with an open slot -/

/-- A planted operation with one of its slots left open. -/
inductive Frame (κ : Type) where
  | left (owner : Ref) (op : Operator) (right : Planted κ)
  | right (owner : Ref) (op : Operator) (left : Planted κ)
  | operand (owner : Ref) (op : Operator)

namespace Frame

variable {κ : Type}

/-- The operation with a tree in the open slot. -/
def fill : Frame κ → Planted κ → Planted κ
  | left r op q, p => .binary r op p q
  | right r op p, q => .binary r op p q
  | operand r op, p => .unary r op p

/-- The node of the operation. -/
def owner : Frame κ → Ref
  | left r .. => r
  | right r .. => r
  | operand r _ => r

/-- The open slot. -/
def slot : Frame κ → Slot
  | left .. => .left
  | right .. => .right
  | operand .. => .operand

/-- What is in the other slot. -/
def other : Frame κ → Planted κ
  | left _ _ q => q
  | right _ _ p => p
  | operand .. => .absent

/-- The content of the node, with a reference in the open slot. -/
def cell : Frame κ → Option Ref → Cell κ
  | left _ op q, x => .binary op x q.ref?
  | right _ op p, x => .binary op p.ref? x
  | operand _ op, x => .unary op x

variable {s : Store κ} {parent : Option Ref} {p : Planted κ} {x y : Option Ref} {r : Ref} {slot' : Slot}

@[simp] theorem ref?_fill (F : Frame κ) (p : Planted κ) : (F.fill p).ref? = some F.owner := by
  cases F <;> rfl

theorem owner_eq (F : Frame κ) (h : (F.fill p).ref? = some r) : F.owner = r :=
  Option.some.inj ((F.ref?_fill p).symm.trans h)

/-- A filled frame stands in a store when the node, the tree in the open slot and the other operand do. -/
theorem in_fill (F : Frame κ) : (F.fill p).In s parent ↔
    s.node? F.owner = some ⟨F.cell p.ref?, parent⟩ ∧ p.In s (some F.owner) ∧
      F.other.In s (some F.owner) := by
  cases F with
  | left r op q => exact Iff.rfl
  | right r op q => exact and_congr_right fun _ => and_comm
  | operand r op => exact and_congr_right fun _ => (iff_of_eq (and_true _)).symm

theorem perm_refs_fill (F : Frame κ) (p : Planted κ) :
    (F.fill p).refs.Perm (p.refs ++ (F.other.refs ++ [F.owner])) := by
  cases F with
  | left r op q => exact .of_eq (List.append_assoc _ _ _)
  | right r op q => exact (List.perm_append_comm.append_right [r]).trans (.of_eq (List.append_assoc _ _ _))
  | operand r op => exact .refl _

/-- While the tree in the open slot is seen to, the other nodes are in use elsewhere. -/
theorem perm_refs_fill_append (F : Frame κ) (p : Planted κ) (used : List Ref) :
    ((F.fill p).refs ++ used).Perm (p.refs ++ (F.other.refs ++ F.owner :: used)) := by
  refine ((F.perm_refs_fill p).append_right used).trans (.of_eq ?_)
  simp only [List.append_assoc, List.singleton_append]

theorem sublist_refs_fill (F : Frame κ) (p : Planted κ) : p.refs.Sublist (F.fill p).refs := by
  cases F with
  | left r op q => exact (List.sublist_append_left _ _).trans (List.sublist_append_left _ _)
  | right r op q => exact (List.sublist_append_right _ _).trans (List.sublist_append_left _ _)
  | operand r op => exact List.sublist_append_left _ _

theorem refs_fill_absent_subset (F : Frame κ) (p : Planted κ) :
    (F.fill .absent).refs ⊆ (F.fill p).refs := fun _ hx =>
  (F.perm_refs_fill p).mem_iff.mpr (List.mem_append_right _ ((F.perm_refs_fill .absent).mem_iff.mp hx))

theorem isSpelled_fill (F : Frame κ) : (F.fill p).tree.isSpelled = true ↔
    p.tree.isSpelled = true ∧ F.other.tree.isSpelled = true := by
  cases F <;> simp [fill, other, Planted.tree, Tree.isSpelled, and_comm]

@[simp] theorem slot?_cell (F : Frame κ) (x : Option Ref) : (F.cell x).slot? F.slot = x := by
  cases F <;> rfl

@[simp] theorem setSlot_cell (F : Frame κ) (x y : Option Ref) :
    (F.cell x).setSlot F.slot y = F.cell y := by
  cases F <;> rfl

/-- Only the other operand is in another slot. -/
theorem ref?_other (F : Frame κ) (hne : slot' ≠ F.slot) (h : (F.cell x).slot? slot' = some r) :
    F.other.ref? = some r := by
  cases F <;> cases slot' <;> first | exact h | exact absurd rfl hne | cases h

theorem slot?_eq (F : Frame κ) (h : (F.fill p).In s parent) : s.slot? F.owner F.slot = p.ref? := by
  rw [Store.slot?, (F.in_fill.mp h).1, Option.bind_some, F.slot?_cell]

end Frame

/-! ## Seats -/

/-- Where a subtree hangs. -/
inductive Seat where
  | root
  | slot (owner : Ref) (slot : Slot)

namespace Seat

variable {κ : Type}

/-- The node that owns a seat. -/
def owner? : Seat → Option Ref
  | root => none
  | slot o _ => some o

/-- The store with something else in a seat of an expression. -/
def assign (e : Expression) (x : Option Ref) (s : Store κ) : Seat → Store κ
  | root => s.writeRoot e x
  | slot o sl => s.writeSlot o sl x

/-- A seat holds a reference, and its owner holds nothing else outside `used`. -/
def Has (e : Expression) (used : List Ref) (s : Store κ) (r : Ref) : Seat → Prop
  | root => s.roots[e.place]? = some (some r)
  | slot o sl => o ∈ used ∧ ∃ c parent, s.node? o = some ⟨c, parent⟩ ∧ c.slot? sl = some r ∧
      ∀ sl' x, sl' ≠ sl → c.slot? sl' = some x → x ∈ used

end Seat

namespace Store

variable {κ : Type} {s t u : Store κ} {e : Expression} {seat : Seat} {used : List Ref} {b : Int}
  {p q : Planted κ} {r r' : Ref} {x y : Option Ref}

/-! ## Moves -/

/-- Stores that agree on what is in use still do after the same assignment. -/
theorem Kept.assign (h : Kept used s t) (x : Option Ref) :
    Kept used (seat.assign e x s) (seat.assign e x t) := by
  cases seat with
  | root =>
    refine ⟨fun r hr => h.nodes r hr, ?_⟩
    simp only [Seat.assign, writeRoot, h.roots]
  | slot o sl =>
    refine ⟨fun r hr => ?_, ?_⟩
    · simp only [Seat.assign, node?_writeSlot]
      by_cases hro : r = o
      · subst hro
        rw [if_pos rfl, if_pos rfl, h.nodes r hr]
      · rw [if_neg hro, if_neg hro]
        exact h.nodes r hr
    · simp only [Seat.assign, (relinks_writeSlot _ o sl x).roots]
      exact h.roots

/-- Of two assignments the last one counts. -/
theorem kept_assign_assign (seat : Seat) (e : Expression) (x y : Option Ref) (s : Store κ) :
    Kept used (seat.assign e y s) (seat.assign e y (seat.assign e x s)) := by
  cases seat with
  | root =>
    refine ⟨fun r hr => rfl, ?_⟩
    simp [Seat.assign, writeRoot]
  | slot o sl =>
    refine ⟨fun r hr => ?_, ?_⟩
    · simp only [Seat.assign, node?_writeSlot]
      by_cases hro : r = o
      · simp only [hro, if_true, Option.map_map]
        congr 1
        funext n
        simp
      · simp only [hro, if_false]
    · simp only [Seat.assign, (relinks_writeSlot _ o sl _).roots]

end Store

namespace Seat

open Store

variable {κ : Type} {s t : Store κ} {e : Expression} {seat : Seat} {used : List Ref} {r r' : Ref}

/-- Assigning what a seat holds already changes nothing. -/
theorem Has.kept_assign (h : seat.Has e used s r) : Kept used (seat.assign e (some r) s) s := by
  cases seat with
  | root =>
    refine ⟨fun _ _ => rfl, ?_⟩
    refine Array.ext_getElem? fun i => ?_
    have h : s.roots[e.place]? = some (some r) := h
    simp only [assign, writeRoot]
    by_cases hi : e.place = i
    · subst hi
      rw [Array.getElem?_setIfInBounds_self_of_lt (Array.getElem?_eq_some_iff.mp h).1, h]
    · rw [Array.getElem?_setIfInBounds_ne hi]
  | slot o sl =>
    obtain ⟨-, c, parent, hn, hc, -⟩ := h
    refine ⟨fun x _ => ?_, (relinks_writeSlot _ o sl _).roots.symm⟩
    rw [assign, node?_writeSlot]
    by_cases hx : x = o
    · rw [if_pos hx, hx, hn, ← hc, Option.map_some, Cell.setSlot_slot?]
    · rw [if_neg hx]

/-- A seat that was assigned another reference holds that. -/
theorem Has.assigned (h : seat.Has e used s r) (hk : Kept used (seat.assign e (some r') s) t) :
    seat.Has e used t r' := by
  cases seat with
  | root =>
    have h : s.roots[e.place]? = some (some r) := h
    unfold Has
    rw [hk.roots]
    exact Array.getElem?_setIfInBounds_self_of_lt (Array.getElem?_eq_some_iff.mp h).1
  | slot o sl =>
    obtain ⟨ho, c, parent, hn, hc, hother⟩ := h
    refine ⟨ho, c.setSlot sl (some r'), parent, ?_, Cell.slot?_setSlot hc _, fun sl' x hsl hx => ?_⟩
    · rw [hk.nodes o ho, assign, node?_writeSlot, if_pos rfl, hn]
      rfl
    · rw [Cell.slot?_setSlot_ne hsl] at hx
      exact hother sl' x hsl hx

/-- A seat holds what it held where nothing in use changed. -/
theorem Has.kept (h : seat.Has e used s r) (hk : Kept used s t) : seat.Has e used t r :=
  h.assigned (h.kept_assign.trans hk)

end Seat

namespace Store

variable {κ : Type} {s t u : Store κ} {e : Expression} {seat : Seat} {used used' : List Ref} {b : Int}
  {p q : Planted κ} {r r' : Ref}

/-- The tree `p` hangs in a seat of an expression. -/
structure Seated (e : Expression) (seat : Seat) (used : List Ref) (s : Store κ) (p : Planted κ)
    (r : Ref) : Prop where
  ref : p.ref? = some r
  isIn : p.In s seat.owner?
  has : seat.Has e used s r

/-- A seat holds the tree `q` now, and nothing else in use changed. -/
structure Replaced (b : Int) (e : Expression) (seat : Seat) (used : List Ref) (s : Store κ)
    (q : Planted κ) (t : Store κ) : Prop where
  isIn : q.In t seat.owner?
  accounted : t.Accounted b (q.refs ++ used)
  kept : Kept used (seat.assign e q.ref? s) t

theorem Seated.root?_eq (h : Seated e .root used s p r) : s.root? e = some r := root?_eq_some.mpr h.has

theorem seated_of_root? (hp : p.In s none) (hr : p.ref? = some r) (h : s.root? e = some r) :
    Seated e .root used s p r :=
  ⟨hr, hp, root?_eq_some.mp h⟩

theorem Replaced.size_roots (h : Replaced b e seat used s q t) : t.roots.size = s.roots.size := by
  rw [h.kept.roots]
  cases seat with
  | root => exact Array.size_setIfInBounds
  | slot o sl => exact congrArg Array.size (relinks_writeSlot s o sl _).roots

/-- Another tree at the root of an expression is the tree of that expression and of no other. -/
theorem Replaced.root?_eq (h : Replaced b e .root used s q t) (hlt : e.place < s.roots.size)
    (e' : Expression) : t.root? e' = if e' = e then q.ref? else s.root? e' := by
  have hroots : t.root? e' = (s.writeRoot e q.ref?).root? e' := by
    rw [root?, h.kept.roots]
    rfl
  rw [hroots, root?_writeRoot]
  simp only [hlt, and_true]

/-- What hung in a seat and was not touched still hangs there. -/
theorem Seated.replaced (h : Seated e seat used s p r) (ha : s.Accounted b (p.refs ++ used)) :
    Replaced b e seat used s p s :=
  ⟨h.isIn, ha, h.ref ▸ h.has.kept_assign⟩

theorem Seated.of_replaced (h : Seated e seat used s p r) (hq : Replaced b e seat used s q t)
    (hr : q.ref? = some r') : Seated e seat used t q r' :=
  ⟨hr, hq.isIn, h.has.assigned (hr ▸ hq.kept)⟩

theorem Seated.kept (h : Seated e seat used s p r) (hk : Kept (p.refs ++ used) s t) :
    Seated e seat used t p r :=
  ⟨h.ref, h.isIn.kept hk (List.subset_append_left _ _),
    h.has.kept (hk.subset (List.subset_append_right _ _))⟩

/-- Two replacements in one seat are one. -/
theorem Replaced.trans (h : Replaced b e seat used s p t) (h' : Replaced b e seat used t q u) :
    Replaced b e seat used s q u :=
  ⟨h'.isIn, h'.accounted,
    ((kept_assign_assign seat e p.ref? q.ref? s).trans (h.kept.assign q.ref?)).trans h'.kept⟩

/-- A replacement that starts from a store that agrees on what is in use. -/
theorem Replaced.after (h : Replaced b e seat used t q u) (hk : Kept used s t) :
    Replaced b e seat used s q u :=
  ⟨h.isIn, h.accounted, (hk.assign q.ref?).trans h.kept⟩

/-! ## Replacing a subtree -/

/-- The other slots of an owner do not hold what is outside `used`. -/
theorem slot_unique {c : Cell κ} {slot : Slot}
    (hother : ∀ sl' x, sl' ≠ slot → c.slot? sl' = some x → x ∈ used) (hr : r ∉ used) :
    ∀ sl', c.slot? sl' = some r → sl' = slot := by
  intro sl' hsl
  by_contra hne
  exact hr (hother sl' r hne hsl)

/-- Puts `replacement` where `target` is, in the expression or in the parent of `target`, and leaves the
subtree of `target` cut off. -/
def relink (e : Expression) (target : Ref) (replacement : Option Ref) : Act (Store κ) Unit := do
  match (← get).parent? target with
  | some owner => replaceChild owner (some target) replacement
  | none =>
    if (← get).root? e = some target then setRoot e replacement else throw .strayTarget

theorem replaceSubtree_eq (e : Expression) (target : Ref) (replacement : Option Ref) :
    (replaceSubtree e target replacement : Act (Store κ) Unit) = (do
      relink e target replacement
      release (some target)) := by
  simp only [replaceSubtree, relink, bind_assoc]
  congr 1
  funext s
  cases s.parent? target with
  | some owner => rfl
  | none =>
    simp only [bind_assoc]
    congr 1
    funext s
    split <;> rfl

/-- Putting a tree into a seat cuts off what hung there. -/
theorem relink_spec (hp : Seated e seat used s p r) (hq : q.In s none)
    (h : s.Accounted b (p.refs ++ (q.refs ++ used))) :
    (relink e r q.ref?).Succeeds s fun _ t => p.In t none ∧ q.In t seat.owner? ∧
      t.Accounted b (p.refs ++ (q.refs ++ used)) ∧ Kept used (seat.assign e q.ref? s) t := by
  have hnd := h.nodup_used
  simp only [List.nodup_append, List.mem_append] at hnd
  obtain ⟨hndp, ⟨hndq, -, hqu⟩, hpqu⟩ := hnd
  unfold relink
  refine ensures_get ?_
  rw [hp.isIn.parent?_eq hp.ref]
  cases seat with
  | root =>
    refine ensures_get ?_
    rw [if_pos hp.root?_eq]
    refine (setRoot_spec hq e).mono ?_
    rintro - _ rfl
    exact ⟨hp.isIn.congr fun _ _ => rfl, hq.congr fun _ _ => rfl, ⟨⟨h.nodup, h.bound⟩, h.balance⟩, .refl _ _⟩
  | slot o sl =>
    obtain ⟨ho, c, parent, hn, hc, hother⟩ := hp.has
    have hou : ∀ x ∈ used, x ∉ p.refs ∧ x ∉ q.refs := fun x hx =>
      ⟨fun hm => hpqu x hm x (.inr hx) rfl, fun hm => hqu x hm x hx rfl⟩
    have hnd' : (p.refs ++ q.refs ++ [o]).Nodup := by
      simp only [List.nodup_append, List.mem_append, List.mem_singleton]
      refine ⟨⟨hndp, hndq, fun x hx y hy => hpqu x hx y (.inl hy)⟩, List.nodup_singleton o, ?_⟩
      rintro x hx y rfl rfl
      exact hx.elim (hou x ho).1 (hou x ho).2
    have hru : r ∉ used := fun hm => (hou r hm).1 (Planted.mem_refs_of_ref? hp.ref)
    refine (replaceChild_spec hn hc (slot_unique hother hru) hp.ref hp.isIn hq hnd').mono ?_
    rintro - t ⟨hp₁, hq₁, hn₁, hrel⟩
    refine ⟨hp₁, hq₁, hrel.accounted h, fun x hx => ?_, ?_⟩
    · rw [Seat.assign, node?_writeSlot]
      by_cases hxo : x = o
      · rw [if_pos hxo, hxo, hn₁, hn]
        rfl
      · rw [if_neg hxo]
        refine hrel.nodes x ?_
        simp [hxo, hou x hx]
    · rw [hrel.roots]
      exact (relinks_writeSlot s o sl _).roots.symm

/-- **Putting a tree into a seat.** What hung there is given back. -/
theorem replaceSubtree_spec (hp : Seated e seat used s p r) (hq : q.In s none)
    (h : s.Accounted b (p.refs ++ (q.refs ++ used))) :
    (replaceSubtree e r q.ref?).Succeeds s fun _ t => Replaced b e seat used s q t := by
  rw [replaceSubtree_eq]
  refine (relink_spec hp hq h).bind ?_
  rintro - t ⟨hp₁, hq₁, ha, hk⟩
  have hfree := release_spec hp₁ ha
  rw [hp.ref] at hfree
  refine hfree.mono fun _ u hf => ⟨?_, hf.accounted, ?_⟩
  · exact hq₁.kept hf.kept (List.subset_append_left _ _)
  · exact hk.trans (hf.kept.subset (List.subset_append_right _ _))

/-- Cutting a child off leaves its slot empty. -/
theorem detach_spec {c : Cell κ} {slot : Slot} {parent : Option Ref} (hne : p ≠ .absent)
    (hn : s.node? r = some ⟨c, parent⟩) (hc : c.slot? slot = p.ref?)
    (hother : ∀ sl' x, sl' ≠ slot → c.slot? sl' = some x → x ∉ p.refs) (hp : p.In s (some r))
    (hnd : (p.refs ++ [r]).Nodup) :
    (detach r p.ref?).Succeeds s fun _ t =>
      p.In t none ∧ t.node? r = some ⟨c.setSlot slot none, parent⟩ ∧ Relinks (r :: p.refs) s t := by
  obtain ⟨x, hx⟩ : ∃ x, p.ref? = some x := by
    cases hr : p.ref? with
    | none => exact absurd (Planted.eq_absent_of_ref? hr) hne
    | some x => exact ⟨x, rfl⟩
  have hone : ∀ sl', c.slot? sl' = some x → sl' = slot := by
    intro sl' hsl
    by_contra hne
    exact hother sl' x hne hsl (Planted.mem_refs_of_ref? hx)
  have hcut := replaceChild_spec (q := .absent) hn (hc.trans hx) hone hx hp trivial
    (by simpa [Planted.refs] using hnd)
  unfold detach
  rw [hx]
  refine hcut.mono ?_
  rintro - t ⟨hp₁, -, hn₁, hrel⟩
  exact ⟨hp₁, hn₁, by simpa [Planted.refs] using hrel⟩

end Store

namespace Simplifier

open Store

variable {κ : Type} {s t : Store κ} {e : Expression} {seat : Seat} {used : List Ref} {b : Int}
  {p q x : Planted κ} {r : Ref} {op : Operator} {slot : Slot}

/-- An operand was cut off its operation, which still hangs in its seat. -/
structure Detached (b : Int) (e : Expression) (seat : Seat) (used : List Ref) (s : Store κ)
    (x rest : Planted κ) (r : Ref) (t : Store κ) : Prop where
  seated : Seated e seat used t rest r
  isIn : x.In t none
  accounted : t.Accounted b (rest.refs ++ (x.refs ++ used))
  kept : Kept used s t

theorem detached_of_relinks {rest : Planted κ} (hp : Seated e seat used s p r)
    (h : s.Accounted b (rest.refs ++ (x.refs ++ used))) (hr : rest.ref? = some r) (hx : x.In t none)
    (hrest : rest.In t seat.owner?) (hrel : Relinks (r :: x.refs) s t) :
    Detached b e seat used s x rest r t := by
  have hnd := h.nodup_used
  simp only [List.nodup_append, List.mem_append] at hnd
  have hk : Kept used s t := hrel.kept fun y hy hm => by
    rcases List.mem_cons.mp hm with rfl | hm
    · exact hnd.2.2 y (Planted.mem_refs_of_ref? hr) y (.inr hy) rfl
    · exact hnd.2.1.2.2 y hm y hy rfl
  exact ⟨⟨hr, hrest, hp.has.kept hk⟩, hx, hrel.accounted h, hk⟩

/-- Cutting an operand off its operation. -/
theorem detach_operand_spec (F : Frame κ) (hp : Seated e seat used s (F.fill p) r)
    (h : s.Accounted b ((F.fill p).refs ++ used)) (hne : p ≠ .absent) :
    (detach r p.ref?).Succeeds s fun _ t => Detached b e seat used s p (F.fill .absent) r t := by
  obtain rfl := F.owner_eq hp.ref
  obtain ⟨hn, hpi, hoi⟩ := F.in_fill.mp hp.isIn
  have hnd := (F.perm_refs_fill p).nodup_iff.mp h.nodup_used.of_append_left
  simp only [List.nodup_append, List.mem_append, List.mem_singleton] at hnd
  obtain ⟨hndp, ⟨-, hndr, hro⟩, hout⟩ := hnd
  have hother : ∀ sl' x, sl' ≠ F.slot → (F.cell p.ref?).slot? sl' = some x → x ∉ p.refs :=
    fun sl' x hsl hx hm => hout x hm x (.inl (Planted.mem_refs_of_ref? (F.ref?_other hsl hx))) rfl
  have hndp' : (p.refs ++ [F.owner]).Nodup :=
    List.nodup_append.mpr ⟨hndp, hndr, fun y hy z hz => hout y hy z (.inr (List.mem_singleton.mp hz))⟩
  refine (detach_spec hne hn (F.slot?_cell _) hother hpi hndp').mono ?_
  rintro - t ⟨hp₁, hn₁, hrel⟩
  rw [F.setSlot_cell] at hn₁
  have hrest : (F.fill .absent).In t seat.owner? := by
    refine F.in_fill.mpr ⟨hn₁, trivial, hoi.congr fun y hy => hrel.nodes y fun hm => ?_⟩
    rcases List.mem_cons.mp hm with hyr | hm
    · exact hro y hy y hyr rfl
    · exact hout y hm y (.inl hy) rfl
  refine detached_of_relinks hp (h.perm (List.perm_iff_count.mpr fun y => ?_)) (F.ref?_fill _) hp₁ hrest hrel
  have hfull := (F.perm_refs_fill p).count_eq y
  have hcut := (F.perm_refs_fill .absent).count_eq y
  simp only [Planted.refs, List.count_append, List.count_nil] at hfull hcut ⊢
  omega

/-- An operand that is cut off its operation takes the seat of the operation. -/
theorem promote_of_detach {rest : Planted κ} (hx : s.slot? r slot = x.ref?)
    (hdetach : (detach r x.ref?).Succeeds s fun _ t => Detached b e seat used s x rest r t) :
    (promote e r slot).Succeeds s fun _ t => Replaced b e seat used s x t := by
  unfold promote
  refine ensures_get ?_
  rw [hx]
  refine hdetach.bind ?_
  rintro - t ⟨hseat, hx₁, ha, hk⟩
  exact (replaceSubtree_spec hseat hx₁ ha).mono fun _ u hu => hu.after hk

/-- **Moving an operand** to the seat of its operation. -/
theorem promote_spec (F : Frame κ) (hp : Seated e seat used s (F.fill p) r)
    (h : s.Accounted b ((F.fill p).refs ++ used)) (hne : p ≠ .absent) :
    (promote e r F.slot).Succeeds s fun _ t => Replaced b e seat used s p t := by
  have hslot := F.slot?_eq hp.isIn
  rw [F.owner_eq hp.ref] at hslot
  exact promote_of_detach hslot (detach_operand_spec F hp h hne)

end Simplifier

end Fluxion
