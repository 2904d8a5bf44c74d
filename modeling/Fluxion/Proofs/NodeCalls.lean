import Fluxion.Proofs.Recycling
import Fluxion.Scalar.Double

/-!
# Calls on nodes

The calls on nodes make nodes, assign slots, replace and cut off children, copy trees and give them
back. A run of calls starts from a new store and goes on as long as every call returns and is made on
nodes in use.

After a run the references back agree with the slots but for nodes that were in a slot when nothing
was assigned to it: such a node keeps its reference back. So the links agree just after the runs that
empty no slot by assignment.

* `NodeCall.act` is what a call does, and `NodeCall.dropped` lists the node it drops.
* `Linked.nodeCall` says what one call keeps.
* `NodeRun.linksAgree_iff` says after which runs the links agree.
-/

namespace Fluxion

open Act

/-- A call on nodes. -/
inductive NodeCall (κ : Type) where
  | newVar (source : Store.Source) (name : Name)
  | newLiteral (source : Store.Source) (value : κ)
  | newBinary (source : Store.Source) (op : Operator) (left right : Option Ref)
  | newUnary (source : Store.Source) (op : Operator) (operand : Option Ref)
  | setSlot (owner : Ref) (slot : Slot) (child : Option Ref)
  | replaceChild (owner : Ref) (old new : Option Ref)
  | detach (owner : Ref) (child : Option Ref)
  | copy (r : Ref)
  | release (r : Option Ref)

namespace NodeCall

variable {κ : Type}

/-- What a call does; gives the node it makes. -/
def act : NodeCall κ → Act (Store κ) (Option Ref)
  | newVar source name => do return some (← Store.newVar source name)
  | newLiteral source value => do return some (← Store.newLiteral source value)
  | newBinary source op left right => do return some (← Store.newBinary source op left right)
  | newUnary source op operand => do return some (← Store.newUnary source op operand)
  | setSlot owner slot child => do
    Store.setSlot owner slot child
    return none
  | replaceChild owner old new => do
    Store.replaceChild owner old new
    return none
  | detach owner child => do
    Store.detach owner child
    return none
  | copy r => Store.copy r
  | release r => do
    Store.release r
    return none

/-- The nodes a call is made on. -/
def operands : NodeCall κ → List Ref
  | newVar .. | newLiteral .. => []
  | newBinary _ _ left right => left.toList ++ right.toList
  | newUnary _ _ operand => operand.toList
  | setSlot owner _ child => owner :: child.toList
  | replaceChild owner old new => owner :: old.toList ++ new.toList
  | detach owner child => owner :: child.toList
  | copy r => [r]
  | release r => r.toList

/-- The slots a call assigns. -/
def targets : NodeCall κ → List (Ref × Slot)
  | setSlot owner slot _ => [(owner, slot)]
  | _ => []

/-- A call is allowed on nodes in use, and an assignment to a slot that is there. -/
structure Allowed (s : Store κ) (call : NodeCall κ) : Prop where
  operands : ∀ r ∈ call.operands, s.InUse r
  targets : ∀ x ∈ call.targets, s.HasSlot x.1 x.2

instance (s : Store κ) (call : NodeCall κ) : Decidable (call.Allowed s) :=
  decidable_of_iff ((∀ r ∈ call.operands, s.InUse r) ∧ ∀ x ∈ call.targets, s.HasSlot x.1 x.2)
    ⟨fun h => ⟨h.1, h.2⟩, fun h => ⟨h.operands, h.targets⟩⟩

/-- The node that was in a slot when nothing is assigned to it, and the owner of the slot. -/
def dropped (s : Store κ) : NodeCall κ → List (Ref × Ref)
  | setSlot owner slot none => (s.slot? owner slot).toList.map fun n => (n, owner)
  | _ => []

/-- The store a call leaves. -/
def after (call : NodeCall κ) (s : Store κ) : Store κ := (call.act.perform s).2

/-- A call returns. -/
def Returns (call : NodeCall κ) (s : Store κ) : Prop := (call.act.perform s).1.isOk = true

instance (call : NodeCall κ) (s : Store κ) : Decidable (call.Returns s) :=
  inferInstanceAs (Decidable ((call.act.perform s).1.isOk = true))

end NodeCall

/-- A run of calls on nodes that all return, with the nodes dropped on the way. -/
inductive NodeRun {κ : Type} (s₀ : Store κ) : List (NodeCall κ) → List (Ref × Ref) → Store κ → Prop
  | start : NodeRun s₀ [] [] s₀
  | call {calls : List (NodeCall κ)} {dropped : List (Ref × Ref)} {s : Store κ} (call : NodeCall κ)
      (run : NodeRun s₀ calls dropped s) (allowed : call.Allowed s) (returns : call.Returns s) :
      NodeRun s₀ (calls ++ [call]) (call.dropped s ++ dropped) (call.after s)

/-! ## What a call keeps -/

namespace Store

variable {κ : Type} {s t u : Store κ} {strays : List (Ref × Ref)} {owner r : Ref} {slot : Slot}
  {child : Option Ref} {source : Source} {op : Operator} {copies : Copies}

/-- The links agree but for strays, and the nodes in use before still are. -/
structure Extends (strays : List (Ref × Ref)) (s t : Store κ) : Prop where
  linked : t.Linked strays
  inUse : ∀ x, s.InUse x → t.InUse x

theorem Linked.extends (h : s.Linked strays) : Extends strays s s := ⟨h, fun _ => id⟩

theorem Extends.trans (h : Extends strays s t) (h' : Extends strays t u) : Extends strays s u :=
  ⟨h'.linked, fun x hx => h'.inUse x (h.inUse x hx)⟩

/-- A node was made. -/
def Makes (strays : List (Ref × Ref)) (s : Store κ) (r : Ref) (t : Store κ) : Prop :=
  Extends strays s t ∧ t.InUse r

theorem Obtained.extends {c : Cell κ} (ho : Obtained r c s t) (h : s.Linked strays)
    (hc : ∀ slot, c.slot? slot = none) : Makes strays s r t :=
  ⟨⟨h.obtained ho hc, fun x hx => (ho.inUse x).mpr (.inr hx)⟩, (ho.inUse r).mpr (.inl rfl)⟩

/-- Assigning an empty slot. -/
theorem Linked.setSlot_empty (h : s.Linked strays) (slot : Slot) (ho : s.InUse owner) (hs : s.HasSlot owner slot)
    (he : s.slot? owner slot = none) (hc : ∀ c, child = some c → s.InUse c) :
    (setSlot owner slot child).Ensures s
      (fun _ t => Extends strays s t ∧ (∀ x sl, t.HasSlot x sl ↔ s.HasSlot x sl) ∧
        ∀ sl, sl ≠ slot → t.slot? owner sl = s.slot? owner sl)
      fun _ t => t = s := by
  have hassigned := setSlot_assigned child hs (by simp [he]) fun c hm => (hc c hm).1
  rcases hrun : (setSlot owner slot child).perform s with ⟨res, t⟩
  rw [hrun] at hassigned
  cases hassigned with
  | refused => exact ensures_of_error hrun rfl
  | held _ hsame =>
    exact ensures_of_ok hrun ⟨⟨h.sameLinks hsame, fun x => hsame.inUse.mpr⟩, hsame.hasSlot,
      fun sl _ => hsame.slots owner sl⟩
  | emptied hold =>
    rw [he] at hold
    cases hold
  | filled hp _ hfill =>
    refine ensures_of_ok hrun ⟨⟨h.refilled hfill ho ?_, fun x => hfill.inUse.mpr⟩, hfill.hasSlot,
      fun sl hne => ?_⟩
    · rintro n ⟨⟩
      exact ⟨hc _ rfl, .inl hp⟩
    · rw [hfill.slots, if_neg fun heq => hne heq.2]

theorem Linked.newLiteral (h : s.Linked strays) (source : Source) (v : κ) :
    (newLiteral source v).Succeeds s (Makes strays s) :=
  (obtain_obtained h.apart source _).mono fun _ _ ho => ho.extends h fun slot => by cases slot <;> rfl

theorem Linked.newVar (h : s.Linked strays) (source : Source) (name : Name) :
    (newVar source name).Ensures s (Makes strays s) fun _ t => Extends strays s t := by
  refine (obtain_obtained h.apart source (.var name)).bind fun r t ho => ?_
  have hmakes := ho.extends h fun slot => by cases slot <;> rfl
  split
  · exact ensures_pure hmakes
  · exact ensures_throw hmakes.1

theorem Linked.newBinary (h : s.Linked strays) {left right : Option Ref}
    (hl : ∀ c, left = some c → s.InUse c) (hr : ∀ c, right = some c → s.InUse c) :
    (newBinary source op left right).Ensures s (Makes strays s) fun _ t => Extends strays s t := by
  refine (obtain_obtained h.apart source (.binary op none none)).bind fun r t ho => ?_
  have hc : ∀ slot, (Cell.binary op none none : Cell κ).slot? slot = none := fun slot => by
    cases slot <;> rfl
  obtain ⟨hext, hin⟩ := ho.extends h hc
  have hslot : ∀ slot, t.slot? r slot = none := fun slot => (slot?_eq ho.node slot).trans (hc slot)
  refine ((hext.linked.setSlot_empty .left hin ⟨_, ho.node, rfl⟩ (hslot _) fun c hm =>
    hext.inUse c (hl c hm)).mono (fun _ _ => id) ?_).bind ?_
  · rintro f _ rfl
    exact hext
  rintro - t₁ ⟨hext₁, hshape, hrest⟩
  refine ((hext₁.linked.setSlot_empty .right (hext₁.inUse r hin)
    ((hshape r .right).mpr ⟨_, ho.node, rfl⟩) ?_ fun c hm =>
      hext₁.inUse c (hext.inUse c (hr c hm))).mono (fun _ _ => id) ?_).bind ?_
  · rw [hrest .right (by simp)]
    exact hslot .right
  · rintro f _ rfl
    exact hext.trans hext₁
  rintro - t₂ ⟨hext₂, -⟩
  have hall := hext₁.trans hext₂
  exact ensures_pure ⟨hext.trans hall, hall.inUse r hin⟩

theorem Linked.newUnary (h : s.Linked strays) {operand : Option Ref}
    (ho : ∀ c, operand = some c → s.InUse c) :
    (newUnary source op operand).Ensures s (Makes strays s) fun _ t => Extends strays s t := by
  refine (obtain_obtained h.apart source (.unary op none)).bind fun r t hr => ?_
  have hc : ∀ slot, (Cell.unary op none : Cell κ).slot? slot = none := fun slot => by
    cases slot <;> rfl
  obtain ⟨hext, hin⟩ := hr.extends h hc
  have hslot : t.slot? r .operand = none := (slot?_eq hr.node .operand).trans (hc .operand)
  refine ((hext.linked.setSlot_empty .operand hin ⟨_, hr.node, rfl⟩ hslot fun c hm =>
    hext.inUse c (ho c hm)).mono (fun _ _ => id) ?_).bind ?_
  · rintro f _ rfl
    exact hext
  rintro - t₁ ⟨hext₁, -⟩
  exact ensures_pure ⟨hext.trans hext₁, hext₁.inUse r hin⟩

/-- All copies are in use. -/
def CopiesInUse (copies : Copies) (s : Store κ) : Prop := ∀ r c, copies.find? r = some c → s.InUse c

theorem CopiesInUse.extends (h : CopiesInUse copies s) (hst : Extends strays s t) :
    CopiesInUse copies t := fun r c hc => hst.inUse c (h r c hc)

theorem CopiesInUse.insert {c : Ref} (h : CopiesInUse copies s) (hc : s.InUse c) (r : Ref) :
    CopiesInUse (copies.insert r c) s := by
  rintro (_ | k) d hd
  · cases hd
  · simp only [Copies.find?, Option.bind_some, Std.HashMap.getElem?_insert] at hd
    split at hd
    · exact Option.some.inj hd ▸ hc
    · exact h (some k) d hd

/-- What is kept while trees are copied. -/
def Copying (strays : List (Ref × Ref)) (s : Store κ) (copies : Copies) (t : Store κ) : Prop :=
  Extends strays s t ∧ CopiesInUse copies t

/-- Copying keeps the links, however far it comes. -/
theorem Linked.copyTo (h : s.Linked strays) (hc : CopiesInUse copies s) (depth : Nat) (r : Ref) :
    (copyTo depth r copies).Ensures s (Copying strays s) fun _ t => Extends strays s t := by
  induction depth generalizing s r copies with
  | zero => exact ensures_pure ⟨h.extends, hc⟩
  | succ depth ih =>
    have hstep : ∀ copies c t, Copying strays s copies t →
        (Store.copyTo depth c copies).Ensures t (Copying strays s) fun _ u => Extends strays s u := by
      rintro copies c t ⟨hext, hc⟩
      refine (ih hext.linked hc c).mono ?_ fun f u hu => hext.trans hu
      exact fun copies' u hu => ⟨hext.trans hu.1, hu.2⟩
    refine ensures_get (Ensures.bind (Ensures.foldlM hstep _ ⟨h.extends, hc⟩) ?_)
    rintro copies₁ t ⟨hext, hc₁⟩
    refine ensures_get ?_
    cases hn : t.node? r with
    | none => exact ensures_pure ⟨hext, hc₁⟩
    | some n =>
      -- whatever is made goes into the table
      have hrecord : ∀ {make : Act (Store κ) Ref},
          make.Ensures t (Makes strays t) (fun _ u => Extends strays t u) →
          (make >>= fun c => pure (copies₁.insert r c)).Ensures t (Copying strays s)
            fun _ u => Extends strays s u := by
        intro make hmake
        refine (hmake.mono (fun _ _ => id) fun f u hu => hext.trans hu).bind ?_
        rintro c u ⟨hu, hin⟩
        exact ensures_pure ⟨hext.trans hu, (hc₁.extends hu).insert hin r⟩
      obtain ⟨cell, parent⟩ := n
      cases cell with
      | literal v => exact hrecord (hext.linked.newLiteral .pool v).ensures
      | var name => exact hrecord (hext.linked.newVar .pool name)
      | binary op x y => exact hrecord (hext.linked.newBinary (hc₁ x) (hc₁ y))
      | unary op x => exact hrecord (hext.linked.newUnary (hc₁ x))

/-- An allowed assignment drops what was in the slot if it assigns nothing. -/
theorem Linked.setSlot (h : s.Linked strays) (ho : s.InUse owner) (hs : s.HasSlot owner slot)
    (hc : ∀ c, child = some c → s.InUse c) :
    (setSlot owner slot child).Ensures s
      (fun _ t => t.Linked ((NodeCall.setSlot owner slot child : NodeCall κ).dropped s ++ strays))
      fun _ _ => True := by
  have hassigned := setSlot_assigned child hs (fun o hold => (h.inUse_of_slot? hold).1) fun c hm =>
    (hc c hm).1
  rcases hrun : (Store.setSlot owner slot child).perform s with ⟨res, t⟩
  rw [hrun] at hassigned
  cases hassigned with
  | refused => exact ensures_of_error hrun trivial
  | held hold hsame =>
    refine ensures_of_ok hrun ?_
    have hnone : (NodeCall.setSlot owner slot child : NodeCall κ).dropped s = [] := by
      cases child with
      | none => simp [NodeCall.dropped, hold]
      | some c => rfl
    rw [hnone]
    exact h.sameLinks hsame
  | emptied hold =>
    refine ensures_of_ok hrun ?_
    rw [NodeCall.dropped, hold]
    exact h.emptied hold
  | filled hp _ hfill =>
    refine ensures_of_ok hrun (h.refilled hfill ho ?_)
    rintro n ⟨⟩
    exact ⟨hc _ rfl, .inl hp⟩

/-- A child is replaced, or the call does not return. -/
theorem Linked.replaceChild (h : s.Linked strays) (owner : Ref) (old new : Option Ref)
    (hnew : ∀ c, new = some c → s.InUse c) :
    (replaceChild owner old new).Ensures s
      (fun _ t => t.Linked strays ∧ (∀ x, t.InUse x ↔ s.InUse x) ∧
        (new = none → ∀ o, old = some o → t.parent? o = none))
      fun _ _ => True := by
  have hexchanged := replaceChild_exchanged h owner old new fun c hm => (hnew c hm).1
  rcases hrun : (Store.replaceChild owner old new).perform s with ⟨res, t⟩
  rw [hrun] at hexchanged
  cases hexchanged with
  | refused => exact ensures_of_error hrun trivial
  | torn => exact ensures_of_error hrun trivial
  | replaced hold ho hmay hfill =>
    refine ensures_of_ok hrun ⟨h.refilled hfill (h.inUse_of_holds ho) fun n hn =>
      ⟨hnew n hn, hmay n hn⟩, fun x => hfill.inUse, ?_⟩
    rintro rfl o' ho'
    obtain rfl := Option.some.inj (hold.symm.trans ho')
    simp [hfill.parents, ho]

/-- A tree is given back, or the call does not return. -/
theorem Linked.release (h : s.Linked strays) {r : Option Ref} (hr : ∀ x, r = some x → s.InUse x) :
    (release r).Ensures s (fun _ t => t.Linked strays) fun _ _ => True := by
  cases r with
  | none => exact ensures_pure h
  | some r =>
    -- whatever was above it, the tree is given back once it has no parent
    have hfree : ∀ {t : Store κ}, t.Linked strays → t.InUse r → t.parent? r = none →
        (releaseTo t.nodes.size r t).Linked strays := by
      intro t ht hin hp
      obtain ⟨q, hqr, hq, hnd, hall⟩ := ht.exists_planted hin hp
      exact ht.released hq (ht.releaseTo_released hq hqr hnd hall)
    unfold Store.release
    refine ensures_get ?_
    cases hp : s.parent? r with
    | none => exact ensures_of_ok rfl (hfree h (hr r rfl) hp)
    | some owner =>
      refine (h.replaceChild owner (some r) none (by simp)).bind ?_
      rintro - t ⟨ht, hin, hcut⟩
      exact ensures_of_ok rfl (hfree ht ((hin r).mpr (hr r rfl)) (hcut rfl r rfl))

/-- **What a call keeps.** A call that returns drops at most one node, and makes no other stray. -/
theorem Linked.nodeCall (h : s.Linked strays) {call : NodeCall κ} (ha : call.Allowed s) :
    call.act.Ensures s (fun _ t => t.Linked (call.dropped s ++ strays)) fun _ _ => True := by
  have hops := ha.operands
  cases call with
  | newVar source name =>
    exact ((h.newVar source name).mono (fun _ _ => id) fun _ _ _ => trivial).bind
      fun r t ht => ensures_pure ht.1.linked
  | newLiteral source value =>
    exact (h.newLiteral source value).bind fun r t ht => ensures_pure ht.1.linked
  | newBinary source op left right =>
    have hl : ∀ c, left = some c → s.InUse c := fun c hc => hops c (by simp [NodeCall.operands, hc])
    have hr : ∀ c, right = some c → s.InUse c := fun c hc => hops c (by simp [NodeCall.operands, hc])
    exact ((h.newBinary hl hr).mono (fun _ _ => id) fun _ _ _ => trivial).bind
      fun r t ht => ensures_pure ht.1.linked
  | newUnary source op operand =>
    have ho : ∀ c, operand = some c → s.InUse c := fun c hc => hops c (by simp [NodeCall.operands, hc])
    exact ((h.newUnary ho).mono (fun _ _ => id) fun _ _ _ => trivial).bind
      fun r t ht => ensures_pure ht.1.linked
  | setSlot owner slot child =>
    have hc : ∀ c, child = some c → s.InUse c := fun c hc => hops c (by simp [NodeCall.operands, hc])
    have ho : s.InUse owner := hops owner (by simp [NodeCall.operands])
    exact (h.setSlot ho (ha.targets _ List.mem_cons_self) hc).bind fun _ t ht => ensures_pure ht
  | replaceChild owner old new =>
    have hn : ∀ c, new = some c → s.InUse c := fun c hc => hops c (by simp [NodeCall.operands, hc])
    exact (h.replaceChild owner old new hn).bind fun _ t ht => ensures_pure ht.1
  | detach owner child =>
    exact (h.replaceChild _ _ none (by simp)).bind fun _ t ht => ensures_pure ht.1
  | copy r =>
    have hempty : CopiesInUse ∅ s := by
      rintro (_ | k) c hc
      · cases hc
      · simp [Copies.find?] at hc
    refine ensures_get ?_
    exact ((h.copyTo hempty _ r).mono (fun _ _ => id) fun _ _ _ => trivial).bind
      fun copies t ht => ensures_pure ht.1.linked
  | release r =>
    have hr : ∀ x, r = some x → s.InUse x := fun x hx => hops x (by simp [NodeCall.operands, hx])
    exact (h.release hr).bind fun _ t ht => ensures_pure ht

/-! ## Runs -/

section Stocked

variable [Coefficient κ]

/-- A node without links. -/
def Bare (s : Store κ) : Prop :=
  ∀ r n, s.node? r = some n → n.parent = none ∧ ∀ slot, n.cell.slot? slot = none

theorem Bare.stockUp (h : s.Bare) (k : Kind) (n : Nat) : (stockUp k n s).2.Bare := by
  induction n generalizing s with
  | zero => exact h
  | succ n ih =>
    refine ih fun r m hm => ?_
    simp only [node?, Array.getElem?_push] at hm
    split at hm
    · obtain rfl := Option.some.inj hm
      exact ⟨rfl, fun slot => by cases k <;> cases slot <;> rfl⟩
    · exact h r m hm

/-- **A new store has no links.** -/
theorem stocked_linked (initial room : Int) : (stocked initial room : Store κ).Linked [] := by
  have hbare : (stocked initial room : Store κ).Bare := by
    have hempty : (bare : Store κ).Bare := fun r n hn => by simp [bare, node?] at hn
    exact (((hempty.stockUp .var _).stockUp .literal _).stockUp .binary _).stockUp .unary _
  have hparent : ∀ r, (stocked initial room : Store κ).parent? r = none := fun r => by
    unfold parent?
    cases hn : (stocked initial room : Store κ).node? r with
    | none => rfl
    | some n => exact (hbare r n hn).1
  have hslot : ∀ r slot, (stocked initial room : Store κ).slot? r slot = none := fun r slot => by
    unfold slot?
    cases hn : (stocked initial room : Store κ).node? r with
    | none => rfl
    | some n => exact (hbare r n hn).2 slot
  have howned := stocked_strictlyOwned (κ := κ) initial room
  refine ⟨fun {p slot n} hs => ?_, fun {p slot slot' n} hs => ?_, fun {n p} hp => ?_,
    fun _ hx => absurd hx List.not_mem_nil, ⟨howned.spare, howned.bound⟩, fun r _ => hparent r,
    fun r _ => hslot r⟩
  · rw [hslot] at hs
    cases hs
  · rw [hslot] at hs
    cases hs
  · rw [hparent] at hp
    cases hp

end Stocked

end Store

namespace NodeRun

open Store

variable {κ : Type} {s₀ s : Store κ} {calls : List (NodeCall κ)} {dropped : List (Ref × Ref)}

/-- Over a run the nodes dropped are the strays. -/
theorem linked (run : NodeRun s₀ calls dropped s) (h : s₀.Linked []) : s.Linked dropped := by
  induction run with
  | start => exact h
  | call call _ allowed returns ih =>
    have hkeep := ih.nodeCall allowed
    unfold NodeCall.Returns at returns
    unfold NodeCall.after
    rcases hrun : call.act.perform _ with ⟨_ | r, t⟩
    · rw [hrun] at returns
      cases returns
    · exact hkeep.of_ok hrun

/-- **The links after a run** of calls on nodes from any new store. A node refers back to the one
whose slot it is in, if it is in one slot and no other, or to the one that dropped it. So the
references back agree with the slots just if nothing was ever assigned to a slot that held a node. -/
theorem linksAgree_iff [Coefficient κ] (initial room : Int)
    (run : NodeRun (stocked initial room) calls dropped s) :
    (s.LinksAgree ↔ dropped = []) ∧
      ∀ n p, s.parent? n = some p ↔ s.OnlyIn n p ∨ (n, p) ∈ dropped :=
  have h := run.linked (stocked_linked initial room)
  ⟨h.linksAgree_iff_nil, fun _ _ => h.parent?_iff⟩

/-- The store after a sum was made and cut off its second operand. -/
def cutSum : Store Float :=
  (NodeCall.detach 2 (some 1)).after
    ((NodeCall.newBinary .pool (.known .add) (some 0) (some 1)).after
      ((NodeCall.newVar .pool (some "y")).after
        ((NodeCall.newVar .pool (some "x")).after (stocked 0 0))))

theorem run_cutSum : NodeRun (stocked 0 0)
    [.newVar .pool (some "x"), .newVar .pool (some "y"),
      .newBinary .pool (.known .add) (some 0) (some 1), .detach 2 (some 1)] [] cutSum := by
  refine .call _ (.call _ (.call _ (.call _ .start ?_ ?_) ?_ ?_) ?_ ?_) ?_ ?_
  all_goals decide +kernel

/-- The links agree after a child was cut off. -/
theorem linksAgree_cutSum : cutSum.LinksAgree ∧ ∀ n p, cutSum.parent? n = some p ↔ cutSum.OnlyIn n p := by
  obtain ⟨hagree, hparent⟩ := linksAgree_iff 0 0 run_cutSum
  exact ⟨hagree.mpr rfl, fun n p => by simpa using hparent n p⟩

/-- **Assigning nothing** leaves a reference back to a node that holds no child. -/
theorem emptying_leaves_stray : ∃ s : Store Float, NodeRun (stocked 0 0)
    [.newVar .pool (some "x"), .newUnary .pool (.known .sin) (some 0), .setSlot 1 .operand none]
    [(0, 1)] s ∧ s.parent? 0 = some 1 ∧ ¬s.LinksAgree := by
  let made := (NodeCall.newUnary .pool (.known .sin) (some 0)).after
    ((NodeCall.newVar .pool (some "x")).after (stocked 0 0 : Store Float))
  have hmade : NodeRun (stocked 0 0) [.newVar .pool (some "x"), .newUnary .pool (.known .sin) (some 0)]
      [] made := by
    refine .call _ (.call _ .start ?_ ?_) ?_ ?_
    all_goals decide +kernel
  let emptied := (NodeCall.setSlot 1 .operand none).after made
  have hrun : NodeRun (stocked 0 0)
      ([.newVar .pool (some "x"), .newUnary .pool (.known .sin) (some 0)] ++ [.setSlot 1 .operand none])
      [(0, 1)] emptied := by
    have hdropped : (NodeCall.setSlot 1 .operand none).dropped made = [(0, 1)] := by decide +kernel
    have hcall := NodeRun.call (.setSlot 1 .operand none) hmade (by decide +kernel) (by decide +kernel)
    rw [hdropped] at hcall
    exact hcall
  have hparent : emptied.parent? 0 = some 1 := by decide +kernel
  have hempty : ∀ slot, emptied.slot? 1 slot = none := fun slot => by cases slot <;> decide +kernel
  refine ⟨emptied, hrun, hparent, fun hagree => ?_⟩
  obtain ⟨slot, hslot, -⟩ := (hagree 0 1).mp hparent
  rw [hempty] at hslot
  cases hslot

end NodeRun

end Fluxion
