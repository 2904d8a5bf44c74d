import Fluxion.Proofs.NodeCalls

/-!
# Refused changes of links

A call that changes links may be refused: a node has a parent already, is not a child, would be its
own child, or the target is not the root. An assignment of a slot and a change of a root are refused
before anything is written. Replacing a child is refused after its slot was emptied, and a node of two
slots after its left slot was filled. So a refused call leaves links and roots as they were unless it
is one of these.

* `Relinking` are the calls that change links.
* `Relinking.Tears` says which calls are refused half-way.
* `Relinking.unchanged_iff` says which refused calls change nothing.
-/

namespace Fluxion

open Act

/-- Whether a call on nodes fills or empties slots of its own choice. -/
def NodeCall.relinks {κ : Type} : NodeCall κ → Bool
  | setSlot .. | replaceChild .. | detach .. | newBinary .. | newUnary .. => true
  | newVar .. | newLiteral .. | copy _ | release _ => false

/-- A call that changes links. -/
inductive Relinking (κ : Type) where
  | node (call : NodeCall κ) (relinks : call.relinks = true)
  | replaceSubtree (e : Expression) (target : Ref) (replacement : Option Ref)

namespace Relinking

variable {κ : Type}

/-- What a call does; gives the node it makes. -/
def act : Relinking κ → Act (Store κ) (Option Ref)
  | node call _ => call.act
  | replaceSubtree e target replacement => do
    Store.replaceSubtree e target replacement
    return none

/-- A call is allowed on nodes in use, and an assignment to a slot that is there. -/
def Allowed (s : Store κ) : Relinking κ → Prop
  | node call _ => call.Allowed s
  | replaceSubtree _ target replacement => ∀ r ∈ target :: replacement.toList, s.InUse r

instance (s : Store κ) : (call : Relinking κ) → Decidable (call.Allowed s)
  | node call _ => inferInstanceAs (Decidable (call.Allowed s))
  | replaceSubtree _ target replacement =>
    inferInstanceAs (Decidable (∀ r ∈ target :: replacement.toList, s.InUse r))

/-- A call that writes links before it can be refused: it takes a child out of its slot, or takes the
left one of two nodes into a slot. -/
def Tears (s : Store κ) : Relinking κ → Prop
  | node (.replaceChild owner old _) _ => ∃ slot o, old = some o ∧ s.slot? owner slot = some o
  | node (.newBinary _ _ left _) _ => ∃ l, left = some l ∧ s.parent? l = none
  | node _ _ => False
  | replaceSubtree _ target _ => s.parent? target ≠ none

end Relinking

namespace Store

variable {κ : Type} {s t u : Store κ} {owner r target : Ref} {slot : Slot} {child old new : Option Ref}
  {source : Source} {op : Operator} {e : Expression}

/-- The nodes in use have the same links, and the expressions the same roots. -/
structure Unchanged (s t : Store κ) : Prop where
  parents : ∀ r, s.InUse r → t.parent? r = s.parent? r
  slots : ∀ r, s.InUse r → ∀ slot, t.slot? r slot = s.slot? r slot
  roots : t.roots = s.roots

theorem Unchanged.refl (s : Store κ) : Unchanged s s := ⟨fun _ _ => rfl, fun _ _ _ => rfl, rfl⟩

theorem Obtained.unchanged {c : Cell κ} (ho : Obtained r c s t) : Unchanged s t := by
  have hne : ∀ x, s.InUse x → x ≠ r := fun x hx e => ho.fresh (e ▸ hx)
  refine ⟨fun x hx => ?_, fun x hx slot => ?_, ho.roots⟩
  · rw [parent?, parent?, ho.others x (hne x hx)]
  · rw [slot?, slot?, ho.others x (hne x hx)]

theorem Unchanged.sameLinks (h : Unchanged s t) (h' : SameLinks t u) : Unchanged s u :=
  ⟨fun r hr => (h'.parents r).trans (h.parents r hr),
    fun r hr slot => (h'.slots r slot).trans (h.slots r hr slot), h'.roots.trans h.roots⟩

/-- An assignment that is refused writes nothing; one that is not fills the slot or changes no link,
if the slot was empty. -/
theorem setSlot_refusal (slot : Slot) (hs : s.HasSlot owner slot) (he : s.slot? owner slot = none)
    (hc : ∀ c, child = some c → c < s.nodes.size) :
    (setSlot owner slot child).Ensures s
      (fun _ t => (child = none ∧ SameLinks s t) ∨
        ∃ c, child = some c ∧ s.parent? c = none ∧ Refilled owner slot child s t)
      (fun _ t => t = s ∧ ∃ c, child = some c ∧ (s.parent? c ≠ none ∨ c = owner)) := by
  have hassigned := setSlot_assigned child hs (by simp [he]) hc
  rcases hrun : (setSlot owner slot child).perform s with ⟨res, t⟩
  rw [hrun] at hassigned
  cases hassigned with
  | refused _ hp => exact ensures_of_error hrun ⟨rfl, _, rfl, hp⟩
  | held hold hsame => exact ensures_of_ok hrun (.inl ⟨hold.symm.trans he, hsame⟩)
  | emptied hold =>
    rw [he] at hold
    cases hold
  | filled hp _ hfill => exact ensures_of_ok hrun (.inr ⟨_, rfl, hp, hfill⟩)

/-- **A refused assignment** writes nothing, whatever was in the slot. -/
theorem Linked.setSlot_unchanged (h : s.Linked []) (hs : s.HasSlot owner slot)
    (hc : ∀ c, child = some c → s.InUse c) :
    (Store.setSlot owner slot child).Ensures s (fun _ _ => True) fun _ t => t = s := by
  have hassigned := setSlot_assigned child hs (fun o hold => (h.inUse_of_slot? hold).1) fun c hm =>
    (hc c hm).1
  rcases hrun : (Store.setSlot owner slot child).perform s with ⟨res, t⟩
  rw [hrun] at hassigned
  cases hassigned with
  | refused => exact ensures_of_error hrun rfl
  | held | emptied | filled => exact ensures_of_ok hrun trivial

/-- A child that was cut off is gone from its slot. -/
theorem Linked.not_unchanged_of_torn (h : s.Linked []) {o : Ref} (ho : s.slot? owner slot = some o)
    (hst : Refilled owner slot none s t) : ¬Unchanged s t := by
  intro hsame
  have hslot := hsame.slots owner (h.inUse_of_holds ho) slot
  rw [hst.slots, if_pos ⟨rfl, rfl⟩, ho] at hslot
  cases hslot

/-- **A refused replacement** changes nothing if there was no such child; else the child is cut off. -/
theorem Linked.replaceChild_refusal (h : s.Linked []) (owner : Ref) (old new : Option Ref)
    (hnew : ∀ c, new = some c → s.InUse c) :
    (Store.replaceChild owner old new).Ensures s (fun _ _ => True) fun _ t =>
      (Unchanged s t ↔ ¬∃ slot o, old = some o ∧ s.slot? owner slot = some o) ∧
        (new = none → Unchanged s t) := by
  have hexchanged := replaceChild_exchanged h owner old new fun c hm => (hnew c hm).1
  rcases hrun : (Store.replaceChild owner old new).perform s with ⟨res, t⟩
  rw [hrun] at hexchanged
  cases hexchanged with
  | refused hnone =>
    refine ensures_of_error hrun ⟨iff_of_true (.refl _) ?_, fun _ => .refl _⟩
    rintro ⟨slot, o, hold, ho⟩
    exact hnone slot o hold ho
  | torn hold ho hnew hst =>
    refine ensures_of_error hrun ⟨iff_of_false (h.not_unchanged_of_torn ho hst) ?_, fun hnone => ?_⟩
    · exact fun hnot => hnot ⟨_, _, hold, ho⟩
    · rw [hnew] at hnone
      cases hnone
  | replaced => exact ensures_of_ok hrun trivial

/-- Nothing refuses to give back a tree. -/
theorem Linked.release_succeeds (h : s.Linked []) (r : Option Ref) :
    (Store.release r).Succeeds s fun _ _ => True := by
  cases r with
  | none => exact ensures_pure trivial
  | some r =>
    unfold Store.release
    refine ensures_get ?_
    cases hp : s.parent? r with
    | none => exact ensures_of_ok rfl trivial
    | some owner =>
      have hcut : (Store.replaceChild owner (some r) none).Succeeds s fun _ _ => True := by
        have hexchanged := replaceChild_exchanged h owner (some r) none (by simp)
        rcases hrun : (Store.replaceChild owner (some r) none).perform s with ⟨res, t⟩
        rw [hrun] at hexchanged
        cases hexchanged with
        | refused hnone =>
          obtain ⟨slot, hslot⟩ | hmem := h.placed hp
          · exact absurd hslot (hnone slot r rfl)
          · cases hmem
        | torn _ _ hnew => cases hnew
        | replaced => exact ensures_of_ok hrun trivial
      exact hcut.bind fun _ t _ => ensures_of_ok rfl trivial

/-- **A refused change of a subtree** changes nothing just if the target has no parent. -/
theorem Linked.replaceSubtree_refusal (h : s.Linked []) (hnew : ∀ c, new = some c → s.InUse c) :
    (Store.replaceSubtree e target new).Ensures s (fun _ _ => True) fun _ t =>
      Unchanged s t ↔ ¬s.parent? target ≠ none := by
  unfold Store.replaceSubtree
  refine ensures_get ?_
  cases hp : s.parent? target with
  | some owner =>
    have hchild : ∃ slot o, some target = some o ∧ s.slot? owner slot = some o := by
      obtain ⟨slot, hslot⟩ | hmem := h.placed hp
      · exact ⟨slot, target, rfl, hslot⟩
      · cases hmem
    have hcut := (h.replaceChild owner (some target) _ hnew).and
      (h.replaceChild_refusal owner (some target) _ hnew)
    refine (hcut.mono (fun _ _ => id) ?_).bind ?_
    · rintro f t ⟨-, hiff, -⟩
      exact iff_of_false (fun hun => hiff.mp hun hchild) (by simp)
    · rintro - t ⟨⟨ht, -⟩, -⟩
      exact (ht.release_succeeds _).ensures
  | none =>
    refine ensures_get ?_
    split
    · have hroot : (Store.setRoot e new).Ensures s (fun _ t => t = s.writeRoot e new)
          fun _ t => t = s := by
        unfold Store.setRoot
        refine ensures_get ?_
        split
        · exact ensures_throw rfl
        · exact ensures_of_ok rfl rfl
      refine (hroot.mono (fun _ _ => id) ?_).bind ?_
      · rintro f _ rfl
        simp [Unchanged.refl]
      · rintro - _ rfl
        have hstill : (s.writeRoot e new).parent? target = none := hp
        refine (ensures_get ?_ : Act.Ensures (Store.release (some target)) _ _ _)
        rw [hstill]
        exact ensures_of_ok rfl trivial
    · exact ensures_throw (by simp [Unchanged.refl])

/-- **A refused node of two slots** changes nothing just if the left slot stayed empty. -/
theorem Linked.newBinary_refusal (h : s.Linked []) {left right : Option Ref}
    (hl : ∀ c, left = some c → s.InUse c) (hr : ∀ c, right = some c → s.InUse c) :
    (Store.newBinary source op left right).Ensures s (fun _ _ => True) fun _ t =>
      Unchanged s t ↔ ¬∃ l, left = some l ∧ s.parent? l = none := by
  refine (obtain_obtained h.apart source (.binary op none none)).bind fun r t ho => ?_
  have hc : ∀ slot, (Cell.binary op none none : Cell κ).slot? slot = none := fun slot => by
    cases slot <;> rfl
  obtain ⟨hext, hin⟩ := ho.extends h hc
  have hparent := ho.parents h
  have hslot : ∀ slot, t.slot? r slot = none := fun slot => (slot?_eq ho.node slot).trans (hc slot)
  have hne : ∀ c, left = some c → c ≠ r := fun c hm e => ho.fresh (e ▸ hl c hm)
  have hleft := setSlot_refusal .left ⟨_, ho.node, rfl⟩ (hslot _) fun c hm =>
    (hext.inUse c (hl c hm)).1
  refine (hleft.mono (fun _ _ => id) ?_).bind ?_
  · rintro f _ ⟨rfl, c, hm, hc⟩
    refine iff_of_true ho.unchanged ?_
    rintro ⟨l, hm', hp⟩
    obtain rfl := Option.some.inj (hm.symm.trans hm')
    rw [← hparent] at hp
    exact hc.elim (fun hc => hc hp) (hne c hm)
  rintro - t₁ hassigned
  have hshape : t₁.HasSlot r .right ∧ t₁.slot? r .right = none ∧ t₁.nodes.size = t.nodes.size := by
    obtain ⟨-, hsame⟩ | ⟨c, -, -, hfill⟩ := hassigned
    · exact ⟨(hsame.hasSlot r _).mpr ⟨_, ho.node, rfl⟩, (hsame.slots r _).trans (hslot _), hsame.size⟩
    · refine ⟨(hfill.hasSlot r _).mpr ⟨_, ho.node, rfl⟩, ?_, hfill.size⟩
      rw [hfill.slots, if_neg (by simp)]
      exact hslot _
  have hright := setSlot_refusal .right hshape.1 hshape.2.1 fun c hm =>
    hshape.2.2 ▸ (hext.inUse c (hr c hm)).1
  refine (hright.mono (fun _ _ => id) ?_).bind fun _ _ _ => ensures_pure trivial
  rintro f _ ⟨rfl, -⟩
  obtain ⟨hnone, hsame⟩ | ⟨c, hm, hp, hfill⟩ := hassigned
  · exact iff_of_true (ho.unchanged.sameLinks hsame) (by simp [hnone])
  · refine iff_of_false (fun hun => ?_) fun hnot => hnot ⟨c, hm, (hparent c).symm.trans hp⟩
    have hcp := hun.parents c (hl c hm)
    rw [hfill.parents, if_pos hm, ← hparent, hp] at hcp
    cases hcp

/-- **A refused node of one slot** changes nothing. -/
theorem Linked.newUnary_refusal (h : s.Linked []) {operand : Option Ref}
    (ho : ∀ c, operand = some c → s.InUse c) :
    (Store.newUnary source op operand).Ensures s (fun _ _ => True) fun _ t => Unchanged s t := by
  refine (obtain_obtained h.apart source (.unary op none)).bind fun r t hr => ?_
  have hin : ∀ c, operand = some c → c < t.nodes.size := fun c hm =>
    ((hr.inUse c).mpr (.inr (ho c hm))).1
  have hassigned := setSlot_refusal .operand ⟨_, hr.node, rfl⟩
    (slot?_eq hr.node .operand) hin
  refine (hassigned.mono (fun _ _ => id) ?_).bind fun _ _ _ => ensures_pure trivial
  rintro f _ ⟨rfl, -⟩
  exact hr.unchanged

end Store

namespace Relinking

open Store

variable {κ : Type} {s t : Store κ} {f : Fault}

/-- What a refused call leaves. -/
theorem unchanged_of_refused (call : Relinking κ) (h : s.Linked []) (ha : call.Allowed s) :
    call.act.Ensures s (fun _ _ => True) fun _ t => Unchanged s t ↔ ¬call.Tears s := by
  cases call with
  | replaceSubtree e target replacement =>
    have hr : ∀ c, replacement = some c → s.InUse c := fun c hc => ha c (by simp [hc])
    exact (h.replaceSubtree_refusal hr).bind fun _ _ _ => ensures_pure trivial
  | node call relinks =>
    have hops := NodeCall.Allowed.operands ha
    cases call with
    | newVar => cases relinks
    | newLiteral => cases relinks
    | copy => cases relinks
    | release => cases relinks
    | setSlot owner slot child =>
      have hc : ∀ c, child = some c → s.InUse c := fun c hc => hops c (by simp [NodeCall.operands, hc])
      refine ((h.setSlot_unchanged (ha.targets _ List.mem_cons_self) hc).mono (fun _ _ => id) ?_).bind
        fun _ _ _ => ensures_pure trivial
      rintro f _ rfl
      exact iff_of_true (.refl _) id
    | replaceChild owner old new =>
      have hn : ∀ c, new = some c → s.InUse c := fun c hc => hops c (by simp [NodeCall.operands, hc])
      exact ((h.replaceChild_refusal owner old new hn).mono (fun _ _ => id) fun f t ht => ht.1).bind
        fun _ _ _ => ensures_pure trivial
    | detach owner child =>
      refine ((h.replaceChild_refusal owner child none (by simp)).mono (fun _ _ => id) ?_).bind
        fun _ _ _ => ensures_pure trivial
      exact fun f t ht => iff_of_true (ht.2 rfl) id
    | newBinary source op left right =>
      have hl : ∀ c, left = some c → s.InUse c := fun c hc => hops c (by simp [NodeCall.operands, hc])
      have hr : ∀ c, right = some c → s.InUse c := fun c hc => hops c (by simp [NodeCall.operands, hc])
      exact (h.newBinary_refusal hl hr).bind fun _ _ _ => ensures_pure trivial
    | newUnary source op operand =>
      have ho : ∀ c, operand = some c → s.InUse c := fun c hc =>
        hops c (by simp [NodeCall.operands, hc])
      refine ((h.newUnary_refusal ho).mono (fun _ _ => id) ?_).bind fun _ _ _ => ensures_pure trivial
      exact fun f t ht => iff_of_true ht id

/-- **A refused change of links.** Where the links agree, a call that is refused leaves the links of
all nodes in use and the roots of all expressions as they were just if it does not replace a child
that is there, or the subtree of a node with a parent, or make a node of two slots whose left slot is
filled first. -/
theorem unchanged_iff (h : s.Linked []) (call : Relinking κ) (ha : call.Allowed s)
    (hrun : call.act.perform s = (.error f, t)) : Unchanged s t ↔ ¬call.Tears s :=
  (call.unchanged_of_refused h ha).of_error hrun

/-- Two functions of a variable each. -/
def twoFunctions : Store Float :=
  (NodeCall.newUnary .pool (.known .cos) (some 2)).after
    ((NodeCall.newVar .pool (some "y")).after
      ((NodeCall.newUnary .pool (.known .sin) (some 0)).after
        ((NodeCall.newVar .pool (some "x")).after (stocked 0 0))))

theorem linked_twoFunctions : twoFunctions.Linked [] := by
  have hrun : NodeRun (stocked 0 0)
      [.newVar .pool (some "x"), .newUnary .pool (.known .sin) (some 0), .newVar .pool (some "y"),
        .newUnary .pool (.known .cos) (some 2)] [] twoFunctions := by
    refine .call _ (.call _ (.call _ (.call _ .start ?_ ?_) ?_ ?_) ?_ ?_) ?_ ?_
    all_goals decide +kernel
  exact hrun.linked (stocked_linked 0 0)

/-- An assignment of a node that has a parent changes nothing. -/
theorem unchanged_of_refused_assignment :
    ∃ t, (Relinking.node (.setSlot 1 .operand (some 2)) rfl).act.perform twoFunctions =
        (.error .alreadyOwned, t) ∧ Unchanged twoFunctions t := by
  refine ⟨_, rfl, ?_⟩
  exact (unchanged_iff linked_twoFunctions (.node (.setSlot 1 .operand (some 2)) rfl)
    (by decide +kernel) rfl).mpr id

/-- **A refused replacement** leaves the slot empty and the old child without a parent. -/
theorem torn_by_refused_replacement :
    twoFunctions.Linked [] ∧ (Relinking.node (.replaceChild 1 (some 0) (some 2)) rfl).Allowed twoFunctions ∧
      ∃ t, (Relinking.node (.replaceChild 1 (some 0) (some 2)) rfl).act.perform twoFunctions =
        (.error .alreadyOwned, t) ∧ ¬Unchanged twoFunctions t := by
  refine ⟨linked_twoFunctions, by decide +kernel, _, rfl, fun hun => ?_⟩
  have hparent := hun.parents 0 (by decide +kernel)
  revert hparent
  decide +kernel

end Relinking

end Fluxion
