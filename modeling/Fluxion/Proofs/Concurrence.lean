import Fluxion.Proofs.Twins

/-!
# Acts that concur

Two acts concur on twins when they run in tandem and leave twins, and their results correspond. The
operations on nodes concur when they are given the same nodes: making nodes, assigning slots, replacing
children, copying trees and giving them back, and making and changing expressions.

* `Concur` says that two acts on stores or on workspaces concur, `Concur.bind` puts them one after
  another.
* `Twins.concur_newBinary`, `Twins.concur_setSlot`, `Twins.concur_release` and their neighbours go through
  the operations.
-/

namespace Fluxion

open Act Store

/-- States that have a store, and what was said besides. -/
class Stored (σ : Type) (κ : outParam Type) where
  store : σ → Store κ
  said : σ → List String

instance {κ : Type} : Stored (Store κ) κ := ⟨id, fun _ => []⟩

instance {κ : Type} : Stored (Workspace κ) κ := ⟨(·.store), (·.warnings)⟩

section Concur

variable {κ σ α β γ δ : Type} [Stored σ κ] {E E' : Effect} {ρ ρ' : Ref → Ref} {F F' : Forest κ}
  {act : Act σ α} {act' : Act σ β} {w w' : σ} {next : α → Act σ γ} {next' : β → Act σ δ} {a : α} {b : β}
  {f : Fault} {P P' : α → β → (Ref → Ref) → Forest κ → Store κ → Prop}
  {last : γ → δ → (Ref → Ref) → Forest κ → Store κ → Prop}
  {Q Q' : (Ref → Ref) → Forest κ → Store κ → Prop}

/-- The states have twin stores, and the same was said besides. -/
structure Abreast (ρ : Ref → Ref) (F : Forest κ) (w w' : σ) : Prop where
  twins : Twins ρ F (Stored.store w) (Stored.store w')
  said : Stored.said w = Stored.said w'

/-- The states went on abreast. -/
def WentOn (E : Effect) (ρ : Ref → Ref) (F : Forest κ) (w : σ) (Q : (Ref → Ref) → Forest κ → Store κ → Prop)
    (v v' : σ) : Prop :=
  ∃ ρ' F', Onward E ρ F (Stored.store w) ρ' F' (Stored.store v) (Stored.store v') ∧
    Stored.said v = Stored.said v' ∧ Q ρ' F' (Stored.store v)

/-- **Acts concur**: both succeed with results that correspond by `P`, or both are refused with the same
fault and `Q` holds of what they leave. In either case the states go on abreast. -/
def ConcurOr (E : Effect) (ρ : Ref → Ref) (F : Forest κ) (act : Act σ α) (w : σ) (act' : Act σ β) (w' : σ)
    (P : α → β → (Ref → Ref) → Forest κ → Store κ → Prop) (Q : (Ref → Ref) → Forest κ → Store κ → Prop) :
    Prop :=
  act.Tandem w act' w' (fun a b => WentOn E ρ F w (P a b)) (WentOn E ρ F w Q)

/-- Acts concur of which it does not matter what they leave when they are refused. -/
abbrev Concur (E : Effect) (ρ : Ref → Ref) (F : Forest κ) (act : Act σ α) (w : σ) (act' : Act σ β) (w' : σ)
    (P : α → β → (Ref → Ref) → Forest κ → Store κ → Prop) : Prop :=
  ConcurOr E ρ F act w act' w' P fun _ _ _ => True

theorem ConcurOr.weaken (h : ConcurOr E ρ F act w act' w' P Q)
    (hp : ∀ a b ρ' F' t', P a b ρ' F' t' → P' a b ρ' F' t') (hq : ∀ ρ' F' t', Q ρ' F' t' → Q' ρ' F' t') :
    ConcurOr E ρ F act w act' w' P' Q' :=
  Tandem.mono h (fun a b _ _ ⟨ρ', F', ho, hs, h⟩ => ⟨ρ', F', ho, hs, hp a b ρ' F' _ h⟩)
    fun _ _ ⟨ρ', F', ho, hs, h⟩ => ⟨ρ', F', ho, hs, hq ρ' F' _ h⟩

theorem ConcurOr.mono (h : ConcurOr E ρ F act w act' w' P Q)
    (hp : ∀ a b ρ' F' t', P a b ρ' F' t' → P' a b ρ' F' t') : Concur E ρ F act w act' w' P' :=
  h.weaken hp fun _ _ _ _ => trivial

/-- More may happen than does. -/
theorem ConcurOr.within (h : ConcurOr E ρ F act w act' w' P Q) (hE : E.Within E') :
    ConcurOr E' ρ F act w act' w' P Q :=
  Tandem.mono h (fun _ _ _ _ ⟨ρ', F', ho, hs, h⟩ => ⟨ρ', F', ho.mono hE, hs, h⟩)
    fun _ _ ⟨ρ', F', ho, hs, h⟩ => ⟨ρ', F', ho.mono hE, hs, h⟩

/-- How the stores went on is part of what is known of what the acts leave. -/
theorem ConcurOr.noting (h : ConcurOr E ρ F act w act' w' P Q) :
    ConcurOr E ρ F act w act' w'
      (fun a b ρ' F' t' => P a b ρ' F' t' ∧ ∃ s', Onward E ρ F (Stored.store w) ρ' F' t' s')
      fun ρ' F' t' => Q ρ' F' t' ∧ ∃ s', Onward E ρ F (Stored.store w) ρ' F' t' s' :=
  Tandem.mono h (fun _ _ _ _ ⟨ρ', F', ho, hs, h⟩ => ⟨ρ', F', ho, hs, h, _, ho⟩)
    fun _ _ ⟨ρ', F', ho, hs, h⟩ => ⟨ρ', F', ho, hs, h, _, ho⟩

/-- Where nothing may be lost, all that was there still is. -/
theorem ConcurOr.keeping (h : ConcurOr E ρ F act w act' w' P Q) (hE : ∀ x, ¬E.lost x) :
    ConcurOr E ρ F act w act' w' P fun _ F' _ => F.refs ⊆ F'.refs :=
  h.noting.weaken (fun _ _ _ _ _ => And.left) fun _ _ _ ⟨_, _, ho⟩ x hx => ho.kept x hx (hE x)

/-- An act that changes only what it makes changes nothing. -/
theorem ConcurOr.of_beyond (ht : Abreast ρ F w w')
    (h : ConcurOr (.beyond (Stored.store w).nodes.size (Stored.store w).roots.size) ρ F act w act' w' P Q) :
    ConcurOr E ρ F act w act' w' P Q :=
  Tandem.mono h (fun _ _ _ _ ⟨ρ', F', ho, hs, h⟩ => ⟨ρ', F', ho.of_beyond fun _ => ht.twins.lt_size, hs, h⟩)
    fun _ _ ⟨ρ', F', ho, hs, h⟩ => ⟨ρ', F', ho.of_beyond fun _ => ht.twins.lt_size, hs, h⟩

/-- One pair of acts after another. -/
theorem ConcurOr.bind (h : ConcurOr E ρ F act w act' w' P Q)
    (hn : ∀ a b ρ' F' v v', Abreast ρ' F' v v' →
      Onward E ρ F (Stored.store w) ρ' F' (Stored.store v) (Stored.store v') → P a b ρ' F' (Stored.store v) →
      ConcurOr E ρ' F' (next a) v (next' b) v' last Q) :
    ConcurOr E ρ F (act >>= next) w (act' >>= next') w' last Q := by
  refine Tandem.bind h ?_
  rintro a b v v' ⟨ρ', F', ho, hs, hp⟩
  refine Tandem.mono (hn a b ρ' F' v v' ⟨ho.twins, hs⟩ ho hp) ?_ ?_
  · rintro c d u u' ⟨ρ'', F'', ho', hs', hq⟩
    exact ⟨ρ'', F'', ho.trans ho', hs', hq⟩
  · rintro u u' ⟨ρ'', F'', ho', hs', hq⟩
    exact ⟨ρ'', F'', ho.trans ho', hs', hq⟩

theorem Abreast.concur_pure (h : Abreast ρ F w w') (hp : P a b ρ F (Stored.store w)) :
    ConcurOr E ρ F (pure a) w (pure b) w' P Q :=
  tandem_pure ⟨ρ, F, h.twins.onward, h.said, hp⟩

theorem Abreast.concur_throw (h : Abreast ρ F w w') (hq : Q ρ F (Stored.store w)) :
    ConcurOr E ρ F (throw f : Act σ α) w (throw f : Act σ β) w' P Q :=
  tandem_throw ⟨ρ, F, h.twins.onward, h.said, hq⟩

theorem concur_get {next : σ → Act σ α} {next' : σ → Act σ β}
    (h : ConcurOr E ρ F (next w) w (next' w') w' P Q) :
    ConcurOr E ρ F (get >>= next) w (get >>= next') w' P Q := tandem_get h

/-- Acts that first change the states. -/
theorem concur_modify {g g' : σ → σ} {next : Unit → Act σ α} {next' : Unit → Act σ β}
    (ho : Onward E ρ F (Stored.store w) ρ' F' (Stored.store (g w)) (Stored.store (g' w')))
    (h : ConcurOr E ρ' F' (next ()) (g w) (next' ()) (g' w') P Q) :
    ConcurOr E ρ F (modify g >>= next) w (modify g' >>= next') w' P Q := by
  refine tandem_modify (Tandem.mono h ?_ ?_)
  · rintro a b v v' ⟨ρ'', F'', ho', hs, hp⟩
    exact ⟨ρ'', F'', ho.trans ho', hs, hp⟩
  · rintro v v' ⟨ρ'', F'', ho', hs, hq⟩
    exact ⟨ρ'', F'', ho.trans ho', hs, hq⟩

/-- Acts whose results are not needed. -/
theorem ConcurOr.discard (h : ConcurOr E ρ F act w act' w' P Q) :
    ConcurOr E ρ F (Functor.discard act) w (Functor.discard act') w'
      (fun _ _ ρ' F' t' => ∃ a b, P a b ρ' F' t') Q := by
  have hbind : ∀ {α : Type} (act : Act σ α), Functor.discard act = act >>= fun _ => pure () := fun act => by
    rw [Functor.discard, map_const, Function.comp_apply, map_eq_pure_bind]
  rw [hbind, hbind]
  exact h.bind fun a b ρ' F' v v' hv _ hp => hv.concur_pure ⟨a, b, hp⟩

/-- Refusals taken as results. -/
theorem ConcurOr.attempt (h : ConcurOr E ρ F act w act' w' P Q) :
    ConcurOr E ρ F act.attempt w act'.attempt w' (fun r r' ρ' F' t' =>
      (∃ a b, r = .ok a ∧ r' = .ok b ∧ P a b ρ' F' t') ∨ ∃ f, r = .error f ∧ r' = .error f ∧ Q ρ' F' t') Q' := by
  refine Tandem.mono (Tandem.attempt h) ?_ fun _ _ hf => hf
  rintro r r' v v' (⟨a, b, rfl, rfl, ρ', F', ho, hs, hp⟩ | ⟨f, rfl, rfl, ρ', F', ho, hs, hq⟩)
  · exact ⟨ρ', F', ho, hs, .inl ⟨a, b, rfl, rfl, hp⟩⟩
  · exact ⟨ρ', F', ho, hs, .inr ⟨f, rfl, rfl, hq⟩⟩

end Concur

/-! ## Making nodes -/

/-- A node for a cell whose slots are empty. -/
def Planted.lone {κ : Type} (r : Ref) : Cell κ → Planted κ
  | .literal v => .literal r v
  | .var n => .var r n
  | .binary op _ _ => .binary r op .absent .absent
  | .unary op _ => .unary r op .absent

@[simp] theorem Planted.refs_lone {κ : Type} (r : Ref) (c : Cell κ) : (Planted.lone r c).refs = [r] := by
  cases c <;> rfl

@[simp] theorem Planted.ref?_lone {κ : Type} (r : Ref) (c : Cell κ) : (Planted.lone r c).ref? = some r := by
  cases c <;> rfl

namespace Store

variable {κ : Type} {E : Effect} {ρ ρ' : Ref → Ref} {F F' G : Forest κ} {t s t' s' : Store κ} {p q : Planted κ}
  {r x owner : Ref} {slot : Slot} {child old new : Option Ref} {e : Expression} {b : Int} {c : Cell κ}
  {used : List Ref} {source : Source} {op : Operator}
  {Q : (Ref → Ref) → Forest κ → Store κ → Prop}

theorem Twins.abreast (h : Twins ρ F t s) : Abreast ρ F t s := ⟨h, rfl⟩

/-- A node that was handed out is a tree of its own. -/
theorem Obtained.exists_made (ho : Obtained r c s t) (ha : s.Apart used) (hc : ∀ slot, c.slot? slot = none) :
    ∃ b, Made b used s (.lone r c) t := by
  have huse : ∀ x ∈ used, s.InUse x := fun x hx =>
    ⟨ha.lt_size hx, fun hm => (List.nodup_append.mp ha.nodup).2.2 x hx x hm rfl⟩
  have hin : ∀ x ∈ r :: used, t.InUse x := fun x hx =>
    (ho.inUse x).mpr ((List.mem_cons.mp hx).imp id (huse x))
  have hapart : t.Apart (r :: used) := by
    refine ⟨List.nodup_append.mpr ⟨List.nodup_cons.mpr ⟨fun hm => ho.fresh (huse r hm), ha.nodup_used⟩,
      ho.apart.nodup, fun x hx y hy he => (hin x hx).2 (he ▸ hy)⟩, fun x hx => ?_⟩
    rcases List.mem_append.mp hx with hx | hx
    · exact (hin x hx).1
    · exact ho.apart.bound x hx
  have haccounted := hapart.accounted
  rw [← List.singleton_append, ← Planted.refs_lone r c] at haccounted
  refine ⟨_, ?_, haccounted, fun x hx => ho.others x fun he => ho.fresh (he ▸ huse x hx), ho.roots⟩
  · have hn := ho.node
    cases c with
    | literal v => exact hn
    | var n => exact hn
    | binary op l l' =>
      obtain rfl : l = none := hc .left
      obtain rfl : l' = none := hc .right
      exact ⟨hn, trivial, trivial⟩
    | unary op l =>
      obtain rfl : l = none := hc .operand
      exact ⟨hn, trivial⟩

/-- **Handing out a node.** -/
theorem Twins.concur_obtain (h : Twins ρ F t s) (source : Source) (hc : ∀ slot, c.slot? slot = none)
    (hsp : (Planted.lone 0 c).tree.isSpelled = true) :
    Concur E ρ F (obtain source c) t (obtain source c) s fun r r' ρ' F' t' =>
      r' = ρ' r ∧ r ∈ F'.refs ∧ t'.node? r = some ⟨c, none⟩ ∧ t.nodes.size ≤ r := by
  have hleft := (obtain_obtained (h.idle.apart.sublist (List.nil_sublist _)) source c).preserves
    (idle_obtain source c) h.idle.self
  have hright := obtain_obtained (h.apart.sublist (List.nil_sublist _)) source c
  refine hleft.tandem hright ?_
  rintro r r' t' s' ⟨hl, hidle⟩ hr
  obtain ⟨b, hml⟩ := hl.exists_made h.idle.apart hc
  obtain ⟨b', hmr⟩ := hr.exists_made h.apart hc
  have htree : (Planted.lone r c).tree = (Planted.lone r' c).tree := by cases c <;> rfl
  have hspr : (Planted.lone r c).tree.isSpelled = true := by
    rw [← hsp]
    cases c <;> rfl
  obtain ⟨ρ', hname, ho⟩ := h.made (E := E) hml hidle hmr htree hspr
  refine ⟨ρ', _, ho, rfl, ?_, ?_, hl.node, Nat.not_lt.mp fun hlt => ?_⟩
  · have := congrArg Planted.ref? hname
    simpa using this.symm
  · simp
  · have hnd := hml.accounted.nodup_used
    rw [Planted.refs_lone, List.singleton_append, List.nodup_cons] at hnd
    exact hnd.1 (List.mem_range.mpr hlt)

/-- Making a literal. -/
theorem Twins.concur_newLiteral (h : Twins ρ F t s) (source : Source) (v : κ) :
    Concur E ρ F (newLiteral source v) t (newLiteral source v) s fun r r' ρ' F' t' =>
      r' = ρ' r ∧ r ∈ F'.refs ∧ t'.node? r = some ⟨.literal v, none⟩ ∧ t.nodes.size ≤ r :=
  h.concur_obtain source (fun slot => by cases slot <;> rfl) rfl

/-- Making a variable. A node whose name is refused is lost on both sides. -/
theorem Twins.concur_newVar (h : Twins ρ F t s) (source : Source) (name : Name) :
    Concur E ρ F (newVar source name) t (newVar source name) s fun r r' ρ' F' t' =>
      name.isLetter = true ∧ r' = ρ' r ∧ r ∈ F'.refs ∧ t'.node? r = some ⟨.var name, none⟩ ∧
        t.nodes.size ≤ r := by
  have hc : ∀ slot, (Cell.var name : Cell κ).slot? slot = none := fun slot => by cases slot <;> rfl
  unfold newVar
  cases hname : name.isLetter with
  | true =>
    refine (h.concur_obtain source hc hname).bind ?_
    rintro r r' ρ' F' v v' hv - hr
    exact hv.concur_pure ⟨rfl, hr⟩
  | false =>
    have hleft := (obtain_obtained (h.idle.apart.sublist (List.nil_sublist _)) source (.var name)).preserves
      (idle_obtain source _) h.idle.self
    have hright := obtain_obtained (h.apart.sublist (List.nil_sublist _)) source (.var name : Cell κ)
    obtain ⟨r, t', hrun, hl, hidle⟩ := hleft.exists
    obtain ⟨r', s', hrun', hr⟩ := hright.exists
    obtain ⟨b, hml⟩ := hl.exists_made h.idle.apart hc
    obtain ⟨b', hmr⟩ := hr.exists_made h.apart hc
    have hfail : ∀ {u v : Store κ} {r : Ref}, (obtain source (.var name)).perform u = (.ok r, v) →
        (obtain source (.var name) >>= fun r =>
          if false = true then pure r else throw (.invalidName name) : Act (Store κ) Ref).perform u =
            (.error (.invalidName name), v) := fun hrun => by
      rw [perform_bind, hrun]
      rfl
    exact tandem_of_error (hfail hrun) (hfail hrun')
      ⟨ρ, F, h.untouched hidle hml.kept hmr.kept hmr.accounted.of_append_right, rfl, trivial⟩

/-! ## Changing links -/

/-- **Assigning a slot.** -/
theorem Twins.concur_setSlot (h : Twins ρ F t s) (ho : owner ∈ F.refs) (hs : t.HasSlot owner slot)
    (he : child = none → t.slot? owner slot = none)
    (hc : ∀ c, child = some c → c ∈ F.refs ∧ ¬t.ClosesCycle owner c)
    (hE : ∀ x, x = owner ∨ child = some x ∨ t.slot? owner slot = some x → E.touched x) :
    Concur E ρ F (setSlot owner slot child) t (setSlot (ρ owner) slot (child.map ρ)) s fun _ _ ρ' F' t' =>
      ρ' = ρ ∧ F'.refs.Perm F.refs ∧
        t'.node? owner = (t.node? owner).map fun n => { n with cell := n.cell.setSlot slot child } := by
  have hleft := setSlot_regrafted
    (fun o hso => ⟨(h.bears.mem_of_slot? ho hso).2, h.bears.ne_of_slot? ho hso⟩) he
  refine ((h.renames.setSlot_tandem slot ho fun c hcc => (hc c hcc).1).ensures hleft).mono ?_ ?_
  · rintro - - t' s' ⟨hr, hreg, hmay⟩
    obtain ⟨⟨G, hG, hperm⟩, -⟩ := h.bears.regrafted ho hs hreg fun c hcc =>
      ⟨(hc c hcc).1, hmay c hcc, (hc c hcc).2⟩
    refine ⟨ρ, G, h.relinked hr hG hperm fun x _ ht => ?_, rfl, rfl, hperm, (hreg.node owner).trans (if_pos rfl)⟩
    have hout := mt (hE x) ht
    rw [not_or, not_or] at hout
    exact (hreg.node x).trans (by rw [if_neg hout.1, if_neg hout.2.1, if_neg hout.2.2])
  · rintro _ s' ⟨hr, -, rfl⟩
    exact ⟨ρ, F, h.relinked hr h.bears (.refl _) fun _ _ _ => rfl, rfl, trivial⟩

/-- **Replacing a child.** -/
theorem Twins.concur_replaceChild (h : Twins ρ F t s) (ho : owner ∈ F.refs) (old new : Option Ref)
    (hold : ∀ c, old = some c → c ∈ F.refs)
    (hc : ∀ c, new = some c → c ∈ F.refs ∧ ¬t.ClosesCycle owner c) (hE : ∀ x, E.touched x) :
    Concur (.links E.touched) ρ F (replaceChild owner old new) t (replaceChild (ρ owner) (old.map ρ) (new.map ρ)) s
      fun _ _ ρ' F' t' => ρ' = ρ ∧ F'.refs.Perm F.refs ∧ t'.roots = t.roots ∧
        ∀ o, old = some o → t'.postOrder o = t.postOrder o ∧ (new = none → t'.parent? o = none) := by
  have hleft := h.bears.replaceChild ho old new hc
  refine ((h.renames.replaceChild_tandem ho hold fun c hcc => (hc c hcc).1).ensures hleft).mono ?_ ?_
  · rintro - - t' s' ⟨hr, ⟨G, hG, hperm⟩, hbelow⟩
    exact ⟨ρ, G, h.relinked hr hG hperm fun x _ ht => absurd (hE x) ht, rfl, rfl, hperm, hr.left.roots, hbelow⟩
  · rintro t' s' ⟨hr, -, G, hG, hperm⟩
    exact ⟨ρ, G, h.relinked hr hG hperm fun x _ ht => absurd (hE x) ht, rfl, trivial⟩

/-! ## Making operation nodes -/

/-- Filling a slot of a node without a parent closes no cycle. -/
theorem Twins.concur_fill (h : Twins ρ F t s) (slot : Slot) (ho : owner ∈ F.refs) (hn : t.node? owner = some ⟨c, none⟩)
    (hs : c.hasSlot slot = true) (he : c.slot? slot = none) (hc : ∀ x, child = some x → x ∈ F.refs)
    (hE : ∀ x, x = owner ∨ child = some x → E.touched x) :
    Concur E ρ F (setSlot owner slot child) t (setSlot (ρ owner) slot (child.map ρ)) s fun _ _ ρ' F' t' =>
      ρ' = ρ ∧ F'.refs.Perm F.refs ∧ t'.node? owner = some ⟨c.setSlot slot child, none⟩ := by
  have hparent : t.parent? owner = none := by
    rw [parent?, hn]
    rfl
  refine (h.concur_setSlot ho ⟨_, hn, hs⟩ (fun _ => (slot?_eq hn slot).trans he)
    (fun x hx => ⟨hc x hx, h.bears.not_closesCycle hparent (hc x hx)⟩) fun x hx => ?_).mono ?_
  · refine hE x (hx.imp_right fun hx => hx.resolve_right fun hs => ?_)
    rw [slot?_eq hn slot, he] at hs
    cases hs
  rintro - - ρ' F' t' ⟨hρ, hperm, hnode⟩
  refine ⟨hρ, hperm, hnode.trans ?_⟩
  rw [hn]
  rfl

/-- Where nothing was lost, nodes are there under the names they had. -/
theorem Onward.live (ho : Onward E ρ F t ρ' F' t' s') (hl : ∀ x, ¬E.lost x) (h : Twins ρ F t s)
    (hc : ∀ x, child = some x → x ∈ F.refs) :
    (∀ x, child = some x → x ∈ F'.refs) ∧ child.map ρ = child.map ρ' := by
  have hc' : ∀ x, child = some x → x ∈ F'.refs := fun x hx => ho.kept x (hc x hx) (hl x)
  refine ⟨hc', ?_⟩
  cases child with
  | none => rfl
  | some x => exact congrArg some (ho.name_eq h (hc x rfl) (hc' x rfl)).symm

/-- A node was made on both sides: it comes after the first `nodes`, and it has no parent. -/
structure Minted (nodes : Nat) (ρ : Ref → Ref) (F : Forest κ) (t : Store κ) (r r' : Ref) : Prop where
  same : r' = ρ r
  mem : r ∈ F.refs
  parentless : t.parent? r = none
  fresh : nodes ≤ r

theorem minted_of_node? {nodes : Nat} {r' : Ref} (hs : r' = ρ r) (hr : r ∈ F.refs)
    (hn : t.node? r = some ⟨c, none⟩) (hnew : nodes ≤ r) : Minted nodes ρ F t r r' := by
  refine ⟨hs, hr, ?_, hnew⟩
  rw [parent?, hn]
  rfl

/-- **Making an operation node of one slot.** -/
theorem Twins.concur_newUnary (h : Twins ρ F t s) (source : Source) (op : Operator)
    (hx : ∀ c, child = some c → c ∈ F.refs)
    (hE : ∀ x, t.nodes.size ≤ x ∨ child = some x → E.touched x) :
    Concur E ρ F (newUnary source op child) t (newUnary source op (child.map ρ)) s fun r r' ρ' F' t' =>
      Minted t.nodes.size ρ' F' t' r r' := by
  refine ConcurOr.within ?_ E.links_within
  refine (h.concur_obtain source (c := .unary op none) (fun slot => by cases slot <;> rfl) rfl).bind ?_
  rintro r _ ρ₁ F₁ t₁ s₁ ⟨h₁, -⟩ ho ⟨rfl, hr, hn, hnew⟩
  obtain ⟨hx₁, hname⟩ := ho.live (fun _ => id) h hx
  rw [hname]
  refine (Twins.concur_fill h₁ .operand hr hn rfl rfl hx₁
    (by rintro x (rfl | hx); exacts [hE x (.inl hnew), hE x (.inr hx)])).bind ?_
  rintro - - _ F₂ t₂ s₂ h₂ - ⟨rfl, hperm, hn₂⟩
  exact h₂.concur_pure (minted_of_node? rfl (hperm.mem_iff.mpr hr) hn₂ hnew)

/-- **Making an operation node of two slots.** -/
theorem Twins.concur_newBinary (h : Twins ρ F t s) (source : Source) (op : Operator) {left right : Option Ref}
    (hl : ∀ c, left = some c → c ∈ F.refs) (hr : ∀ c, right = some c → c ∈ F.refs)
    (hE : ∀ x, t.nodes.size ≤ x ∨ left = some x ∨ right = some x → E.touched x) :
    Concur E ρ F (newBinary source op left right) t (newBinary source op (left.map ρ) (right.map ρ)) s
      fun r r' ρ' F' t' => Minted t.nodes.size ρ' F' t' r r' := by
  refine ConcurOr.within ?_ E.links_within
  refine (h.concur_obtain source (c := .binary op none none) (fun slot => by cases slot <;> rfl) rfl).bind ?_
  rintro r _ ρ₁ F₁ t₁ s₁ ⟨h₁, -⟩ ho ⟨rfl, hin, hn, hnew⟩
  obtain ⟨hl₁, hnamel⟩ := ho.live (fun _ => id) h hl
  obtain ⟨hr₁, hnamer⟩ := ho.live (fun _ => id) h hr
  rw [hnamel, hnamer]
  refine (Twins.concur_fill h₁ .left hin hn rfl rfl hl₁
    (by rintro x (rfl | hx); exacts [hE x (.inl hnew), hE x (.inr (.inl hx))])).bind ?_
  rintro - - _ F₂ t₂ s₂ ⟨h₂, -⟩ - ⟨rfl, hperm, hn₂⟩
  have hr₂ : ∀ x, right = some x → x ∈ F₂.refs := fun x hx => hperm.mem_iff.mpr (hr₁ x hx)
  refine (Twins.concur_fill h₂ .right (hperm.mem_iff.mpr hin) hn₂ rfl rfl hr₂
    (by rintro x (rfl | hx); exacts [hE x (.inl hnew), hE x (.inr (.inr hx))])).bind ?_
  rintro - - _ F₃ t₃ s₃ h₃ - ⟨rfl, hperm₃, hn₃⟩
  exact h₃.concur_pure (minted_of_node? rfl (hperm₃.mem_iff.mpr (hperm.mem_iff.mpr hin)) hn₃ hnew)

/-! ## Giving trees back -/

/-- A tree without a parent is given back. -/
theorem Twins.freed (h : Twins ρ (p :: G) t s) (hr : p.ref? = some r) (hE : ∀ y ∈ p.refs, E.lost y) :
    Onward E ρ (p :: G) t ρ G (releaseTo t.nodes.size r t) (releaseTo s.nodes.size (ρ r) s) ∧
      (releaseTo t.nodes.size r t).roots = t.roots := by
  have hp := h.bears.trees p List.mem_cons_self
  have hp' := h.in_rename hp (List.subset_append_left _ _)
  have ha' : s.Apart ((p.rename ρ).refs ++ G.refs.map ρ) := by
    rw [Planted.refs_rename, ← List.map_append]
    exact h.apart
  have hfree := releaseTo_spec hp ((hp.stands h.bears.apart).depth_le h.bears.apart) hr
    h.bears.apart.accounted
  have hfree' := releaseTo_spec hp' ((hp'.stands ha').depth_le ha')
    (by rw [Planted.ref?_rename, hr, Option.map_some]) ha'.accounted
  have hG := h.tail
  refine ⟨h.next (h.idle.self.releaseTo _ _) ?_ ?_ hfree'.accounted.toApart ?_ ?_
    (fun x hx _ _ => hfree.kept.nodes x hx) (rerooted_of_eq hfree.kept.roots hfree'.kept.roots),
    hfree.kept.roots⟩
  · exact hG.bears.congr hfree.kept.nodes hfree.accounted.toApart
  · exact fun x hx => hG.node?_eq (fun _ _ => rfl) hx hfree.kept.nodes fun y hy =>
      hfree'.kept.nodes _ (List.mem_map_of_mem hy)
  · exact fun x hx _ => ⟨List.mem_append_right _ hx, rfl⟩
  · intro x hx hlost
    exact (List.mem_append.mp hx).resolve_left fun hm => hlost (hE x hm)

/-- Giving back a node without a parent. -/
theorem Twins.concur_free (h : Twins ρ F t s) (hx : x ∈ F.refs) (hp : t.parent? x = none)
    (hE : ∀ y ∈ t.postOrder x, E.lost y) :
    ConcurOr E ρ F (modify fun s => releaseTo s.nodes.size x s : Act (Store κ) Unit) t
      (modify fun s => releaseTo s.nodes.size (ρ x) s : Act (Store κ) Unit) s
      (fun _ _ _ _ t' => t'.roots = t.roots) Q := by
  obtain ⟨p, G, hperm, hr⟩ := h.bears.exists_root hx hp
  have hpG := h.perm hperm.symm
  have hbelow := hpG.bears.postOrder_eq (hpG.bears.trees p List.mem_cons_self)
    (List.subset_append_left _ _) hpG.bears.apart.of_append_left.nodup_used hr
  obtain ⟨ho, hroots⟩ := hpG.freed hr fun y hy => hE y (hbelow ▸ hy)
  exact tandem_of_ok rfl rfl ⟨ρ, G, ho.of_perm hperm.symm, rfl, hroots⟩

/-- **Giving a tree back**, after cutting it off its parent. Only cutting it off may be refused, and then
nothing is lost. -/
theorem Twins.concur_release (h : Twins ρ F t s) (hx : x ∈ F.refs) (hE : ∀ y ∈ t.postOrder x, E.lost y)
    (hcut : t.parent? x ≠ none → ∀ y, E.touched y) :
    ConcurOr E ρ F (release (some x)) t (release (some (ρ x))) s (fun _ _ _ _ t' => t'.roots = t.roots)
      fun _ F' _ => F.refs ⊆ F'.refs ∧ t.parent? x ≠ none := by
  unfold release
  refine concur_get ?_
  rw [h.renames.parent?_eq hx]
  cases hp : t.parent? x with
  | none => exact h.concur_free hx hp hE
  | some owner =>
    have hcut := (h.concur_replaceChild (h.renames.parents hx hp) (some x) none
      (fun c hc => Option.some.inj hc ▸ hx) (by simp) (hcut (by simp [hp]))).keeping fun _ => id
    refine ConcurOr.bind ((hcut.within E.links_within).weaken (fun _ _ _ _ _ => id) fun _ _ _ hk => ⟨hk, Option.some_ne_none owner⟩) ?_
    rintro - - _ F₁ t₁ s₁ ⟨h₁, -⟩ - ⟨rfl, hperm, hroots, hcut⟩
    obtain ⟨hbelow, hparent⟩ := hcut x rfl
    refine (Twins.concur_free h₁ (hperm.mem_iff.mpr hx) (hparent rfl) fun y hy => hE y (hbelow ▸ hy)).weaken
      (fun _ _ _ _ _ hr => hr.trans hroots) fun _ _ _ => id

/-! ## Copying -/

/-- What two acts made alike: a tree of nodes that come after the first `nodes`, or nothing. -/
structure Grown (nodes : Nat) (ρ : Ref → Ref) (F : Forest κ) (t : Store κ) (r r' : Option Ref) : Prop where
  same : r' = r.map ρ
  root : ∀ x, r = some x → x ∈ F.refs ∧ t.parent? x = none
  fresh : ∀ x, r = some x → ∀ y ∈ t.postOrder x, nodes ≤ y

/-- A tree that was made on both sides was grown there. -/
theorem Twins.grown {b' : Int} (h : Twins ρ F t s) (hm : Made b (List.range t.nodes.size) t p t')
    (hidle : t'.Idle t.nodes.size) (hm' : Made b' (F.refs.map ρ) s q s') (htree : p.tree = q.tree)
    (hsp : p.tree.isSpelled = true) :
    ∃ ρ', Onward E ρ F t ρ' (p :: F) t' s' ∧ Grown t.nodes.size ρ' (p :: F) t' p.ref? q.ref? := by
  have hnd := hm.accounted.nodup_used
  obtain ⟨ρ', rfl, ho⟩ := h.made (E := E) hm hidle hm' htree hsp
  refine ⟨ρ', ho, Planted.ref?_rename ρ' p, fun x hx => ?_, fun x hx y hy => Nat.not_lt.mp fun hlt => ?_⟩
  · exact ⟨List.mem_append_left _ (Planted.mem_refs_of_ref? hx), hm.stands.parent?_eq hx⟩
  · rw [ho.twins.bears.postOrder_eq hm.stands (List.subset_append_left _ _) (List.nodup_append.mp hnd).1 hx] at hy
    exact (List.nodup_append.mp hnd).2.2 y hy y (List.mem_range.mpr hlt) rfl

/-- **A tree made on both sides.** -/
theorem Twins.concur_made {act act' : Act (Store κ) (Option Ref)} (h : Twins ρ F t s) (tree : Tree κ)
    (hl : act.Succeeds t fun r t' => ∃ (q : Planted κ) (b : Int), q.tree = tree ∧ q.ref? = r ∧
      Made b (List.range t.nodes.size) t q t')
    (hi : Preserves (Idle t.nodes.size) act)
    (hr : act'.Succeeds s fun r s' => ∃ (q : Planted κ) (b : Int), q.tree = tree ∧ q.ref? = r ∧
      Made b (F.refs.map ρ) s q s') (hsp : tree.isSpelled = true) :
    Concur E ρ F act t act' s fun r r' ρ' F' t' => Grown t.nodes.size ρ' F' t' r r' := by
  refine (hl.preserves hi h.idle.self).tandem hr ?_
  rintro _ _ t' s' ⟨⟨q, b, rfl, rfl, hm⟩, hidle⟩ ⟨q', b', htree, rfl, hm'⟩
  obtain ⟨ρ', ho, hg⟩ := h.grown (E := E) hm hidle hm' htree.symm hsp
  exact ⟨ρ', _, ho, rfl, hg⟩

/-- **Copying a tree.** -/
theorem Twins.concur_copy (h : Twins ρ F t s) (hx : x ∈ F.refs) :
    Concur E ρ F (copy x) t (copy (ρ x)) s fun r r' ρ' F' t' => Grown t.nodes.size ρ' F' t' r r' := by
  obtain ⟨q, hq, hstands, hsp, hstands'⟩ := h.exists_stands hx
  have hwide : q.Stands t (List.range t.nodes.size) (t.parent? x) :=
    hstands.mono fun y hy => List.mem_range.mpr (h.lt_size hy)
  have hspelled : ∀ {f : Fault} {u : Store κ} {used : List Ref} {s : Store κ},
      q.tree.isSpelled = false ∧ Stopped used s f u → False := fun hf => by
    rw [hsp] at hf
    cases hf.1
  refine h.concur_made q.tree ?_ (idle_copy x) ?_ hsp
  · refine (copy_spec hwide hq h.idle.apart.accounted).mono ?_ fun _ _ => hspelled
    rintro r u ⟨-, q', htree, hr, hm⟩
    exact ⟨q', _, htree, hr, hm⟩
  · refine (copy_spec hstands' (by rw [Planted.ref?_rename, hq, Option.map_some])
      h.apart.accounted).mono ?_ ?_
    · rintro r u ⟨-, q', htree, hr, hm⟩
      exact ⟨q', _, htree.trans (Planted.tree_rename ρ q), hr, hm⟩
    · rintro f u hf
      rw [Planted.tree_rename] at hf
      exact hspelled hf

/-! ## Expressions -/

/-- Other roots alone leave the twins what they are. -/
theorem Twins.rerooted (h : Twins ρ F t s) {rs rs' : Array (Option Ref)}
    (hr : Rerooted E ρ F t { t with roots := rs } s { s with roots := rs' }) :
    Onward E ρ F t ρ F { t with roots := rs } { s with roots := rs' } := by
  have ht : ({ t with roots := rs } : Store κ).Bears F :=
    h.bears.congr (fun _ _ => rfl) ⟨h.bears.apart.nodup, h.bears.apart.bound⟩
  exact h.next ⟨h.idle.spare, h.idle.room, Nat.le_refl _⟩ ht (fun x hx => h.renames.nodes x hx)
    ⟨h.apart.nodup, h.apart.bound⟩ (fun x hx _ => ⟨hx, rfl⟩) (fun x hx _ => hx) (fun _ _ _ _ => rfl) hr

/-- An expression gets another root on both sides. -/
theorem Twins.rooted (h : Twins ρ F t s) (hE : E.changed e) (hc : ∀ x, child = some x → x ∈ F.refs) :
    Onward E ρ F t ρ F (t.writeRoot e child) (s.writeRoot e (child.map ρ)) := by
  have hplaces : (t.writeRoot e child).roots.size = t.roots.size := Array.size_setIfInBounds
  have hplaces' : (s.writeRoot e (child.map ρ)).roots.size = s.roots.size := Array.size_setIfInBounds
  refine h.rerooted ⟨Nat.le_of_eq hplaces.symm, fun hsame => hplaces'.trans (hsame.trans hplaces.symm), fun e' => ?_⟩
  have ht := root?_writeRoot t e e' child
  have hs := root?_writeRoot s e e' (child.map ρ)
  rw [h.places] at hs
  by_cases he : e' = e ∧ e.place < t.roots.size
  · rw [if_pos he] at ht hs
    exact .inr ⟨fun _ => he.1 ▸ hE, fun r hr => hc r (ht.symm.trans hr), hs.trans (congrArg _ ht.symm)⟩
  · rw [if_neg he] at ht hs
    exact .inl ⟨ht, hs⟩

/-- What is above a node, if anything, is the same on both sides. -/
theorem Twins.bind_parent? (h : Twins ρ F t s) (hc : ∀ x, child = some x → x ∈ F.refs) :
    (child.map ρ).bind s.parent? = (child.bind t.parent?).map ρ := by
  cases child with
  | none => rfl
  | some x => exact h.renames.parent?_eq (hc x rfl)

/-- **Giving an expression a root.** A refusal changes nothing. -/
theorem Twins.concur_setRoot (h : Twins ρ F t s) (hE : E.changed e) (hc : ∀ x, child = some x → x ∈ F.refs) :
    ConcurOr E ρ F (setRoot e child) t (setRoot e (child.map ρ)) s
      (fun _ _ ρ' F' t' => ρ' = ρ ∧ F' = F ∧ t' = t.writeRoot e child)
      fun ρ' F' t' => ρ' = ρ ∧ F' = F ∧ t' = t := by
  unfold setRoot
  refine concur_get ?_
  rw [h.bind_parent? hc]
  cases child.bind t.parent? with
  | some p => exact h.abreast.concur_throw ⟨rfl, rfl, rfl⟩
  | none => exact tandem_of_ok rfl rfl ⟨ρ, F, h.rooted hE hc, rfl, rfl, rfl, rfl⟩

theorem root?_push (s : Store κ) (e : Expression) (x : Option Ref) :
    ({ s with roots := s.roots.push x } : Store κ).root? e =
      if e.place = s.roots.size then x else s.root? e := by
  unfold root?
  rw [Array.getElem?_push]
  split <;> rfl

theorem Twins.pushed (h : Twins ρ F t s) (hc : ∀ x, child = some x → x ∈ F.refs) :
    Onward E ρ F t ρ F { t with roots := t.roots.push child }
      { s with roots := s.roots.push (child.map ρ) } := by
  refine h.rerooted ⟨by simp, fun hsame => by simp [hsame], fun e => ?_⟩
  rw [root?_push, root?_push, h.places]
  by_cases he : e.place = t.roots.size
  · rw [if_pos he, if_pos he]
    exact .inr ⟨fun hlt => absurd he (Nat.ne_of_lt hlt), hc, rfl⟩
  · rw [if_neg he, if_neg he]
    exact .inl ⟨rfl, rfl⟩

/-- **Making an expression.** -/
theorem Twins.concur_newExpression (h : Twins ρ F t s) (hc : ∀ x, child = some x → x ∈ F.refs) :
    Concur E ρ F (newExpression child) t (newExpression (child.map ρ)) s fun e e' ρ' F' t' =>
      e' = e ∧ ρ' = ρ ∧ F' = F ∧ e = ⟨t.roots.size⟩ ∧ t' = { t with roots := t.roots.push child } := by
  unfold newExpression
  refine concur_get ?_
  rw [h.bind_parent? hc]
  cases child.bind t.parent? with
  | some p => exact h.abreast.concur_throw trivial
  | none =>
    exact tandem_of_ok rfl rfl
      ⟨ρ, F, h.pushed hc, rfl, congrArg Expression.mk h.places, rfl, rfl, rfl, rfl⟩

/-- The nodes below a node depend on the nodes only. -/
theorem postOrder_congr (h : t'.nodes = t.nodes) (r : Ref) : t'.postOrder r = t.postOrder r := by
  have hto : ∀ depth r, t'.postOrderTo depth r = t.postOrderTo depth r := by
    intro depth
    induction depth with
    | zero => exact fun _ => rfl
    | succ depth ih =>
      intro r
      have hc : t'.children r = t.children r := by rw [children, children, node?, node?, h]
      rw [postOrderTo, postOrderTo, hc, List.flatMap_congr fun x _ => ih x]
  rw [postOrder, postOrder, h, hto]

theorem postOrder_writeRoot (t : Store κ) (e : Expression) (x : Option Ref) (r : Ref) :
    (t.writeRoot e x).postOrder r = t.postOrder r :=
  have h : (t.writeRoot e x).nodes = t.nodes := rfl
  postOrder_congr h r

theorem postOrder_push (t : Store κ) (x : Option Ref) (r : Ref) :
    ({ t with roots := t.roots.push x } : Store κ).postOrder r = t.postOrder r :=
  have h : ({ t with roots := t.roots.push x } : Store κ).nodes = t.nodes := rfl
  postOrder_congr h r

/-- **Giving the tree of an expression back.** If this is refused, nothing is lost. -/
theorem Twins.concur_releaseExpression (h : Twins ρ F t s) (hE : E.changed e)
    (hlive : ∀ r, t.root? e = some r → r ∈ F.refs)
    (hlost : ∀ r, t.root? e = some r → ∀ y ∈ t.postOrder r, E.lost y)
    (hcut : (t.root? e).bind t.parent? ≠ none → ∀ y, E.touched y) :
    ConcurOr E ρ F (releaseExpression e) t (releaseExpression e) s (fun _ _ _ _ t' => t'.root? e = none)
      fun _ F' _ => F.refs ⊆ F'.refs ∧ (t.root? e).bind t.parent? ≠ none := by
  have hroot : (t.writeRoot e none).root? e = none := by
    rw [root?_writeRoot]
    by_cases hlt : e.place < t.roots.size
    · rw [if_pos ⟨rfl, hlt⟩]
    · rw [if_neg fun hm => hlt hm.2, root?, Array.getElem?_eq_none (Nat.not_lt.mp hlt)]
      rfl
  have ho : Onward E ρ F t ρ F (t.writeRoot e none) (s.writeRoot e none) := h.rooted hE (by simp)
  unfold releaseExpression
  refine concur_get ?_
  rw [h.roots e hlive]
  refine concur_modify ho ?_
  cases hr : t.root? e with
  | none => exact ho.twins.abreast.concur_pure hroot
  | some r =>
    rw [hr] at hcut
    refine ConcurOr.weaken (Twins.concur_release ho.twins (hlive r hr) (fun y hy => ?_) hcut) ?_ fun _ _ _ => id
    · rw [postOrder_writeRoot] at hy
      exact hlost r hr y hy
    intro _ _ _ _ t' hroots
    rw [root?, hroots]
    exact hroot

/-- What hangs at a root is the same after acts that do nothing to it. -/
theorem Onward.standing (ho : Onward E ρ F t ρ' F' t' s') (h : Twins ρ F t s) (hr : r ∈ F.refs)
    (hp : t.parent? r = none) (hx : ∀ y ∈ t.postOrder r, ¬E.lost y ∧ ¬E.touched y) :
    r ∈ F'.refs ∧ t'.parent? r = none ∧ t'.postOrder r = t.postOrder r := by
  obtain ⟨p, G, hperm, hroot⟩ := h.bears.exists_root hr hp
  have hin := h.bears.trees p (hperm.mem_iff.mpr List.mem_cons_self)
  have hsub : p.refs ⊆ F.refs := Forest.subset_refs (hperm.mem_iff.mpr List.mem_cons_self)
  have hnd : p.refs.Nodup := ((h.bears.perm hperm.symm).apart.of_append_left).nodup_used
  have hbelow := h.bears.postOrder_eq hin hsub hnd hroot
  rw [hbelow] at hx ⊢
  have hsub' : p.refs ⊆ F'.refs := fun y hy => ho.kept y (hsub hy) (hx y hy).1
  have hin' : p.In t' none := hin.congr fun y hy => ho.links y (hsub' hy) (h.lt_size (hsub hy)) (hx y hy).2
  exact ⟨hsub' (Planted.mem_refs_of_ref? hroot), hin'.parent?_eq hroot,
    ho.twins.bears.postOrder_eq hin' hsub' hnd hroot⟩

/-- An expression was made beyond the places that were there, of nodes that come after the first `nodes`: it
is the same on both sides, and its root is a tree of the forest. -/
structure Opened (nodes places : Nat) (e e' : Expression) (F : Forest κ) (t : Store κ) : Prop where
  same : e' = e
  beyond : places ≤ e.place
  placed : e.place < t.roots.size
  root : ∀ r, t.root? e = some r → r ∈ F.refs ∧ t.parent? r = none
  fresh : ∀ r, t.root? e = some r → ∀ y ∈ t.postOrder r, nodes ≤ y

theorem Opened.mono {e' : Expression} {n m n' m' : Nat} (h : Opened n m e e' F t) (hn : n' ≤ n) (hm : m' ≤ m) :
    Opened n' m' e e' F t :=
  ⟨h.same, Nat.le_trans hm h.beyond, h.placed, h.root, fun r hr y hy => Nat.le_trans hn (h.fresh r hr y hy)⟩

/-- An expression stays open under acts that do nothing to it. -/
theorem Opened.kept {e' : Expression} {n m : Nat} (h : Opened n m e e' F t) (ht : Twins ρ F t s)
    (ho : Onward E ρ F t ρ' F' t' s') (hc : ¬E.changed e)
    (hx : ∀ r, t.root? e = some r → ∀ y ∈ t.postOrder r, ¬E.lost y ∧ ¬E.touched y) :
    Opened n m e e' F' t' := by
  have hroot := ho.roots e h.placed hc
  refine ⟨h.same, h.beyond, Nat.lt_of_lt_of_le h.placed ho.places, fun r hr => ?_, fun r hr y hy => ?_⟩ <;>
    rw [hroot] at hr
  · obtain ⟨hin, hp, -⟩ := ho.standing ht (h.root r hr).1 (h.root r hr).2 (hx r hr)
    exact ⟨hin, hp⟩
  · obtain ⟨-, -, hbelow⟩ := ho.standing ht (h.root r hr).1 (h.root r hr).2 (hx r hr)
    exact h.fresh r hr y (hbelow ▸ hy)

/-- An expression stays open where nothing happens but to what is new. -/
theorem Opened.stays {e' : Expression} {n m k l : Nat} (h : Opened n m e e' F t) (ht : Twins ρ F t s)
    (ho : Onward (.beyond k l) ρ F t ρ' F' t' s') (hk : t.nodes.size ≤ k) (hl : t.roots.size ≤ l) :
    Opened n m e e' F' t' := by
  refine h.kept ht ho (fun hc => ?_) fun r hr y hy => ?_
  · exact absurd (Nat.le_trans hl hc) (Nat.not_le.mpr h.placed)
  · have hlt := Nat.lt_of_lt_of_le (ht.lt_size (ht.bears.subset_postOrder (h.root r hr).1 hy)) hk
    exact ⟨Nat.not_le.mpr hlt, Nat.not_le.mpr hlt⟩

/-- The root of an open expression is one that was there, whatever was made since. -/
theorem Opened.below {e' : Expression} {n m : Nat} (h : Opened n m e e' F t) (ht : Twins ρ F t s)
    (ho : Onward (.beyond t.nodes.size t.roots.size) ρ F t ρ' F' t' s') :
    ∀ r, t'.root? e = some r → r < t.nodes.size := by
  intro r hr
  rw [ho.roots e h.placed (Nat.not_le.mpr h.placed)] at hr
  exact ht.lt_size (h.root r hr).1

/-- What hangs at a new node is new, where the links of the nodes before were not touched. -/
theorem Onward.fresh (ho : Onward E ρ F t ρ' F' t' s') (h : Twins ρ F t s)
    (hE : ∀ x < t.nodes.size, ¬E.touched x) (hr : r ∈ F'.refs) (hnew : t.nodes.size ≤ r) :
    ∀ y ∈ t'.postOrder r, t.nodes.size ≤ y := by
  -- an old node below a new one would have been below it before, when that was not there
  have hbelow : ∀ {x y : Ref}, t.nodes.size ≤ y → x ∈ F'.refs → t'.parent? x = some y → t.nodes.size ≤ x := by
    intro x y hy hx hp
    by_contra hlt
    have hlt := Nat.not_le.mp hlt
    have hp' : t.parent? x = some y := by
      rw [← hp, parent?, parent?, ho.links x hx hlt (hE x hlt)]
    exact absurd (h.lt_size (h.bears.mem_of_parent? (ho.old x hx hlt).1 hp').1) (Nat.not_lt.mpr hy)
  have htree : ∀ (q : Planted κ) (above : Option Ref), q.In t' above → q.refs ⊆ F'.refs →
      (∀ x, q.ref? = some x → t.nodes.size ≤ x) → ∀ y ∈ q.refs, t.nodes.size ≤ y := by
    intro q
    induction q with
    | absent =>
      intro _ _ _ _ y hy
      cases hy
    | literal x v => exact fun _ _ _ hx y hy => List.mem_singleton.mp hy ▸ hx x rfl
    | var x n => exact fun _ _ _ hx y hy => List.mem_singleton.mp hy ▸ hx x rfl
    | unary x op p ih =>
      intro above hin hsub hx y hy
      rw [Planted.refs, List.append_subset] at hsub
      rw [Planted.refs, List.mem_append, List.mem_singleton] at hy
      obtain hy | rfl := hy
      · refine ih _ hin.2 hsub.1 (fun z hz => ?_) y hy
        exact hbelow (hx x rfl) (hsub.1 (Planted.mem_refs_of_ref? hz)) (hin.2.parent?_eq hz)
      · exact hx y rfl
    | binary x op p q ihp ihq =>
      intro above hin hsub hx y hy
      rw [Planted.refs, List.append_subset, List.append_subset] at hsub
      rw [Planted.refs, List.mem_append, List.mem_append, List.mem_singleton] at hy
      obtain (hy | hy) | rfl := hy
      · refine ihp _ hin.2.1 hsub.1.1 (fun z hz => ?_) y hy
        exact hbelow (hx x rfl) (hsub.1.1 (Planted.mem_refs_of_ref? hz)) (hin.2.1.parent?_eq hz)
      · refine ihq _ hin.2.2 hsub.1.2 (fun z hz => ?_) y hy
        exact hbelow (hx x rfl) (hsub.1.2 (Planted.mem_refs_of_ref? hz)) (hin.2.2.parent?_eq hz)
      · exact hx y rfl
  obtain ⟨q, hq, hstands, -⟩ := ho.twins.bears.exists_stands hr
  rw [ho.twins.bears.postOrder_eq hstands.isIn hstands.subset hstands.nodup hq]
  exact htree q _ hstands.isIn hstands.subset fun x hx => Option.some.inj (hq.symm.trans hx) ▸ hnew

/-- An expression of what was made on both sides. -/
theorem Twins.concur_open (h : Twins ρ F t s) {r r' : Option Ref} {nodes places : Nat}
    (hp : places ≤ t.roots.size) (hr : Grown nodes ρ F t r r') :
    Concur E ρ F (newExpression r) t (newExpression r') s fun e e' _ F' t' =>
      Opened nodes places e e' F' t' := by
  rw [hr.same]
  refine (h.concur_newExpression fun x hx => (hr.root x hx).1).mono ?_
  rintro _ _ ρ' F' _ ⟨rfl, rfl, rfl, rfl, rfl⟩
  refine ⟨rfl, hp, by simp, fun x hx => ?_, fun x hx y hy => ?_⟩ <;> rw [root?_push, if_pos rfl] at hx
  · exact hr.root x hx
  · rw [postOrder_push] at hy
    exact hr.fresh x hx y hy

/-- **Copying an expression.** -/
theorem Twins.concur_copyExpression (h : Twins ρ F t s) (hlive : ∀ r, t.root? e = some r → r ∈ F.refs) :
    Concur E ρ F (copyExpression e) t (copyExpression e) s fun e₁ e₂ _ F' t' =>
      Opened t.nodes.size t.roots.size e₁ e₂ F' t' := by
  unfold copyExpression
  refine concur_get ?_
  rw [h.roots e hlive]
  cases hr : t.root? e with
  | none => exact h.concur_open (Nat.le_refl _) ⟨rfl, fun _ hx => (nomatch hx), fun _ hx => (nomatch hx)⟩
  | some r =>
    refine (h.concur_copy (hlive r hr)).bind ?_
    rintro c c' ρ₁ F₁ t₁ s₁ ⟨h₁, -⟩ ho hc
    exact Twins.concur_open h₁ ho.places hc

/-- Giving back the tree of an expression. -/
def giving (t : Store κ) (e : Expression) : Effect :=
  ⟨fun y => ∃ r, t.root? e = some r ∧ y ∈ t.postOrder r, fun _ => False, (· = e)⟩

theorem Opened.giving_within {e' : Expression} {n m : Nat} (h : Opened n m e e' F t) :
    (giving t e).Within (.beyond n m) := by
  refine ⟨?_, fun _ => False.elim, ?_⟩
  · rintro y ⟨r, hr, hy⟩
    exact h.fresh r hr y hy
  · rintro _ rfl
    exact h.beyond

/-- **Giving an open expression back.** -/
theorem Opened.concur_release {e' : Expression} {n m : Nat} (ho : Opened n m e e' F t) (h : Twins ρ F t s) :
    ConcurOr (giving t e) ρ F (releaseExpression e) t (releaseExpression e') s
      (fun _ _ _ _ t' => t'.root? e = none) Q := by
  obtain rfl := ho.same
  have hnone : (t.root? e').bind t.parent? = none := by
    cases hr : t.root? e' with
    | none => rfl
    | some r => exact (ho.root r hr).2
  exact (h.concur_releaseExpression (E := giving t e') rfl (fun r hr => (ho.root r hr).1)
    (fun r hr y hy => ⟨r, hr, hy⟩) (absurd hnone)).weaken (fun _ _ _ _ _ => id) fun _ _ _ hq => absurd hnone hq.2

/-- Two expressions are different, and have no root in common. -/
structure Beside (t : Store κ) (e d : Expression) : Prop where
  differ : e ≠ d
  apart : ∀ r, t.root? e = some r → t.root? d ≠ some r

theorem Beside.symm {d : Expression} (h : Beside t e d) : Beside t d e :=
  ⟨h.differ.symm, fun r hd he => h.apart r he hd⟩

/-- Expressions are beside each other as long as neither gets another root. -/
theorem Beside.onward {d : Expression} (h : Beside t e d) (ho : Onward E ρ F t ρ' F' t' s')
    (he : e.place < t.roots.size ∧ ¬E.changed e) (hd : d.place < t.roots.size ∧ ¬E.changed d) : Beside t' e d := by
  refine ⟨h.differ, ?_⟩
  rw [ho.roots e he.1 he.2, ho.roots d hd.1 hd.2]
  exact h.apart

/-- What was made after an expression is beside it. -/
theorem Opened.beside {d e' : Expression} {n m : Nat} (h : Opened n m e e' F t) (ht : Twins ρ F t s)
    (hd : d.place < m) (hold : ∀ r, t.root? d = some r → r < n) : Beside t e d := by
  refine ⟨?_, fun r hr hr' => ?_⟩
  · rintro rfl
    exact absurd h.beyond (Nat.not_le.mpr hd)
  · exact absurd (h.fresh r hr r (ht.bears.mem_postOrder_self (h.root r hr).1)) (Nat.not_le.mpr (hold r hr'))

/-- An expression stays open while one beside it is given back. -/
theorem Opened.kept_of_giving {d e' : Expression} {n m k l : Nat} (h : Opened n m e e' F t)
    (hd : Opened k l d d F t) (hb : Beside t e d) (ht : Twins ρ F t s)
    (ho : Onward (giving t d) ρ F t ρ' F' t' s') : Opened n m e e' F' t' := by
  refine h.kept ht ho hb.differ fun r hr y hy => ⟨?_, not_false⟩
  rintro ⟨x, hx, hlost⟩
  obtain ⟨hrF, hrp⟩ := h.root r hr
  obtain ⟨hxF, hxp⟩ := hd.root x hx
  refine ht.bears.disjoint_postOrder hrF hrp hxF hxp ?_ hy hlost
  rintro rfl
  exact hb.apart r hr hx

/-- **Replacing a subtree.** If this is refused, nothing is lost. -/
theorem Twins.concur_replaceSubtree (h : Twins ρ F t s) (hE : E.changed e) (hx : x ∈ F.refs)
    (hlive : ∀ r, t.root? e = some r → r ∈ F.refs) (hlost : ∀ y ∈ t.postOrder x, E.lost y)
    (hc : ∀ c, new = some c → c ∈ F.refs ∧ ∀ owner, t.parent? x = some owner → ¬t.ClosesCycle owner c)
    (hE' : ∀ y, E.touched y) :
    ConcurOr E ρ F (replaceSubtree e x new) t (replaceSubtree e (ρ x) (new.map ρ)) s
      (fun _ _ _ _ _ => True) fun _ F' _ => F.refs ⊆ F'.refs := by
  have hnew : ∀ c, new = some c → c ∈ F.refs := fun c hcc => (hc c hcc).1
  unfold replaceSubtree
  refine concur_get ?_
  rw [h.renames.parent?_eq hx]
  cases hp : t.parent? x with
  | some owner =>
    have hput := (h.concur_replaceChild (h.renames.parents hx hp) (some x) new
      (fun c hcc => Option.some.inj hcc ▸ hx) (fun c hcc => ⟨hnew c hcc, (hc c hcc).2 owner hp⟩) hE').keeping fun _ => id
    refine ConcurOr.bind (hput.within E.links_within) ?_
    rintro - - _ F₁ t₁ s₁ ⟨h₁, -⟩ - ⟨rfl, hperm, -, hbelow⟩
    exact (Twins.concur_release h₁ (hperm.mem_iff.mpr hx) (fun y hy =>
      hlost y ((hbelow x rfl).1 ▸ hy)) fun _ => hE').weaken (fun _ _ _ _ _ _ => trivial)
        fun _ _ _ hk => List.Subset.trans hperm.symm.subset hk.1
  | none =>
    refine concur_get ?_
    have hroot : s.root? e = some (ρ x) ↔ t.root? e = some x := by
      rw [h.roots e hlive]
      cases hr : t.root? e with
      | none => simp
      | some r => simp [h.renames.eq_iff (hlive r hr) hx]
    by_cases hat : t.root? e = some x
    · rw [if_pos hat, if_pos (hroot.mpr hat)]
      refine ConcurOr.bind ((h.concur_setRoot hE hnew).weaken (fun _ _ _ _ _ => id)
        fun _ _ _ hq => hq.2.1 ▸ List.Subset.refl _) ?_
      rintro - - _ _ _ s₁ ⟨h₁, -⟩ - ⟨rfl, rfl, rfl⟩
      have hbelow := postOrder_writeRoot t e new x
      exact (Twins.concur_release h₁ hx (fun y hy => hlost y (hbelow ▸ hy)) fun _ => hE').weaken
        (fun _ _ _ _ _ _ => trivial) fun _ _ _ => And.left
    · rw [if_neg hat, if_neg fun hm => hat (hroot.mp hm)]
      exact h.abreast.concur_throw (List.Subset.refl _)

end Store

end Fluxion
