import Fluxion.Proofs.Seats

/-!
# Passes over a tree in place

A pass lists the nodes of a tree, children before parents, and visits them in that order. A visit may
put another tree into the seat of the node it visits, which changes neither the nodes still to be
visited nor the seats they hang in. So if every visit does to the tree in its seat what a function
does to a plain tree, the whole pass does what the function does from the leaves up.

Both passes of the simplifier are of this kind, and with them its iterations. An iteration reports a
change exactly if the tree lost operations, so the iterations end where those on plain trees do.

* `Tree.bottomUp` applies a function from the leaves up.
* `Simplifier.Realises` says that a visit does what a function does.
* `Simplifier.visit_spec` goes from one visit to a pass.
* `Simplifier.run_spec` says that simplifying in place is simplifying the plain tree.
-/

namespace Fluxion

open Act

/-! ## Functions from the leaves up -/

namespace Tree

variable {κ : Type}

/-- The tree with a function applied at every node, children first. -/
def bottomUp (here : Tree κ → Tree κ) : Tree κ → Tree κ
  | absent => absent
  | literal v => here (literal v)
  | var n => here (var n)
  | binary op l r => here (binary op (l.bottomUp here) (r.bottomUp here))
  | unary op x => here (unary op (x.bottomUp here))

end Tree

namespace Simplifier

variable {κ : Type} [Scalar κ] (σ : Simplifier κ)

theorem fold_eq (t : Tree κ) : σ.fold t = t.bottomUp σ.foldHere := by
  induction t with
  | binary op l r ihl ihr => rw [fold, Tree.bottomUp, ihl, ihr]
  | unary op x ih => rw [fold, Tree.bottomUp, ih]
  | _ => rfl

theorem reduce_eq (t : Tree κ) : σ.reduce t = t.bottomUp σ.reduceHere := by
  induction t with
  | binary op l r ihl ihr => rw [reduce, Tree.bottomUp, ihl, ihr]
  | unary op x ih =>
    rw [reduce, Tree.bottomUp, ih]
    rfl
  | _ => rfl

end Simplifier

/-! ## Seats below a seat -/

namespace Store

variable {κ : Type} {s t : Store κ} {e : Expression} {seat : Seat} {used used' : List Ref} {b : Int}
  {p q p' : Planted κ} {r x : Ref} {op : Operator} {slot : Slot}

/-- A replacement in a slot changes nothing in use but the owner of the slot. -/
theorem Replaced.kept_outside (h : Replaced b e (.slot r slot) used' s q t) (hs : used ⊆ used')
    (hr : r ∉ used) : Kept used s t := by
  refine ⟨fun y hy => ?_, ?_⟩
  · have hne : y ≠ r := fun he => hr (he ▸ hy)
    rw [h.kept.nodes y (hs hy), Seat.assign, node?_writeSlot, if_neg hne]
  · rw [h.kept.roots]
    exact (relinks_writeSlot s r slot _).roots

theorem Replaced.node?_owner {c : Cell κ} {parent : Option Ref}
    (h : Replaced b e (.slot r slot) used s q t) (hn : s.node? r = some ⟨c, parent⟩)
    (hr : r ∈ used) : t.node? r = some ⟨c.setSlot slot q.ref?, parent⟩ := by
  rw [h.kept.nodes r hr, Seat.assign, node?_writeSlot, if_pos rfl, hn]
  rfl

/-- An operand hangs in a slot of its operation. -/
theorem Seated.below (F : Frame κ) (h : Seated e seat used s (F.fill p) r) (hx : p.ref? = some x) :
    Seated e (.slot r F.slot) (F.other.refs ++ r :: used) s p x := by
  obtain rfl := F.owner_eq h.ref
  obtain ⟨hn, hp, -⟩ := F.in_fill.mp h.isIn
  exact ⟨hx, hp, by simp, _, _, hn, (F.slot?_cell _).trans hx, fun sl' y hsl hy =>
    List.mem_append_left _ (Planted.mem_refs_of_ref? (F.ref?_other hsl hy))⟩

/-- While an operand is seen to, the other nodes of the operation are in use elsewhere. -/
theorem Accounted.below (F : Frame κ) (h : s.Accounted b ((F.fill p).refs ++ used)) :
    s.Accounted b (p.refs ++ (F.other.refs ++ F.owner :: used)) :=
  h.perm (F.perm_refs_fill_append p used).symm

/-- A replacement of an operand, seen from the seat of the operation. -/
theorem Replaced.of_below (F : Frame κ) (hp : Seated e seat used s (F.fill p) r)
    (h : Replaced b e (.slot r F.slot) (F.other.refs ++ r :: used) s p' t) :
    Replaced b e seat used s (F.fill p') t := by
  obtain rfl := F.owner_eq hp.ref
  obtain ⟨hn, -, ho⟩ := F.in_fill.mp hp.isIn
  have hnd := h.accounted.nodup_used
  simp only [List.nodup_append, List.nodup_cons, List.mem_cons, List.mem_append] at hnd
  have hro : F.owner ∉ F.other.refs := fun hm => hnd.2.1.2.2 _ hm _ (.inl rfl) rfl
  have hru : F.owner ∉ used := hnd.2.1.2.1.1
  have hn' := h.node?_owner hn (by simp)
  rw [F.setSlot_cell] at hn'
  have ho' := ho.kept (h.kept_outside (List.subset_append_left _ _) hro) (List.Subset.refl _)
  refine ⟨F.in_fill.mpr ⟨hn', h.isIn, ho'⟩, h.accounted.perm (F.perm_refs_fill_append p' used), ?_⟩
  rw [F.ref?_fill]
  exact hp.has.kept_assign.trans (h.kept_outside (by simp) hru)

end Store

/-! ## From a visit to a pass -/

namespace Simplifier

open Store

variable {κ : Type} {e : Expression} {act : Ref → Work κ Bool} {here : Tree κ → Tree κ} {seat : Seat}
  {used : List Ref} {b : Int} {w : Workspace κ} {p : Planted κ} {r : Ref}

/-- A flag that was set if a tree lost operations, and left alone if the tree is the same. -/
def Flagged (flag : Bool) (t t' : Tree κ) (flag' : Bool) : Prop :=
  (flag' = flag ∧ t' = t) ∨ (flag' = true ∧ t'.operations < t.operations)

theorem Flagged.trans {f f' f'' : Bool} {t t' t'' : Tree κ} (h : Flagged f t t' f')
    (h' : Flagged f' t' t'' f'') : Flagged f t t'' f'' := by
  rcases h' with ⟨rfl, rfl⟩ | ⟨rfl, ho'⟩
  · exact h
  · rcases h with ⟨-, rfl⟩ | ⟨-, ho⟩
    · exact .inr ⟨rfl, ho'⟩
    · exact .inr ⟨rfl, Nat.lt_trans ho' ho⟩

theorem Flagged.operations_lt {t t' : Tree κ} (h : Flagged false t t' true) :
    t'.operations < t.operations := by
  rcases h with ⟨hf, -⟩ | ⟨-, ho⟩
  · cases hf
  · exact ho

theorem Flagged.eq {t t' : Tree κ} (h : Flagged false t t' false) : t' = t := by
  rcases h with ⟨-, ht⟩ | ⟨hf, -⟩
  · exact ht
  · cases hf

theorem Flagged.unary {f f' : Bool} {t t' : Tree κ} (h : Flagged f t t' f') (op : Operator) :
    Flagged f (.unary op t) (.unary op t') f' := by
  rcases h with ⟨rfl, rfl⟩ | ⟨rfl, ho⟩
  · exact .inl ⟨rfl, rfl⟩
  · exact .inr ⟨rfl, Nat.add_lt_add_right ho 1⟩

theorem Flagged.left {f f' : Bool} {t t' : Tree κ} (h : Flagged f t t' f') (op : Operator)
    (r : Tree κ) : Flagged f (.binary op t r) (.binary op t' r) f' := by
  rcases h with ⟨rfl, rfl⟩ | ⟨rfl, ho⟩
  · exact .inl ⟨rfl, rfl⟩
  · exact .inr ⟨rfl, by simpa [Tree.operations] using ho⟩

theorem Flagged.right {f f' : Bool} {t t' : Tree κ} (h : Flagged f t t' f') (op : Operator)
    (l : Tree κ) : Flagged f (.binary op l t) (.binary op l t') f' := by
  rcases h with ⟨rfl, rfl⟩ | ⟨rfl, ho⟩
  · exact .inl ⟨rfl, rfl⟩
  · exact .inr ⟨rfl, by simpa [Tree.operations] using ho⟩

/-- A function that keeps a node or takes operations away does so to the whole tree. -/
theorem exists_flagged_bottomUp (hhere : ∀ f t, ∃ f', Flagged f t (here t) f') (t : Tree κ)
    (f : Bool) : ∃ f', Flagged f t (t.bottomUp here) f' := by
  induction t generalizing f with
  | absent => exact ⟨f, .inl ⟨rfl, rfl⟩⟩
  | literal v => exact hhere f _
  | var n => exact hhere f _
  | binary op l r ihl ihr =>
    obtain ⟨f₁, hl⟩ := ihl f
    obtain ⟨f₂, hr⟩ := ihr f₁
    obtain ⟨f₃, hnode⟩ := hhere f₂ (.binary op (l.bottomUp here) (r.bottomUp here))
    exact ⟨f₃, ((hl.left op r).trans (hr.right op _)).trans hnode⟩
  | unary op x ih =>
    obtain ⟨f₁, hx⟩ := ih f
    obtain ⟨f₂, hnode⟩ := hhere f₁ (.unary op (x.bottomUp here))
    exact ⟨f₂, (hx.unary op).trans hnode⟩

/-- A visit does to the tree in its seat what a function does to a plain tree. -/
structure Realises (e : Expression) (act : Ref → Work κ Bool) (here : Tree κ → Tree κ) : Prop where
  visit : ∀ (b : Int) (seat : Seat) (used : List Ref) (w : Workspace κ) (p : Planted κ) (r : Ref),
    Seated e seat used w.store p r → w.store.Accounted b (p.refs ++ used) →
    p.tree.isWellFormed = true →
    (act r).Succeeds w fun changed w' => ∃ q : Planted κ, q.tree = here p.tree ∧
      Flagged false p.tree q.tree changed ∧ Replaced b e seat used w.store q w'.store
  wellFormed : ∀ t : Tree κ, t.isWellFormed = true → (here t).isWellFormed = true

/-- Visiting one node, given whether an earlier visit changed the tree. -/
theorem visit_one (ha : Realises e act here) (hp : Seated e seat used w.store p r)
    (h : w.store.Accounted b (p.refs ++ used)) (hw : p.tree.isWellFormed = true) (flag : Bool) :
    (do return (← act r) || flag).Succeeds w fun changed w' => ∃ q : Planted κ,
      q.tree = here p.tree ∧ Flagged flag p.tree q.tree changed ∧
        Replaced b e seat used w.store q w'.store := by
  refine (ha.visit b seat used w p r hp h hw).bind ?_
  rintro changed w' ⟨q, hq, hf, hr⟩
  refine ensures_pure ⟨q, hq, ?_, hr⟩
  rcases hf with ⟨rfl, ht⟩ | ⟨rfl, ho⟩
  · exact .inl ⟨rfl, ht⟩
  · exact .inr ⟨rfl, ho⟩

/-- **From a visit to a pass.** Visiting the nodes of a tree, children first, does to the tree what
the function of the visit does from the leaves up. -/
theorem visit_spec (ha : Realises e act here) (hp : Seated e seat used w.store p r)
    (h : w.store.Accounted b (p.refs ++ used)) (hw : p.tree.isWellFormed = true) (flag : Bool) :
    (p.refs.foldlM (fun changed r => do return (← act r) || changed) flag).Succeeds w
      fun changed w' => ∃ q : Planted κ, q.tree = p.tree.bottomUp here ∧
        q.tree.isWellFormed = true ∧ Flagged flag p.tree q.tree changed ∧
        Replaced b e seat used w.store q w'.store := by
  induction p generalizing seat used w r flag with
  | absent => cases hp.ref
  | literal x v =>
    obtain rfl : x = r := Option.some.inj hp.ref
    simp only [Planted.refs, List.foldlM_cons, List.foldlM_nil, bind_pure]
    refine (visit_one ha hp h hw flag).mono ?_
    rintro changed w' ⟨q, hq, hf, hr⟩
    exact ⟨q, hq, hq ▸ ha.wellFormed _ hw, hf, hr⟩
  | var x n =>
    obtain rfl : x = r := Option.some.inj hp.ref
    simp only [Planted.refs, List.foldlM_cons, List.foldlM_nil, bind_pure]
    refine (visit_one ha hp h hw flag).mono ?_
    rintro changed w' ⟨q, hq, hf, hr⟩
    exact ⟨q, hq, hq ▸ ha.wellFormed _ hw, hf, hr⟩
  | unary x op p ih =>
    obtain rfl : x = r := Option.some.inj hp.ref
    simp only [Planted.tree, Tree.isWellFormed, Bool.and_eq_true] at hw
    obtain ⟨y, hy⟩ := Planted.ref?_of_isWellFormed hw.2
    simp only [Planted.refs, List.foldlM_append, List.foldlM_cons, List.foldlM_nil, bind_pure]
    refine (ih (hp.below (.operand x op) hy) (h.below (.operand x op)) hw.2 flag).bind ?_
    rintro flag₁ w₁ ⟨p₁, hp₁, hw₁, hf₁, hr₁⟩
    have hr₁ : Replaced _ e seat used _ (.unary x op p₁) _ := hr₁.of_below (.operand x op) hp
    have hwf : (Planted.unary x op p₁).tree.isWellFormed = true := by
      simp [Planted.tree, Tree.isWellFormed, hw.1, hw₁]
    refine (visit_one ha (hp.of_replaced hr₁ rfl) hr₁.accounted hwf flag₁).ensures.mono ?_ fun _ _ => id
    rintro changed w' ⟨q, hq, hf, hr⟩
    refine ⟨q, ?_, hq ▸ ha.wellFormed _ hwf, ?_, hr₁.trans hr⟩
    · rw [hq, Planted.tree, Planted.tree, Tree.bottomUp, hp₁]
    · exact (hf₁.unary op).trans hf
  | binary x op p q ihp ihq =>
    obtain rfl : x = r := Option.some.inj hp.ref
    simp only [Planted.tree, Tree.isWellFormed, Bool.and_eq_true] at hw
    obtain ⟨y, hy⟩ := Planted.ref?_of_isWellFormed hw.1.2
    obtain ⟨z, hz⟩ := Planted.ref?_of_isWellFormed hw.2
    simp only [Planted.refs, List.foldlM_append, List.foldlM_cons, List.foldlM_nil, bind_pure,
      bind_assoc]
    refine (ihp (hp.below (.left x op q) hy) (h.below (.left x op q)) hw.1.2 flag).bind ?_
    rintro flag₁ w₁ ⟨p₁, hp₁, hw₁, hf₁, hr₁⟩
    have hr₁ : Replaced _ e seat used _ (.binary x op p₁ q) _ := hr₁.of_below (.left x op q) hp
    have hs₁ := hp.of_replaced hr₁ rfl
    have har := hr₁.accounted.below (.right x op p₁)
    refine (ihq (hs₁.below (.right x op p₁) hz) har hw.2 flag₁).bind ?_
    rintro flag₂ w₂ ⟨q₁, hq₁, hw₂, hf₂, hr₂⟩
    have hr₂ : Replaced _ e seat used _ (.binary x op p₁ q₁) _ := hr₂.of_below (.right x op p₁) hs₁
    have hs₂ := hs₁.of_replaced hr₂ rfl
    have hwf : (Planted.binary x op p₁ q₁).tree.isWellFormed = true := by
      simp [Planted.tree, Tree.isWellFormed, hw.1.1, hw₁, hw₂]
    refine (visit_one ha hs₂ hr₂.accounted hwf flag₂).ensures.mono ?_ fun _ _ => id
    rintro changed w' ⟨q', hq', hf, hr⟩
    refine ⟨q', ?_, hq' ▸ ha.wellFormed _ hwf, ?_, (hr₁.trans hr₂).trans hr⟩
    · rw [hq', Planted.tree, Planted.tree, Tree.bottomUp, hp₁, hq₁]
    · exact ((hf₁.left op q.tree).trans (hf₂.right op p₁.tree)).trans hf

/-- The nodes that a pass visits. -/
theorem schedule_of_seated (h : Seated e .root used w.store p r) (ha : w.store.Accounted b (p.refs ++ used)) :
    schedule w.store e = p.refs := by
  rw [schedule, h.root?_eq]
  exact (h.isIn.stands ha.toApart).postOrder_eq ha.toApart h.ref

/-- A pass over the tree of an expression. -/
theorem pass_spec {c : Nat} {own : Holdings κ} (ha : Realises e act here)
    (h : w.store.Holds b c ((e, p) :: own)) (hw : p.tree.isWellFormed = true) :
    (do visit act (← Work.look (schedule · e))).Succeeds w fun changed w' => ∃ q : Planted κ,
      q.tree = p.tree.bottomUp here ∧ q.tree.isWellFormed = true ∧
      Flagged false p.tree q.tree changed ∧ w'.store.Holds b c ((e, q) :: own) := by
  obtain ⟨r, hr⟩ := Planted.ref?_of_isWellFormed hw
  have hmem : (e, p) ∈ (e, p) :: own := List.mem_cons_self
  have hseat : Seated e .root own.refs w.store p r :=
    seated_of_root? (h.trees _ hmem) hr ((h.root?_eq hmem).trans hr)
  refine Work.ensures_look ?_
  rw [schedule_of_seated hseat h.accounted]
  refine (visit_spec ha hseat h.accounted hw false).mono ?_
  rintro changed w' ⟨q, hq, hwf, hf, hrep⟩
  exact ⟨q, hq, hwf, hf, h.reroot hrep.kept.roots hrep.kept.nodes hrep.isIn hrep.accounted⟩

end Simplifier

end Fluxion
