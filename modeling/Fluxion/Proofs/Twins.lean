import Fluxion.Proofs.Copying
import Fluxion.Proofs.Forests
import Fluxion.Proofs.Idle
import Fluxion.Proofs.Renaming

/-!
# Twin stores

Two stores are twins when they bear the same forest under different names and their expressions have
the same roots. The first one recycles nothing, so in it a name belongs to one node for good; the
second one may hand out a node again as soon as it was given back. When twins go
on as twins, the nodes that are still there keep their names, and new ones get new names.

* `Store.Twins` says that two stores are twins, and `Store.Onward` that they went on as twins.
* `Twins.next` says what it takes to go on.
* `Twins.made` adds a tree that was made on both sides, `Twins.relinked` changes links.
-/

namespace Fluxion

open Act

/-- What may happen to nodes and expressions that were there before. -/
structure Effect where
  /-- The node may be gone. -/
  lost : Ref → Prop
  /-- The links of the node may be others. -/
  touched : Ref → Prop
  /-- The expression may have another root. -/
  changed : Expression → Prop

namespace Effect

/-- Links change, and nothing else happens. -/
def links (touched : Ref → Prop) : Effect := ⟨fun _ => False, touched, fun _ => False⟩

/-- Something may happen to what comes after the first `nodes` nodes and the first `places` expressions. -/
def beyond (nodes places : Nat) : Effect := ⟨(nodes ≤ ·), (nodes ≤ ·), (places ≤ ·.place)⟩

/-- Whatever may happen by one may happen by the other. -/
structure Within (E E' : Effect) : Prop where
  lost : ∀ x, E.lost x → E'.lost x
  touched : ∀ x, E.touched x → E'.touched x
  changed : ∀ e, E.changed e → E'.changed e

theorem links_within (E : Effect) : (links E.touched).Within E :=
  ⟨fun _ => False.elim, fun _ => id, fun _ => False.elim⟩

theorem beyond_within {n m n' m' : Nat} (hn : n ≤ n') (hm : m ≤ m') : (beyond n' m').Within (beyond n m) :=
  ⟨fun _ => Nat.le_trans hn, fun _ => Nat.le_trans hn, fun _ => Nat.le_trans hm⟩

end Effect

namespace Store

variable {κ : Type} {ρ ρ' ρ'' : Ref → Ref} {F F' F'' G : Forest κ} {t s t' s' t'' s'' : Store κ}
  {p q q' : Planted κ} {r x owner : Ref} {slot : Slot} {child : Option Ref} {e : Expression} {b b' : Int}
  {E E' : Effect}

/-! ## Twins -/

/-- The store `t` recycles nothing and bears the forest `F`, and `s` bears it under the names `ρ`. An
expression whose root is in the forest, or that is empty, has the same root on both sides. -/
structure Twins (ρ : Ref → Ref) (F : Forest κ) (t s : Store κ) : Prop where
  idle : t.Idle 0
  bears : t.Bears F
  renames : Renames ρ F.refs t s
  apart : s.Apart (F.refs.map ρ)
  places : s.roots.size = t.roots.size
  bound : ∀ e r, t.root? e = some r → r < t.nodes.size
  roots : ∀ e, (∀ r, t.root? e = some r → r ∈ F.refs) → s.root? e = (t.root? e).map ρ

/-- Twins went on as twins. No node came back, and the nodes still there have the names they had, and the
links unless they were touched. Only nodes that may be lost are gone, and only expressions that may change
have another root, which is in the forest unless it was lost again. -/
structure Onward (E : Effect) (ρ : Ref → Ref) (F : Forest κ) (t : Store κ) (ρ' : Ref → Ref) (F' : Forest κ)
    (t' s' : Store κ) : Prop where
  twins : Twins ρ' F' t' s'
  size : t.nodes.size ≤ t'.nodes.size
  places : t.roots.size ≤ t'.roots.size
  old : ∀ x ∈ F'.refs, x < t.nodes.size → x ∈ F.refs ∧ ρ' x = ρ x
  kept : ∀ x ∈ F.refs, ¬E.lost x → x ∈ F'.refs
  links : ∀ x ∈ F'.refs, x < t.nodes.size → ¬E.touched x → t'.node? x = t.node? x
  roots : ∀ e, e.place < t.roots.size → ¬E.changed e → t'.root? e = t.root? e
  rooted : ∀ e, e.place < t.roots.size → t'.root? e = t.root? e ∨
    ∀ r, t'.root? e = some r → r ∈ F'.refs ∨ E.lost r

theorem Twins.onward (h : Twins ρ F t s) : Onward E ρ F t ρ F t s :=
  ⟨h, Nat.le_refl _, Nat.le_refl _, fun _ hx _ => ⟨hx, rfl⟩, fun _ hx _ => hx, fun _ _ _ _ => rfl,
    fun _ _ _ => rfl, fun _ _ => .inl rfl⟩

theorem Onward.trans (h : Onward E ρ F t ρ' F' t' s')
    (h' : Onward E ρ' F' t' ρ'' F'' t'' s'') :
    Onward E ρ F t ρ'' F'' t'' s'' := by
  refine ⟨h'.twins, Nat.le_trans h.size h'.size, Nat.le_trans h.places h'.places, fun x hx hlt => ?_,
    fun x hx hl => h'.kept x (h.kept x hx hl) hl, fun x hx hlt ht => ?_, fun e he hc => ?_, fun e he => ?_⟩
  · obtain ⟨hx', he'⟩ := h'.old x hx (Nat.lt_of_lt_of_le hlt h.size)
    obtain ⟨hx, he⟩ := h.old x hx' hlt
    exact ⟨hx, he'.trans he⟩
  · have hlt' := Nat.lt_of_lt_of_le hlt h.size
    exact (h'.links x hx hlt' ht).trans (h.links x (h'.old x hx hlt').1 hlt ht)
  · exact (h'.roots e (Nat.lt_of_lt_of_le he h.places) hc).trans (h.roots e he hc)
  · obtain hsame' | hlive' := h'.rooted e (Nat.lt_of_lt_of_le he h.places)
    · rw [hsame']
      refine (h.rooted e he).imp id fun hlive r hr => ?_
      by_cases hl : E.lost r
      · exact .inr hl
      · exact (hlive r hr).imp_left fun hr => h'.kept r hr hl
    · exact .inr hlive'

theorem Onward.mono (h : Onward E ρ F t ρ' F' t' s') (hE : E.Within E') : Onward E' ρ F t ρ' F' t' s' :=
  ⟨h.twins, h.size, h.places, h.old, fun x hx hl => h.kept x hx (mt (hE.lost x) hl),
    fun x hx hlt ht => h.links x hx hlt (mt (hE.touched x) ht),
    fun e he hc => h.roots e he (mt (hE.changed e) hc),
    fun e he => (h.rooted e he).imp id fun hr r he => (hr r he).imp_right (hE.lost r)⟩

/-- What happened only to what is new did not happen to anything that was there. -/
theorem Onward.of_beyond (h : Onward (.beyond t.nodes.size t.roots.size) ρ F t ρ' F' t' s')
    (hF : ∀ x ∈ F.refs, x < t.nodes.size) : Onward E ρ F t ρ' F' t' s' :=
  have hroots : ∀ e, e.place < t.roots.size → t'.root? e = t.root? e := fun e he =>
    h.roots e he (Nat.not_le.mpr he)
  ⟨h.twins, h.size, h.places, h.old, fun x hx _ => h.kept x hx (Nat.not_le.mpr (hF x hx)),
    fun x hx hlt _ => h.links x hx hlt (Nat.not_le.mpr hlt), fun e he _ => hroots e he,
    fun e he => .inl (hroots e he)⟩

theorem Twins.lt_size (h : Twins ρ F t s) (hx : x ∈ F.refs) : x < t.nodes.size := h.bears.apart.lt_size hx

/-- A node that is still there has the name it had. -/
theorem Onward.name_eq (h : Onward E ρ F t ρ' F' t' s') (ht : Twins ρ F t s) (hx : x ∈ F.refs)
    (hx' : x ∈ F'.refs) : ρ' x = ρ x := (h.old x hx' (ht.lt_size hx)).2

theorem Bears.renames (h : t.Bears F) (hinj : (F.refs.map ρ).Nodup)
    (hn : ∀ x ∈ F.refs, s.node? (ρ x) = (t.node? x).map (Node.rename ρ)) : Renames ρ F.refs t s :=
  ⟨fun _ hx _ hy he => List.inj_on_of_nodup_map hinj hx hy he, hn,
    fun hx hs => (h.mem_of_slot? hx hs).1, fun hx hp => (h.mem_of_parent? hx hp).1⟩

/-- Every expression has the root it had on both sides, or it is one that changed or is new, and its root
is the same node on both sides. -/
structure Rerooted (E : Effect) (ρ' : Ref → Ref) (F' : Forest κ) (t t' s s' : Store κ) : Prop where
  places : t.roots.size ≤ t'.roots.size
  same : s.roots.size = t.roots.size → s'.roots.size = t'.roots.size
  roots : ∀ e, t'.root? e = t.root? e ∧ s'.root? e = s.root? e ∨
    (e.place < t.roots.size → E.changed e) ∧ (∀ r, t'.root? e = some r → r ∈ F'.refs) ∧
      s'.root? e = (t'.root? e).map ρ'

theorem rerooted_of_eq (h : t'.roots = t.roots) (h' : s'.roots = s.roots) :
    Rerooted E ρ' F' t t' s s' := by
  refine ⟨Nat.le_of_eq (congrArg Array.size h.symm), fun he => by rw [h, h', he], fun e => .inl ⟨?_, ?_⟩⟩
  · rw [root?, h, root?]
  · rw [root?, h', root?]

/-- **How twins go on**: the new forest stands under its names, and the names of the nodes that were there
are the same. -/
theorem Twins.next (h : Twins ρ F t s) (hidle : t'.Idle t.nodes.size) (hb : t'.Bears F')
    (hn : ∀ x ∈ F'.refs, s'.node? (ρ' x) = (t'.node? x).map (Node.rename ρ'))
    (ha : s'.Apart (F'.refs.map ρ')) (hold : ∀ x ∈ F'.refs, x < t.nodes.size → x ∈ F.refs ∧ ρ' x = ρ x)
    (hkept : ∀ x ∈ F.refs, ¬E.lost x → x ∈ F'.refs)
    (hlinks : ∀ x ∈ F'.refs, x < t.nodes.size → ¬E.touched x → t'.node? x = t.node? x)
    (hr : Rerooted E ρ' F' t t' s s') : Onward E ρ F t ρ' F' t' s' := by
  refine ⟨⟨⟨hidle.spare, hidle.room, Nat.zero_le _⟩, hb, hb.renames ha.nodup_used hn, ha,
    hr.same h.places, fun e r he => ?_, fun e hlive => ?_⟩, hidle.size, hr.places, hold, hkept, hlinks,
    fun e he hc => ?_, fun e _ => (hr.roots e).imp And.left fun hlive r he => .inl (hlive.2.1 r he)⟩
  · obtain ⟨hsame, -⟩ | ⟨-, hlive, -⟩ := hr.roots e
    · exact Nat.lt_of_lt_of_le (h.bound e r (hsame ▸ he)) hidle.size
    · exact hb.apart.lt_size (hlive r he)
  · obtain ⟨hsame, hsame'⟩ | ⟨-, -, heq⟩ := hr.roots e
    · rw [hsame] at hlive
      have hname : ∀ r, t.root? e = some r → r ∈ F.refs ∧ ρ' r = ρ r := fun r he =>
        hold r (hlive r he) (h.bound e r he)
      rw [hsame, hsame', h.roots e fun r he => (hname r he).1]
      cases he : t.root? e with
      | none => rfl
      | some r => exact congrArg some (hname r he).2.symm
    · exact heq
  · obtain ⟨hsame, -⟩ | ⟨hchanged, -⟩ := hr.roots e
    · exact hsame
    · exact absurd (hchanged he) hc

/-! ### Forests of twins -/

theorem Twins.perm (h : Twins ρ F t s) (hp : G.Perm F) : Twins ρ G t s := by
  have hrefs := Forest.perm_refs hp
  have ha := h.apart.perm (hrefs.map ρ)
  refine ⟨h.idle, h.bears.perm hp, (h.bears.perm hp).renames ha.nodup_used fun x hx => ?_, ha, h.places,
    h.bound, fun e hlive => h.roots e fun r hr => hrefs.mem_iff.mp (hlive r hr)⟩
  exact h.renames.nodes x (hrefs.mem_iff.mp hx)

/-- A tree may be left out of account. -/
theorem Twins.tail (h : Twins ρ (p :: F) t s) : Twins ρ F t s := by
  have hsub : ∀ {x}, x ∈ F.refs → x ∈ Forest.refs (p :: F) := fun hx => List.mem_append_right _ hx
  have hb : t.Bears F := ⟨fun q hq => h.bears.trees q (List.mem_cons_of_mem _ hq),
    fun q hq => h.bears.spelled q (List.mem_cons_of_mem _ hq), h.bears.apart.of_append_right⟩
  have ha : s.Apart (F.refs.map ρ) := by
    have := h.apart
    rw [Forest.refs_cons, List.map_append] at this
    exact this.of_append_right
  exact ⟨h.idle, hb, hb.renames ha.nodup_used fun x hx => h.renames.nodes x (hsub hx), ha, h.places, h.bound,
    fun e hlive => h.roots e fun r hr => hsub (hlive r hr)⟩

/-- It does not matter in which order one starts from the forest. -/
theorem Onward.of_perm (h : Onward E ρ F t ρ' F' t' s') (hp : F.Perm G) :
    Onward E ρ G t ρ' F' t' s' := by
  have hrefs := Forest.perm_refs hp
  exact ⟨h.twins, h.size, h.places, fun x hx hlt => (h.old x hx hlt).imp_left hrefs.mem_iff.mp,
    fun x hx => h.kept x (hrefs.mem_iff.mpr hx), h.links, h.roots, h.rooted⟩

/-- A tree of the forest stands on the other side under its other names. -/
theorem Twins.in_rename {parent : Option Ref} (h : Twins ρ F t s) (hp : p.In t parent) (hs : p.refs ⊆ F.refs) :
    (p.rename ρ).In s (parent.map ρ) := hp.rename fun x hx => h.renames.nodes x (hs hx)

/-- What stands at a node of the forest stands at the node of the other name. -/
theorem Twins.exists_stands (h : Twins ρ F t s) (hx : x ∈ F.refs) :
    ∃ q : Planted κ, q.ref? = some x ∧ q.Stands t F.refs (t.parent? x) ∧ q.tree.isSpelled = true ∧
      (q.rename ρ).Stands s (F.refs.map ρ) ((t.parent? x).map ρ) := by
  obtain ⟨q, hq, hstands, hsp⟩ := h.bears.exists_stands hx
  refine ⟨q, hq, hstands, hsp, h.in_rename hstands.isIn hstands.subset, ?_, ?_⟩
  · rw [Planted.refs_rename]
    exact List.map_subset ρ hstands.subset
  · rw [Planted.refs_rename]
    exact List.Nodup.map_on (fun y hy z hz he =>
      h.renames.injective y (hstands.subset hy) z (hstands.subset hz) he) hstands.nodup

/-- **The same trees hang on both sides.** -/
theorem Twins.tree_eq (h : Twins ρ F t s) (hx : x ∈ F.refs) : s.tree (some (ρ x)) = t.tree (some x) := by
  obtain ⟨q, hq, hstands, -, hstands'⟩ := h.exists_stands hx
  have ht := hstands.tree_eq h.bears.apart
  have hs := hstands'.tree_eq h.apart
  rw [Planted.ref?_rename, hq, Option.map_some] at hs
  rw [hq] at ht
  rw [hs, ht, Planted.tree_rename]

/-- What is in a slot, or in none, reads the same on both sides. -/
theorem Twins.tree_map (h : Twins ρ F t s) {x : Option Ref} (hx : ∀ r, x = some r → r ∈ F.refs) :
    s.tree (x.map ρ) = t.tree x := by
  cases x with
  | none => cases hs : s.nodes.size <;> cases ht : t.nodes.size <;> simp [tree, treeTo, hs, ht]
  | some r => exact h.tree_eq (hx r rfl)

/-! ### Trees made on both sides -/

/-- What is left of twins whose nodes were not touched: they are under all names that agree. -/
theorem Twins.node?_eq (h : Twins ρ F t s) (hname : ∀ y ∈ F.refs, ρ' y = ρ y) (hx : x ∈ F.refs)
    (ht : ∀ y ∈ F.refs, t'.node? y = t.node? y) (hs : ∀ y ∈ F.refs, s'.node? (ρ y) = s.node? (ρ y)) :
    s'.node? (ρ' x) = (t'.node? x).map (Node.rename ρ') := by
  obtain ⟨p, hp, hxp⟩ := List.mem_flatMap.mp hx
  have hsub := Forest.subset_refs hp
  have hin := h.bears.trees p hp
  have hsame : p.rename ρ' = p.rename ρ := Planted.rename_congr fun y hy => hname y (hsub hy)
  have hin' : (p.rename ρ').In s' none := by
    rw [hsame]
    refine (h.in_rename hin hsub).congr fun z hz => ?_
    rw [Planted.refs_rename] at hz
    obtain ⟨y, hy, rfl⟩ := List.mem_map.mp hz
    exact hs y (hsub hy)
  exact (hin.congr fun y hy => ht y (hsub hy)).node?_rename hin' hxp

/-- **A tree that was made on both sides** is a tree of the forest under new names. -/
theorem Twins.made (h : Twins ρ F t s) (hq : Made b (List.range t.nodes.size) t q t')
    (hidle : t'.Idle t.nodes.size) (hq' : Made b' (F.refs.map ρ) s q' s') (htree : q.tree = q'.tree)
    (hsp : q.tree.isSpelled = true) :
    ∃ ρ', q.rename ρ' = q' ∧ Onward E ρ F t ρ' (q :: F) t' s' := by
  have hnd := hq.accounted.nodup_used
  simp only [List.nodup_append] at hnd
  obtain ⟨ρ', rfl, hout⟩ := Planted.exists_rename ρ htree hnd.1
  have hnew : ∀ x ∈ q.refs, ¬x < t.nodes.size := fun x hx hlt =>
    hnd.2.2 x hx x (List.mem_range.mpr hlt) rfl
  have hname : ∀ x ∈ F.refs, ρ' x = ρ x := fun x hx => hout x fun hm => hnew x hm (h.lt_size hx)
  have hmap : F.refs.map ρ' = F.refs.map ρ := List.map_congr_left hname
  have hnodes : ∀ x ∈ F.refs, t'.node? x = t.node? x := fun x hx =>
    hq.kept.nodes x (List.mem_range.mpr (h.lt_size hx))
  have hF : t'.Bears F := h.bears.congr hnodes
    (hidle.apart_of_nodup h.bears.apart.nodup_used fun x hx => Nat.lt_of_lt_of_le (h.lt_size hx) hidle.size)
  have hb : t'.Bears (q :: F) := by
    refine ⟨fun p hp => ?_, fun p hp => ?_, hidle.apart_of_nodup ?_ fun x hx => ?_⟩
    · rcases List.mem_cons.mp hp with rfl | hp
      · exact hq.stands
      · exact hF.trees p hp
    · rcases List.mem_cons.mp hp with rfl | hp
      · exact hsp
      · exact hF.spelled p hp
    · rw [Forest.refs_cons, List.nodup_append]
      refine ⟨hnd.1, hF.apart.nodup_used, fun x hx y hy he => hnew x hx ?_⟩
      exact he ▸ h.lt_size hy
    · rcases List.mem_append.mp hx with hx | hx
      · exact hq.accounted.lt_size (List.mem_append_left _ hx)
      · exact hF.apart.lt_size hx
  have ha : s'.Apart ((Forest.refs (q :: F)).map ρ') := by
    rw [Forest.refs_cons, List.map_append, hmap, ← Planted.refs_rename]
    exact hq'.accounted.toApart
  refine ⟨ρ', rfl, h.next hidle hb (fun x hx => ?_) ha (fun x hx hlt => ?_)
    (fun x hx _ => List.mem_append_right _ hx) (fun x _ hlt _ => hq.kept.nodes x (List.mem_range.mpr hlt))
    (rerooted_of_eq hq.kept.roots hq'.kept.roots)⟩
  · rcases List.mem_append.mp hx with hx | hx
    · exact hq.stands.node?_rename hq'.stands hx
    · exact h.node?_eq hname hx hnodes fun y hy => hq'.kept.nodes _ (List.mem_map_of_mem hy)
  · rcases List.mem_append.mp hx with hx | hx
    · exact absurd hlt (hnew x hx)
    · exact ⟨hx, hname x hx⟩

/-- Nodes that were made and lost on both sides leave twins. -/
theorem Twins.untouched (h : Twins ρ F t s) (hidle : t'.Idle t.nodes.size)
    (hk : Kept (List.range t.nodes.size) t t') (hk' : Kept (F.refs.map ρ) s s')
    (ha : s'.Apart (F.refs.map ρ)) : Onward E ρ F t ρ F t' s' := by
  have hnodes : ∀ x ∈ F.refs, t'.node? x = t.node? x := fun x hx =>
    hk.nodes x (List.mem_range.mpr (h.lt_size hx))
  have hb : t'.Bears F := h.bears.congr hnodes
    (hidle.apart_of_nodup h.bears.apart.nodup_used fun x hx => Nat.lt_of_lt_of_le (h.lt_size hx) hidle.size)
  exact h.next hidle hb (fun x hx => h.node?_eq (fun _ _ => rfl) hx hnodes fun y hy =>
    hk'.nodes _ (List.mem_map_of_mem hy)) ha (fun x hx _ => ⟨hx, rfl⟩) (fun x hx _ => hx)
    (fun x _ hlt _ => hk.nodes x (List.mem_range.mpr hlt)) (rerooted_of_eq hk.roots hk'.roots)

/-- **Links that were changed on both sides** leave twins. -/
theorem Twins.relinked (h : Twins ρ F t s) (hr : Relinked ρ F.refs t s t' s') (hG : t'.Bears G)
    (hp : G.refs.Perm F.refs) (hE : ∀ x ∈ F.refs, ¬E.touched x → t'.node? x = t.node? x) :
    Onward E ρ F t ρ G t' s' := by
  have hidle := h.idle.self.relinks hr.left
  refine h.next hidle hG (fun x hx => hr.renames.nodes x (hp.mem_iff.mp hx)) ?_
    (fun x hx _ => ⟨hp.mem_iff.mp hx, rfl⟩) (fun x hx _ => hp.mem_iff.mpr hx)
    (fun x hx _ => hE x (hp.mem_iff.mp hx)) (rerooted_of_eq hr.left.roots hr.right.roots)
  exact (hr.right.apart h.apart).perm (hp.map ρ)

end Store

end Fluxion
