import Fluxion.Proofs.Linked
import Fluxion.Proofs.Tandem

/-!
# Renaming nodes

Two stores may hold the same trees at different references. A renaming takes the references of one to
those of the other; it is injective on a list of nodes whose links stay in the list, and takes every
node of the list to a node with the same content and the renamed links. What the operations on links
do depends on nothing else, so they do the same to both stores.

* `Planted.rename` and `Frame.rename` rename the references of a planted tree and of an operation with an
  open slot.
* `Store.Renames` says that one store holds the nodes of another under other names.
* `Store.setSlot_tandem` and `Store.replaceChild_tandem` change links on both sides.
-/

namespace Fluxion

open Act

/-! ## Renaming cells, nodes and trees -/

namespace Cell

variable {κ : Type} (ρ : Ref → Ref)

/-- The cell with its children renamed. -/
def rename : Cell κ → Cell κ
  | literal v => literal v
  | var n => var n
  | binary op l r => binary op (l.map ρ) (r.map ρ)
  | unary op x => unary op (x.map ρ)

@[simp] theorem slot?_rename (slot : Slot) (c : Cell κ) :
    (c.rename ρ).slot? slot = (c.slot? slot).map ρ := by
  cases slot <;> cases c <;> rfl

/-- What is in a slot after another was assigned was there before, or is what was assigned. -/
theorem slot?_of_setSlot {slot slot' : Slot} {x : Option Ref} {c : Cell κ} {r : Ref}
    (h : (c.setSlot slot x).slot? slot' = some r) : c.slot? slot' = some r ∨ x = some r := by
  cases slot <;> cases slot' <;> cases c <;> first | exact .inl h | exact .inr h

theorem setSlot_rename (slot : Slot) (x : Option Ref) (c : Cell κ) :
    (c.setSlot slot x).rename ρ = (c.rename ρ).setSlot slot (x.map ρ) := by
  cases slot <;> cases c <;> rfl

end Cell

/-- The node with its links renamed. -/
def Node.rename {κ : Type} (ρ : Ref → Ref) (n : Node κ) : Node κ := ⟨n.cell.rename ρ, n.parent.map ρ⟩

namespace Planted

variable {κ : Type} {ρ σ : Ref → Ref} {s t : Store κ} {parent : Option Ref} {p q : Planted κ} {r : Ref}

/-- The tree with its references renamed. -/
def rename (ρ : Ref → Ref) : Planted κ → Planted κ
  | absent => absent
  | literal r v => literal (ρ r) v
  | var r n => var (ρ r) n
  | binary r op p q => binary (ρ r) op (p.rename ρ) (q.rename ρ)
  | unary r op p => unary (ρ r) op (p.rename ρ)

@[simp] theorem ref?_rename (ρ : Ref → Ref) (p : Planted κ) : (p.rename ρ).ref? = p.ref?.map ρ := by
  cases p <;> rfl

@[simp] theorem tree_rename (ρ : Ref → Ref) (p : Planted κ) : (p.rename ρ).tree = p.tree := by
  induction p with
  | binary r op p q ihp ihq => simp [rename, tree, ihp, ihq]
  | unary r op p ih => simp [rename, tree, ih]
  | _ => rfl

@[simp] theorem refs_rename (ρ : Ref → Ref) (p : Planted κ) : (p.rename ρ).refs = p.refs.map ρ := by
  induction p with
  | binary r op p q ihp ihq => simp [rename, refs, ihp, ihq]
  | unary r op p ih => simp [rename, refs, ih]
  | _ => rfl

/-- Only the names of the nodes of a tree count. -/
theorem rename_congr (h : ∀ x ∈ p.refs, σ x = ρ x) : p.rename σ = p.rename ρ := by
  induction p with
  | binary r op p q ihp ihq =>
    simp only [refs, List.mem_append, List.mem_singleton] at h
    simp [rename, h r (.inr rfl), ihp fun x hx => h x (.inl (.inl hx)),
      ihq fun x hx => h x (.inl (.inr hx))]
  | unary r op p ih =>
    simp only [refs, List.mem_append, List.mem_singleton] at h
    simp [rename, h r (.inr rfl), ih fun x hx => h x (.inl hx)]
  | _ => simp_all [rename, refs]

/-- **The same tree at other references** is a renaming of it, which can be chosen freely elsewhere. -/
theorem exists_rename (ρ : Ref → Ref) (h : p.tree = q.tree) (hnd : p.refs.Nodup) :
    ∃ σ, p.rename σ = q ∧ ∀ x ∉ p.refs, σ x = ρ x := by
  induction p generalizing q ρ with
  | absent =>
    obtain rfl := eq_absent_of_tree h.symm
    exact ⟨ρ, rfl, fun _ _ => rfl⟩
  | literal r v =>
    cases q with
    | literal r' v' =>
      obtain rfl : v = v' := by simpa [tree] using h
      exact ⟨Function.update ρ r r', by simp [rename], fun x hx =>
        Function.update_of_ne (by simpa [refs] using hx) _ _⟩
    | _ => cases h
  | var r n =>
    cases q with
    | var r' n' =>
      obtain rfl : n = n' := by simpa [tree] using h
      exact ⟨Function.update ρ r r', by simp [rename], fun x hx =>
        Function.update_of_ne (by simpa [refs] using hx) _ _⟩
    | _ => cases h
  | binary r op p₁ p₂ ih₁ ih₂ =>
    cases q with
    | binary r' op' q₁ q₂ =>
      obtain ⟨rfl, h₁, h₂⟩ : op = op' ∧ p₁.tree = q₁.tree ∧ p₂.tree = q₂.tree := by simpa [tree] using h
      simp only [refs, List.nodup_append, List.mem_append, List.mem_singleton] at hnd
      obtain ⟨⟨hnd₁, hnd₂, hdis⟩, -, hout⟩ := hnd
      -- the root is named first, so that neither operand names it again
      obtain ⟨σ₁, hσ₁, hrest₁⟩ := ih₁ (Function.update ρ r r') h₁ hnd₁
      obtain ⟨σ, hσ, hrest⟩ := ih₂ σ₁ h₂ hnd₂
      have hr₁ : r ∉ p₁.refs := fun hm => hout r (.inl hm) r rfl rfl
      have hr₂ : r ∉ p₂.refs := fun hm => hout r (.inr hm) r rfl rfl
      refine ⟨σ, ?_, fun x hx => ?_⟩
      · have hp₁ : p₁.rename σ = q₁ := (rename_congr fun x hx => hrest x fun hm => hdis x hx x hm rfl).trans hσ₁
        simp [rename, hp₁, hσ, hrest r hr₂, hrest₁ r hr₁]
      · simp only [refs, List.mem_append, List.mem_singleton, not_or] at hx
        rw [hrest x hx.1.2, hrest₁ x hx.1.1, Function.update_of_ne hx.2]
    | _ => cases h
  | unary r op p₁ ih =>
    cases q with
    | unary r' op' q₁ =>
      obtain ⟨rfl, h₁⟩ : op = op' ∧ p₁.tree = q₁.tree := by simpa [tree] using h
      simp only [refs, List.nodup_append, List.mem_singleton] at hnd
      obtain ⟨σ, hσ, hrest⟩ := ih (Function.update ρ r r') h₁ hnd.1
      have hr : r ∉ p₁.refs := fun hm => hnd.2.2 r hm r rfl rfl
      refine ⟨σ, by simp [rename, hσ, hrest r hr], fun x hx => ?_⟩
      simp only [refs, List.mem_append, List.mem_singleton, not_or] at hx
      rw [hrest x hx.1, Function.update_of_ne hx.2]
    | _ => cases h

/-- A tree stands under its other names where the nodes have them. -/
theorem In.rename (h : p.In t parent) (hn : ∀ x ∈ p.refs, s.node? (ρ x) = (t.node? x).map (Node.rename ρ)) :
    (p.rename ρ).In s (parent.map ρ) := by
  induction p generalizing parent with
  | absent => trivial
  | literal r v =>
    have h : t.node? r = some ⟨.literal v, parent⟩ := h
    exact (hn r (by simp [refs])).trans (congrArg (Option.map _) h)
  | var r n =>
    have h : t.node? r = some ⟨.var n, parent⟩ := h
    exact (hn r (by simp [refs])).trans (congrArg (Option.map _) h)
  | binary r op p q ihp ihq =>
    obtain ⟨hr, hp, hq⟩ := h
    refine ⟨?_, ihp hp fun x hx => hn x (by simp [refs, hx]), ihq hq fun x hx => hn x (by simp [refs, hx])⟩
    rw [hn r (by simp [refs]), hr, ref?_rename, ref?_rename]
    rfl
  | unary r op p ih =>
    obtain ⟨hr, hp⟩ := h
    refine ⟨?_, ih hp fun x hx => hn x (by simp [refs, hx])⟩
    rw [hn r (by simp [refs]), hr, ref?_rename]
    rfl

/-- The nodes of a tree that stands under other names have them. -/
theorem In.node?_rename (h : p.In t parent) (h' : (p.rename ρ).In s (parent.map ρ)) (hr : r ∈ p.refs) :
    s.node? (ρ r) = (t.node? r).map (Node.rename ρ) := by
  induction p generalizing parent with
  | absent => cases hr
  | literal x v =>
    obtain rfl := List.mem_singleton.mp hr
    exact Eq.trans h' (congrArg (Option.map (Node.rename ρ)) h).symm
  | var x n =>
    obtain rfl := List.mem_singleton.mp hr
    exact Eq.trans h' (congrArg (Option.map (Node.rename ρ)) h).symm
  | binary x op p q ihp ihq =>
    obtain ⟨hx, hp, hq⟩ := h
    obtain ⟨hx', hp', hq'⟩ := h'
    simp only [refs, List.mem_append, List.mem_singleton] at hr
    rcases hr with (hr | hr) | rfl
    · exact ihp hp hp' hr
    · exact ihq hq hq' hr
    · rw [hx, hx', ref?_rename, ref?_rename]
      rfl
  | unary x op p ih =>
    obtain ⟨hx, hp⟩ := h
    obtain ⟨hx', hp'⟩ := h'
    simp only [refs, List.mem_append, List.mem_singleton] at hr
    rcases hr with hr | rfl
    · exact ih hp hp' hr
    · rw [hx, hx', ref?_rename]
      rfl

end Planted

namespace Frame

variable {κ : Type} {ρ σ : Ref → Ref}

/-- The operation with its references renamed. -/
def rename (ρ : Ref → Ref) : Frame κ → Frame κ
  | left r op q => left (ρ r) op (q.rename ρ)
  | right r op p => right (ρ r) op (p.rename ρ)
  | operand r op => operand (ρ r) op

theorem rename_fill (F : Frame κ) (ρ : Ref → Ref) (p : Planted κ) :
    (F.fill p).rename ρ = (F.rename ρ).fill (p.rename ρ) := by
  cases F <;> rfl

@[simp] theorem owner_rename (F : Frame κ) (ρ : Ref → Ref) : (F.rename ρ).owner = ρ F.owner := by
  cases F <;> rfl

@[simp] theorem slot_rename (F : Frame κ) (ρ : Ref → Ref) : (F.rename ρ).slot = F.slot := by
  cases F <;> rfl

@[simp] theorem other_rename (F : Frame κ) (ρ : Ref → Ref) : (F.rename ρ).other = F.other.rename ρ := by
  cases F <;> rfl

theorem rename_congr (F : Frame κ) (h : ∀ x ∈ F.other.refs ++ [F.owner], σ x = ρ x) :
    F.rename σ = F.rename ρ := by
  have howner : σ F.owner = ρ F.owner := h _ (List.mem_append_right _ (List.mem_singleton_self _))
  have hother : F.other.rename σ = F.other.rename ρ :=
    Planted.rename_congr fun x hx => h x (List.mem_append_left _ hx)
  cases F with
  | left r op q => exact congrArg₂ (left · op ·) howner hother
  | right r op p => exact congrArg₂ (right · op ·) howner hother
  | operand r op => exact congrArg (operand · op) howner

end Frame

/-! ## Nodes under other names -/

namespace Store

variable {κ : Type} {ρ : Ref → Ref} {live : List Ref} {s t s' t' s'' t'' : Store κ} {owner r x : Ref}
  {slot : Slot} {child : Option Ref}

/-- The nodes listed are those of another store under other names, and their links are among them. -/
structure Renames (ρ : Ref → Ref) (live : List Ref) (t s : Store κ) : Prop where
  injective : ∀ x ∈ live, ∀ y ∈ live, ρ x = ρ y → x = y
  nodes : ∀ x ∈ live, s.node? (ρ x) = (t.node? x).map (Node.rename ρ)
  slots : ∀ {x slot c}, x ∈ live → t.slot? x slot = some c → c ∈ live
  parents : ∀ {x p}, x ∈ live → t.parent? x = some p → p ∈ live

theorem Renames.eq_iff (h : Renames ρ live t s) (hr : r ∈ live) (hx : x ∈ live) : ρ r = ρ x ↔ r = x :=
  ⟨h.injective r hr x hx, congrArg ρ⟩

theorem Renames.parent?_eq (h : Renames ρ live t s) (hr : r ∈ live) :
    s.parent? (ρ r) = (t.parent? r).map ρ := by
  unfold parent?
  rw [h.nodes r hr]
  cases t.node? r <;> rfl

theorem Renames.slot?_eq (h : Renames ρ live t s) (hr : r ∈ live) (slot : Slot) :
    s.slot? (ρ r) slot = (t.slot? r slot).map ρ := by
  unfold slot?
  rw [h.nodes r hr]
  cases t.node? r with
  | none => rfl
  | some n => exact Cell.slot?_rename ρ slot n.cell

/-- A node refers back to the renamed node just if the node under the other name does. -/
theorem Renames.parent?_eq_iff (h : Renames ρ live t s) (hr : r ∈ live) (hx : x ∈ live) :
    s.parent? (ρ r) = some (ρ x) ↔ t.parent? r = some x := by
  rw [h.parent?_eq hr]
  cases hp : t.parent? r with
  | none => simp
  | some p => simp [h.eq_iff (h.parents hr hp) hx]

/-- A slot holds the renamed node just if the slot under the other name does. -/
theorem Renames.slot?_eq_iff (h : Renames ρ live t s) (hr : r ∈ live) (hx : x ∈ live) (slot : Slot) :
    s.slot? (ρ r) slot = some (ρ x) ↔ t.slot? r slot = some x := by
  rw [h.slot?_eq hr]
  cases hs : t.slot? r slot with
  | none => simp
  | some c => simp [h.eq_iff (h.slots hr hs) hx]

/-- Links were changed on both sides, and nothing else. -/
structure Relinked (ρ : Ref → Ref) (live : List Ref) (t s t' s' : Store κ) : Prop where
  renames : Renames ρ live t' s'
  left : Relinks live t t'
  right : Relinks (live.map ρ) s s'

theorem Renames.refl (h : Renames ρ live t s) : Relinked ρ live t s t s :=
  ⟨h, ⟨fun _ _ => rfl, rfl, rfl, rfl⟩, ⟨fun _ _ => rfl, rfl, rfl, rfl⟩⟩

theorem Relinked.trans (h : Relinked ρ live t s t' s') (h' : Relinked ρ live t' s' t'' s'') :
    Relinked ρ live t s t'' s'' :=
  ⟨h'.renames, h.left.trans h'.left, h.right.trans h'.right⟩

/-- Changing a node on both sides in the same way. -/
theorem Renames.change (h : Renames ρ live t s) (hr : r ∈ live) {g g' : Node κ → Node κ}
    (ht : ∀ x, t'.node? x = if x = r then (t.node? r).map g else t.node? x)
    (hs : ∀ x, s'.node? x = if x = ρ r then (s.node? (ρ r)).map g' else s.node? x)
    (hg : ∀ n, (g n).rename ρ = g' (n.rename ρ))
    (hslot : ∀ slot c, t'.slot? r slot = some c → c ∈ live)
    (hparent : ∀ p, t'.parent? r = some p → p ∈ live) : Renames ρ live t' s' := by
  have hother : ∀ {x}, x ≠ r → t'.node? x = t.node? x := fun hx => by rw [ht, if_neg hx]
  refine ⟨h.injective, fun x hx => ?_, fun {x slot c} hx hc => ?_, fun {x p} hx hp => ?_⟩
  · by_cases hxr : x = r
    · subst hxr
      rw [hs, if_pos rfl, ht, if_pos rfl, h.nodes x hx, Option.map_map, Option.map_map]
      congr 1
      exact funext fun n => (hg n).symm
    · rw [hs, if_neg fun e => hxr (h.injective x hx r hr e), hother hxr, h.nodes x hx]
  · by_cases hxr : x = r
    · exact hslot slot c (hxr ▸ hc)
    · rw [slot?, hother hxr] at hc
      exact h.slots hx hc
  · by_cases hxr : x = r
    · exact hparent p (hxr ▸ hp)
    · rw [parent?, hother hxr] at hp
      exact h.parents hx hp

/-- Writing a reference back on both sides. -/
theorem Renames.writeParent (h : Renames ρ live t s) (hr : r ∈ live) (parent : Option Ref)
    (hp : ∀ p, parent = some p → p ∈ live) :
    Relinked ρ live t s (t.writeParent r parent) (s.writeParent (ρ r) (parent.map ρ)) := by
  refine ⟨?_, (relinks_writeParent t r parent).mono (by simpa using hr),
    (relinks_writeParent s _ _).mono (by simpa using ⟨r, hr, rfl⟩)⟩
  refine h.change hr (fun x => node?_writeParent t r x parent) (fun x => node?_writeParent s (ρ r) x _)
    (fun n => rfl) (fun slot c hc => ?_) fun p hq => ?_
  · rw [slot?_writeParent] at hc
    exact h.slots hr hc
  · rw [parent?, node?_writeParent, if_pos rfl] at hq
    cases hn : t.node? r with
    | none => simp [hn] at hq
    | some n => exact hp p (by simpa [hn] using hq)

/-- Writing a slot on both sides. -/
theorem Renames.writeSlot (h : Renames ρ live t s) (hr : r ∈ live) (slot : Slot) (child : Option Ref)
    (hc : ∀ c, child = some c → c ∈ live) :
    Relinked ρ live t s (t.writeSlot r slot child) (s.writeSlot (ρ r) slot (child.map ρ)) := by
  refine ⟨?_, (relinks_writeSlot t r slot child).mono (by simpa using hr),
    (relinks_writeSlot s _ slot _).mono (by simpa using ⟨r, hr, rfl⟩)⟩
  refine h.change hr (fun x => node?_writeSlot t r x slot child)
    (fun x => node?_writeSlot s (ρ r) x slot _) (fun n => ?_) (fun slot' c hs => ?_) fun p hp => ?_
  · simp only [Node.rename, Cell.setSlot_rename]
  · rw [slot?, node?_writeSlot, if_pos rfl] at hs
    cases hn : t.node? r with
    | none => simp [hn] at hs
    | some n =>
      obtain hkept | hnew := Cell.slot?_of_setSlot (by simpa [hn] using hs)
      · exact h.slots hr (by simpa [Store.slot?, hn] using hkept)
      · exact hc c hnew
  · rw [parent?_writeSlot] at hp
    exact h.parents hr hp

/-! ## Changing links on both sides -/

/-- Claiming a node on both sides. -/
theorem Renames.adopt_tandem (h : Renames ρ live t s) {current : Option Ref} {c : Ref} (ho : owner ∈ live)
    (hcur : ∀ x, current = some x → x ∈ live) (hc : c ∈ live) :
    (adopt owner current c).Tandem t (adopt (ρ owner) (current.map ρ) (ρ c)) s
      (fun _ _ => Relinked ρ live t s) (Relinked ρ live t s) := by
  unfold adopt
  refine tandem_get ?_
  rw [h.parent?_eq hc, Option.isSome_map]
  cases hp : t.parent? c with
  | some p => exact tandem_throw h.refl
  | none =>
    by_cases hco : c = owner
    · subst hco
      simp only [Option.isSome_none, Bool.false_eq_true, if_false, if_true]
      exact tandem_throw h.refl
    · have hco' : ρ c ≠ ρ owner := fun e => hco (h.injective c hc owner ho e)
      simp only [Option.isSome_none, Bool.false_eq_true, if_false, hco, hco']
      have hown : ∀ p, some owner = some p → p ∈ live := fun p e => Option.some.inj e ▸ ho
      cases current with
      | none => exact h.writeParent hc _ hown
      | some old =>
        have hcut := h.writeParent (hcur old rfl) none fun _ e => nomatch e
        exact hcut.trans (hcut.renames.writeParent hc _ hown)

/-- **Assigning a slot** on both sides. -/
theorem Renames.setSlot_tandem (h : Renames ρ live t s) (slot : Slot) (ho : owner ∈ live)
    (hc : ∀ c, child = some c → c ∈ live) :
    (setSlot owner slot child).Tandem t (setSlot (ρ owner) slot (child.map ρ)) s
      (fun _ _ => Relinked ρ live t s) (Relinked ρ live t s) := by
  have hwrite : ∀ {t' s'}, Relinked ρ live t s t' s' →
      Relinked ρ live t s (t'.writeSlot owner slot child)
        (s'.writeSlot (ρ owner) slot (child.map ρ)) := fun hr =>
    hr.trans (hr.renames.writeSlot ho slot child hc)
  unfold setSlot
  refine tandem_get ?_
  cases child with
  | none => exact hwrite h.refl
  | some c =>
    have hheld := h.slot?_eq_iff ho (hc c rfl) slot
    by_cases hsame : t.slot? owner slot = some c
    · have hsame' : s.slot? (ρ owner) slot = some (ρ c) := hheld.mpr hsame
      simp only [Option.map_some, hsame, hsame', if_true]
      exact hwrite h.refl
    · have hsame' : s.slot? (ρ owner) slot ≠ some (ρ c) := fun e => hsame (hheld.mp e)
      simp only [Option.map_some, Ne.symm hsame, Ne.symm hsame', if_false]
      rw [h.slot?_eq ho]
      exact (h.adopt_tandem ho (fun x hx => h.slots ho hx) (hc c rfl)).bind fun _ _ _ _ hr => hwrite hr

/-- Exchanging what is in a slot on both sides. -/
theorem Renames.exchange_tandem (h : Renames ρ live t s) {old : Ref} {new : Option Ref} (slot : Slot)
    (ho : owner ∈ live) (hold : old ∈ live) (hnew : ∀ c, new = some c → c ∈ live) :
    (exchange owner slot old new).Tandem t (exchange (ρ owner) slot (ρ old) (new.map ρ)) s
      (fun _ _ => Relinked ρ live t s) (Relinked ρ live t s) := by
  have hempty := h.writeSlot ho slot none fun _ e => nomatch e
  have hcut := hempty.trans (hempty.renames.writeParent hold none fun _ e => nomatch e)
  unfold exchange
  refine tandem_modify (tandem_modify ?_)
  exact (hcut.renames.setSlot_tandem slot ho hnew).mono (fun _ _ _ _ hr => hcut.trans hr)
    fun _ _ hr => hcut.trans hr

/-- **Replacing a child** on both sides. -/
theorem Renames.replaceChild_tandem (h : Renames ρ live t s) {old new : Option Ref} (ho : owner ∈ live)
    (hold : ∀ c, old = some c → c ∈ live) (hnew : ∀ c, new = some c → c ∈ live) :
    (replaceChild owner old new).Tandem t (replaceChild (ρ owner) (old.map ρ) (new.map ρ)) s
      (fun _ _ => Relinked ρ live t s) (Relinked ρ live t s) := by
  have hslot : ∀ {c parent x y} (slot : Slot), t.node? owner = some ⟨c, parent⟩ → c.slot? slot = x →
      y ∈ live → (x.map ρ = some (ρ y) ↔ x = some y) := by
    rintro c parent _ y slot hn rfl hy
    have hs := h.slot?_eq_iff ho hy slot
    rwa [h.slot?_eq ho, Store.slot?_eq hn] at hs
  unfold replaceChild
  refine tandem_get ?_
  rw [h.nodes owner ho]
  cases hn : t.node? owner with
  | none => exact tandem_throw h.refl
  | some n =>
    obtain ⟨c, parent⟩ := n
    simp only [Option.map_some, Node.rename]
    cases c with
    | literal v => exact tandem_throw h.refl
    | var n => exact tandem_throw h.refl
    | binary op l r =>
      cases old with
      | none => exact tandem_throw h.refl
      | some o =>
        have hl := hslot .left hn rfl (hold o rfl)
        have hr := hslot .right hn rfl (hold o rfl)
        simp only [Cell.rename, Option.map_some, Cell.slot?] at hl hr ⊢
        simp only [hl, hr]
        split
        · exact h.exchange_tandem .left ho (hold o rfl) hnew
        · split
          · exact h.exchange_tandem .right ho (hold o rfl) hnew
          · exact tandem_throw h.refl
    | unary op x =>
      cases old with
      | none => exact tandem_throw h.refl
      | some o =>
        have hx := hslot .operand hn rfl (hold o rfl)
        simp only [Cell.rename, Option.map_some, Cell.slot?] at hx ⊢
        simp only [hx]
        split
        · exact h.exchange_tandem .operand ho (hold o rfl) hnew
        · exact tandem_throw h.refl

end Store

end Fluxion
