import Fluxion.Derivation
import Fluxion.Proofs.Planting
import Fluxion.Proofs.Recycling
import Fluxion.Simplify.InPlace

/-!
# Pools that recycle nothing

A pool without room and without free nodes keeps nothing that is given back to it, so every node it
hands out is a new one, and no reference is ever used twice. Nothing the library does changes the
room of a pool, so a store with such a pool has one for good.

* `Act.Preserves` says that an act keeps a property of the state; the rules follow the way acts are
  put together.
* `Store.Linkless` holds of the properties that acts on links keep.
* `Store.Idle` says that the pool of a store recycles nothing.
* `Store.idle_promote` and its neighbours go through the acts on stores.
* `Work.Outlasts` holds of the properties that derivations keep, `Work.outlasts_idle` of this one.
-/

namespace Fluxion

namespace Act

variable {σ τ α β : Type} {P : σ → Prop}

/-- An act keeps a property of the state, refused or not. -/
def Preserves (P : σ → Prop) (act : Act σ α) : Prop := ∀ s, P s → P (act.perform s).2

theorem preserves_pure (a : α) : Preserves P (pure a : Act σ α) := fun _ h => h

theorem preserves_throw (f : Fault) : Preserves P (throw f : Act σ α) := fun _ h => h

theorem preserves_refused (f : Fault) (next : α → Act σ β) : Preserves P (throw f >>= next) :=
  fun _ h => h

theorem preserves_get : Preserves P (get : Act σ σ) := fun _ h => h

theorem preserves_modify {g : σ → σ} (h : ∀ s, P s → P (g s)) : Preserves P (modify g : Act σ Unit) := h

theorem Preserves.bind {act : Act σ α} {next : α → Act σ β} (h : Preserves P act)
    (hn : ∀ a, Preserves P (next a)) : Preserves P (act >>= next) := by
  intro s hs
  have hact := h s hs
  rw [perform_bind]
  rcases he : act.perform s with ⟨_ | a, t⟩ <;> rw [he] at hact
  · exact hact
  · exact hn a t hact

theorem Preserves.attempt {act : Act σ α} (h : Preserves P act) : Preserves P act.attempt := h

theorem preserves_foldlM {step : β → α → Act σ β} (h : ∀ b a, Preserves P (step b a)) (l : List α)
    (b : β) : Preserves P (l.foldlM step b) := by
  induction l generalizing b with
  | nil => exact preserves_pure b
  | cons a l ih =>
    rw [List.foldlM_cons]
    exact (h b a).bind ih

/-- What an act keeps, it ensures besides. -/
theorem Ensures.preserves {act : Act σ α} {s : σ} {post : α → σ → Prop} {fail : Fault → σ → Prop}
    (h : act.Ensures s post fail) (hp : Preserves P act) (hs : P s) :
    act.Ensures s (fun a t => post a t ∧ P t) fun f t => fail f t ∧ P t := by
  have hleft := hp s hs
  unfold Ensures at h ⊢
  rcases he : act.perform s with ⟨_ | _, t⟩ <;> rw [he] at h hleft <;> exact ⟨h, hleft⟩

theorem Succeeds.preserves {act : Act σ α} {s : σ} {post : α → σ → Prop} (h : act.Succeeds s post)
    (hp : Preserves P act) (hs : P s) : act.Succeeds s fun a t => post a t ∧ P t :=
  (Ensures.preserves h hp hs).mono (fun _ _ => id) fun _ _ hf => hf.1

end Act

open Act

namespace Store

variable {κ ι : Type} {s t : Store κ} {n : Nat}

/-! ## What relinking preserves -/

/-- A property of stores that does not depend on how nodes are linked. -/
def Linkless (P : Store κ → Prop) : Prop := ∀ touched s t, Relinks touched s t → P s → P t

section Linkless

variable {P : Store κ → Prop}

theorem Linkless.writeParent (hP : Linkless P) (r : Ref) (p : Option Ref) :
    Preserves P (modify (·.writeParent r p) : Act (Store κ) Unit) :=
  preserves_modify fun s => hP _ s _ (relinks_writeParent s r p)

theorem Linkless.writeSlot (hP : Linkless P) (r : Ref) (slot : Slot) (c : Option Ref) :
    Preserves P (modify (·.writeSlot r slot c) : Act (Store κ) Unit) :=
  preserves_modify fun s => hP _ s _ (relinks_writeSlot s r slot c)

theorem Linkless.adopt (hP : Linkless P) (owner : Ref) (current : Option Ref) (child : Ref) :
    Preserves P (adopt owner current child : Act (Store κ) Unit) := by
  refine preserves_get.bind fun s => ?_
  cases current with
  | none =>
    dsimp only
    split
    · exact preserves_refused _ _
    · split
      · exact preserves_refused _ _
      · exact hP.writeParent _ _
  | some old =>
    dsimp only
    split
    · exact preserves_refused _ _
    · split
      · exact preserves_refused _ _
      · exact (hP.writeParent _ _).bind fun _ => hP.writeParent _ _

theorem Linkless.setSlot (hP : Linkless P) (owner : Ref) (slot : Slot) (child : Option Ref) :
    Preserves P (setSlot owner slot child : Act (Store κ) Unit) := by
  refine preserves_get.bind fun s => ?_
  cases child with
  | none => exact hP.writeSlot _ _ _
  | some c =>
    dsimp only
    split
    · exact hP.writeSlot _ _ _
    · exact (hP.adopt _ _ _).bind fun _ => hP.writeSlot _ _ _

theorem Linkless.exchange (hP : Linkless P) (owner : Ref) (slot : Slot) (old : Ref) (new : Option Ref) :
    Preserves P (exchange owner slot old new : Act (Store κ) Unit) :=
  (hP.writeSlot _ _ _).bind fun _ => (hP.writeParent _ _).bind fun _ => hP.setSlot _ _ _

theorem Linkless.replaceChild (hP : Linkless P) (owner : Ref) (old new : Option Ref) :
    Preserves P (replaceChild owner old new : Act (Store κ) Unit) := by
  refine preserves_get.bind fun s => ?_
  split
  · exact preserves_throw _
  · split
    · exact preserves_throw _
    · exact preserves_throw _
    · exact preserves_throw _
    · split
      · exact hP.exchange _ _ _ _
      · split
        · exact hP.exchange _ _ _ _
        · exact preserves_throw _
    · exact preserves_throw _
    · split
      · exact hP.exchange _ _ _ _
      · exact preserves_throw _

end Linkless

/-! ## Stores that recycle nothing -/

/-- The pool has no free nodes and no room for any, and the store has `n` nodes at least. -/
structure Idle (n : Nat) (s : Store κ) : Prop where
  spare : s.pool.spare = []
  room : s.pool.room ≤ 0
  size : n ≤ s.nodes.size

theorem Idle.self (h : s.Idle n) : s.Idle s.nodes.size := ⟨h.spare, h.room, Nat.le_refl _⟩

theorem Idle.relinks {touched : List Ref} (h : s.Idle n) (hr : Relinks touched s t) : t.Idle n :=
  ⟨hr.pool ▸ h.spare, hr.pool ▸ h.room, hr.size ▸ h.size⟩

theorem linkless_idle : Linkless (Idle n : Store κ → Prop) := fun _ _ _ hr h => h.relinks hr

theorem idle_stocked [Coefficient κ] : (stocked 0 0 : Store κ).Idle 0 := ⟨rfl, Int.le_refl 0, Nat.zero_le _⟩

/-- In a store that recycles nothing all references are apart. -/
theorem Idle.apart (h : s.Idle n) : s.Apart (List.range s.nodes.size) := by
  refine ⟨?_, fun x hx => ?_⟩
  · rw [h.spare, List.append_nil]
    exact List.nodup_range
  · rw [h.spare, List.append_nil] at hx
    exact List.mem_range.mp hx

/-- References that are different are apart. -/
theorem Idle.apart_of_nodup (h : s.Idle n) {used : List Ref} (hnd : used.Nodup)
    (hb : ∀ x ∈ used, x < s.nodes.size) : s.Apart used := by
  refine ⟨?_, fun x hx => ?_⟩
  · rw [h.spare, List.append_nil]
    exact hnd
  · rw [h.spare, List.append_nil] at hx
    exact hb x hx

theorem Idle.free (h : s.Idle n) (k : Kind) : s.pool.free k = [] := by
  have hs := h.spare
  simp only [Pool.spare, List.append_eq_nil_iff] at hs
  cases k <;> simp only [Pool.free, hs]

/-- **A pool without free nodes hands out a new one.** -/
theorem Idle.take_eq (h : s.Idle n) (c : Cell κ) :
    s.take c = (s.nodes.size, { s with nodes := s.nodes.push ⟨c, none⟩, pool := s.pool.charge c.kind }) := by
  unfold take
  simp only [Pool.free_charge, h.free]
  rfl

theorem Idle.take (h : s.Idle n) (c : Cell κ) : (s.take c).2.Idle n := by
  rw [h.take_eq]
  exact ⟨h.spare, by cases c <;> exact h.room, Nat.le_trans h.size (by simp)⟩

/-- A pool without room keeps nothing. -/
theorem Idle.giveBack (h : s.Idle n) (r : Ref) : (s.giveBack r).Idle n := by
  unfold Store.giveBack
  cases s.node? r with
  | none => exact h
  | some node =>
    have hfull : ¬(s.pool.stock node.cell.kind : Int) < s.pool.room := by
      have := h.room
      omega
    have hput : s.pool.put node.cell.kind r = { s.pool with released := s.pool.released + 1 } := by
      unfold Pool.put
      exact if_neg fun hlt => hfull (by cases hk : node.cell.kind <;> rw [hk] at hlt <;> exact hlt)
    refine ⟨(congrArg Pool.spare hput).trans h.spare, ?_, ?_⟩
    · exact Int.le_trans (Int.le_of_eq (congrArg Pool.room hput)) h.room
    · exact Nat.le_trans h.size (by simp [write])

theorem Idle.releaseTo (h : s.Idle n) (depth : Nat) (r : Ref) : (releaseTo depth r s).Idle n := by
  induction depth generalizing s r with
  | zero => exact h.giveBack r
  | succ depth ih =>
    unfold Store.releaseTo
    generalize (s.children r).reverse = below
    have hs := h.giveBack r
    revert hs
    generalize s.giveBack r = t
    intro ht
    induction below generalizing t with
    | nil => exact ht
    | cons c below ihb => exact ihb _ (ih ht c)

/-- All nodes are still there where all of them are in use. -/
theorem size_le_of_accounted {b : Int} {used : List Ref} (h : t.Accounted b used)
    (hu : List.range n ⊆ used) : n ≤ t.nodes.size := by
  cases n with
  | zero => exact Nat.zero_le _
  | succ n => exact h.lt_size (hu (List.mem_range.mpr (Nat.lt_succ_self n)))

/-- Building a tree takes no free nodes where there are none. -/
theorem Idle.built {b : Int} {p : Planted κ} (h : s.Idle n) (hb : Built b (List.range n) s p t) :
    t.Idle n := by
  refine ⟨Pool.spare_eq_nil fun k => ?_, hb.pool.room ▸ h.room,
    size_le_of_accounted hb.accounted (List.subset_append_right _ _)⟩
  rw [hb.pool.stock, Pool.stock, h.free]
  exact Nat.zero_sub _

/-- What is given up is kept nowhere. -/
theorem Idle.undone {b : Int} (h : s.Idle n) (hu : Undone b (List.range n) s t) : t.Idle n := by
  obtain ⟨d, q, hd, hr⟩ := hu.pool
  have hroom : q.room ≤ 0 := hd.room ▸ h.room
  refine ⟨Pool.spare_eq_nil fun k => ?_, hr.room ▸ hroom,
    size_le_of_accounted hu.accounted (List.Subset.refl _)⟩
  have hstock : q.stock k = 0 := by
    rw [hd.stock, Pool.stock, h.free]
    exact Nat.zero_sub _
  have hkept := hr.stock k
  rw [hstock] at hkept
  omega

/-! ## What the operations on stores preserve -/

theorem idle_obtain (source : Source) (c : Cell κ) : Preserves (Idle n) (obtain source c) := by
  intro s h
  cases source with
  | pool => exact h.take c
  | outside =>
    refine ⟨h.spare, h.room, Nat.le_trans h.size ?_⟩
    exact Nat.le_trans (Nat.le_succ _) (Nat.le_of_eq (Array.size_push _).symm)

theorem idle_newLiteral (source : Source) (v : κ) : Preserves (Idle n) (newLiteral source v) :=
  idle_obtain source _

theorem idle_newVar (source : Source) (name : Name) :
    Preserves (Idle n) (newVar source name : Act (Store κ) Ref) := by
  refine (idle_obtain source _).bind fun r => ?_
  split
  · exact preserves_pure r
  · exact preserves_throw _

theorem idle_setSlot (owner : Ref) (slot : Slot) (child : Option Ref) :
    Preserves (Idle n) (setSlot owner slot child : Act (Store κ) Unit) :=
  linkless_idle.setSlot owner slot child

theorem idle_newBinary (source : Source) (op : Operator) (l r : Option Ref) :
    Preserves (Idle n) (newBinary source op l r : Act (Store κ) Ref) :=
  (idle_obtain source _).bind fun _ => (idle_setSlot _ _ _).bind fun _ =>
    (idle_setSlot _ _ _).bind fun _ => preserves_pure _

theorem idle_newUnary (source : Source) (op : Operator) (x : Option Ref) :
    Preserves (Idle n) (newUnary source op x : Act (Store κ) Ref) :=
  (idle_obtain source _).bind fun _ => (idle_setSlot _ _ _).bind fun _ => preserves_pure _

theorem idle_replaceChild (owner : Ref) (old new : Option Ref) :
    Preserves (Idle n) (replaceChild owner old new : Act (Store κ) Unit) :=
  linkless_idle.replaceChild owner old new

theorem idle_release (r : Option Ref) : Preserves (Idle n) (release r : Act (Store κ) Unit) := by
  cases r with
  | none => exact preserves_pure ()
  | some r =>
    have hfree : Preserves (Idle n) (modify fun s => releaseTo s.nodes.size r s : Act (Store κ) Unit) :=
      preserves_modify fun s h => h.releaseTo _ _
    refine preserves_get.bind fun s => ?_
    split
    · exact (idle_replaceChild _ _ _).bind fun _ => hfree
    · exact hfree

theorem idle_copyTo (depth : Nat) (r : Ref) (copies : Copies) :
    Preserves (Idle n) (copyTo depth r copies : Act (Store κ) Copies) := by
  induction depth generalizing r copies with
  | zero => exact preserves_pure copies
  | succ depth ih =>
    unfold copyTo
    refine preserves_get.bind fun s => (preserves_foldlM (fun copies c => ih c copies) _ _).bind fun copies => ?_
    refine preserves_get.bind fun s => ?_
    split
    · exact preserves_pure _
    · split
      · exact (idle_newLiteral _ _).bind fun _ => preserves_pure _
      · exact (idle_newVar _ _).bind fun _ => preserves_pure _
      · exact (idle_newBinary _ _ _ _).bind fun _ => preserves_pure _
      · exact (idle_newUnary _ _ _).bind fun _ => preserves_pure _

theorem idle_copy (r : Ref) : Preserves (Idle n) (copy r : Act (Store κ) (Option Ref)) :=
  preserves_get.bind fun _ => (idle_copyTo _ _ _).bind fun _ => preserves_pure _

theorem idle_follow (u du : ι → Option Ref) (q : Recipe κ ι) : Preserves (Idle n) (follow u du q) := by
  induction q with
  | literal c => exact (idle_newLiteral _ _).bind fun _ => preserves_pure _
  | operand i =>
    unfold follow
    cases u i with
    | none => exact preserves_pure none
    | some r => exact idle_copy r
  | derivative i => exact preserves_pure _
  | binary op x y ihx ihy =>
    exact ihx.bind fun _ => ihy.bind fun _ => (idle_newBinary _ _ _ _).bind fun _ => preserves_pure _
  | backward op x y ihx ihy =>
    exact ihy.bind fun _ => ihx.bind fun _ => (idle_newBinary _ _ _ _).bind fun _ => preserves_pure _
  | unary op x ih => exact ih.bind fun _ => (idle_newUnary _ _ _).bind fun _ => preserves_pure _

theorem idle_setRoot (e : Expression) (r : Option Ref) :
    Preserves (Idle n) (setRoot e r : Act (Store κ) Unit) := by
  refine preserves_get.bind fun s => ?_
  split
  · exact preserves_throw _
  · exact preserves_modify fun s h => ⟨h.spare, h.room, h.size⟩

theorem idle_replaceSubtree (e : Expression) (target : Ref) (new : Option Ref) :
    Preserves (Idle n) (replaceSubtree e target new : Act (Store κ) Unit) := by
  refine preserves_get.bind fun s => ?_
  split
  · exact (idle_replaceChild _ _ _).bind fun _ => idle_release _
  · refine preserves_get.bind fun s => ?_
    split
    · exact (idle_setRoot _ _).bind fun _ => idle_release _
    · exact preserves_refused _ _

theorem idle_promote (e : Expression) (r : Ref) (slot : Slot) :
    Preserves (Idle n) (Simplifier.promote e r slot : Act (Store κ) Unit) :=
  preserves_get.bind fun _ => (idle_replaceChild _ _ _).bind fun _ => idle_replaceSubtree _ _ _

end Store

/-! ## What derivations preserve -/

namespace Work

open Store

variable {κ α : Type} {n : Nat} {P : Workspace κ → Prop}

/-- A property of workspaces that outlasts every step of a derivation. -/
structure Outlasts [Coefficient κ] (P : Workspace κ → Prop) : Prop where
  note : ∀ e : Entry, Preserves P (note e)
  release : ∀ r : Option Ref, Preserves P (onStore (Store.release r))
  newWhole : ∀ n : Nat, Preserves P (newWhole n)
  follow : ∀ {ι : Type} (u du : ι → Option Ref) (q : Recipe κ ι), Preserves P (onStore (Store.follow u du q))

section Outlasts

variable [Coefficient κ] (hP : Outlasts P)

include hP

theorem Outlasts.noRule (op : Operator) : Preserves P (noRule op : Work κ α) :=
  (hP.note _).bind fun _ => preserves_throw _

theorem Outlasts.orRelease (d : Option Ref) {act : Work κ α} (h : Preserves P act) :
    Preserves P (orRelease d act) := by
  refine Preserves.bind h.attempt fun r => ?_
  split
  · exact preserves_pure _
  · exact (hP.release d).bind fun _ => preserves_throw _
  · exact preserves_throw _

theorem Outlasts.deriveTo (v : Name) (depth : Nat) (slot : Option Ref) :
    Preserves P (deriveTo v depth slot : Work κ (Option Ref)) := by
  have hlook : ∀ {β : Type} (f : Store κ → β), Preserves P (look f : Work κ β) := fun _ _ hw => hw
  induction depth generalizing slot with
  | zero => exact hP.noRule _
  | succ depth ih =>
    unfold Work.deriveTo
    refine Preserves.bind (hlook _) fun _ => ?_
    split
    · exact hP.noRule _
    · exact hP.newWhole _
    · exact hP.newWhole _
    · refine Preserves.bind (hlook _) fun a => Preserves.bind (hlook _) fun b => ?_
      split
      · exact hP.noRule _
      · exact Preserves.bind (ih _) fun _ => hP.follow _ _ _
      · exact Preserves.bind (ih _) fun _ => hP.follow _ _ _
      · exact Preserves.bind (ih _) fun _ => Preserves.bind (hP.orRelease _ (ih _)) fun _ => hP.follow _ _ _
    · split
      · exact hP.noRule _
      · exact Preserves.bind (ih _) fun _ => hP.follow _ _ _

/-- **Making a derivative** preserves what outlasts its steps. -/
theorem Outlasts.derive (v : Name) (r : Option Ref) : Preserves P (derive v r : Work κ (Option Ref)) :=
  Preserves.bind (fun _ hw => hw) fun _ => hP.deriveTo v _ r

end Outlasts

/-- A store goes on recycling nothing. -/
theorem outlasts_idle [Coefficient κ] (n : Nat) : Outlasts fun w : Workspace κ => w.store.Idle n :=
  ⟨fun _ _ hw => hw, fun r w => idle_release r w.store,
    fun m w => (idle_newLiteral .pool (Coefficient.ofNat m)).bind (fun r => preserves_pure (some r)) w.store,
    fun u du q w => idle_follow u du q w.store⟩

/-- The warnings stay what they are. -/
theorem outlasts_warnings [Coefficient κ] (said : List String) :
    Outlasts fun w : Workspace κ => w.warnings = said :=
  ⟨fun _ _ hw => hw, fun _ _ hw => hw, fun _ _ hw => hw, fun _ _ _ _ hw => hw⟩

end Work

end Fluxion
