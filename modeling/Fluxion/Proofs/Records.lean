import Fluxion.Proofs.Idle
import Fluxion.Proofs.Seats

/-!
# Records of visits and releases

An act may keep a record of the nodes it visits and of the nodes it gives back, in the order in which
it does so. Every act that changes a tree in place is written down here once more, with a record. Such
an act does what the act without a record does, and what was recorded before stays at the front.

What is given back with a tree hangs below the root of the tree, so it is among any references that
contain the root and everything that hangs below one of them.

* `Recorded.Records` says that a recorded act does what an act does.
* `Recorded.events` is what an act records, and `Recorded.Records.events_bind` reads it off step by
  step.
* `Store.releaseTo_recorded` follows the release of a tree down, and `Store.Covered` says that nothing
  is given back without a record.
* `Store.events_replaceSubtree` and `Simplifier.events_promote` say that a change in a seat gives back
  only nodes of the tree that hung there.
-/

namespace Fluxion

open Act

/-- What happens to a node. -/
inductive Event where
  | visited (r : Ref)
  | released (r : Ref)
deriving Repr, DecidableEq

/-- The node that is visited, if one is. -/
def Event.visited? : Event → Option Ref
  | visited r => some r
  | released _ => none

/-- The node that is given back, if one is. -/
def Event.released? : Event → Option Ref
  | visited _ => none
  | released r => some r

/-- Acts on a state together with a record. -/
abbrev Recorded (σ : Type) := Act (σ × List Event)

namespace Recorded

variable {σ α β : Type}

/-- An act of which nothing is recorded. -/
def silently (act : Act σ α) : Recorded σ α :=
  act.within fun (s, events) => (s, fun s => (s, events))

/-- Records an event. -/
def tell (event : Event) : Recorded σ Unit := modify fun (s, events) => (s, events ++ [event])

/-- What an act records from a state on. -/
def events (recorded : Recorded σ α) (s : σ) : List Event := (recorded.perform (s, [])).2.2

/-- A recorded act does what an act does and adds to what was recorded before. -/
def Records (recorded : Recorded σ α) (act : Act σ α) : Prop :=
  ∀ s before, recorded.perform (s, before) =
    ((act.perform s).1, (act.perform s).2, before ++ recorded.events s)

variable {recorded : Recorded σ α} {act : Act σ α} {next : α → Recorded σ β} {then' : α → Act σ β}
  {s t : σ} {a : α}

@[simp] theorem events_silently (act : Act σ α) (s : σ) : (silently act).events s = [] := rfl

@[simp] theorem events_pure (a : α) (s : σ) : events (pure a) s = [] := rfl

theorem records_silently (act : Act σ α) : Records (silently act) act := by
  intro s before
  rw [events_silently, List.append_nil]
  rfl

theorem records_pure (a : α) : Records (pure a) (pure a : Act σ α) := by
  intro s before
  rw [events_pure, List.append_nil]
  rfl

theorem Records.bind (h : Records recorded act) (hn : ∀ a, Records (next a) (then' a)) :
    Records (recorded >>= next) (act >>= then') := by
  intro s before
  have hevents : (recorded >>= next).events s = ((recorded >>= next).perform (s, [])).2.2 := rfl
  rw [hevents, perform_bind, perform_bind, perform_bind, h s before, h s []]
  rcases act.perform s with ⟨f | a, t⟩
  · simp
  · simp [hn a t]

/-- Two acts one after the other record one after the other. -/
theorem Records.events_bind (h : Records recorded act) (hn : ∀ a, Records (next a) (then' a))
    (ha : act.perform s = (.ok a, t)) :
    (recorded >>= next).events s = recorded.events s ++ (next a).events t := by
  rw [events, perform_bind, h s, ha]
  simp only
  rw [hn a t]
  rfl

/-- An act of which nothing is recorded only changes where the next one starts. -/
theorem events_silently_bind (ha : act.perform s = (.ok a, t)) :
    (silently act >>= next).events s = (next a).events t := by
  rw [events, perform_bind, silently, perform_within]
  simp only [ha]
  rfl

theorem events_bind_pure (recorded : Recorded σ α) (f : α → β) (s : σ) :
    events (do return f (← recorded)) s = recorded.events s := by
  rw [events, perform_bind, events]
  rcases recorded.perform (s, []) with ⟨_ | a, t⟩ <;> rfl

/-- An act that starts with an event. -/
theorem Records.tell {event : Event} (h : Records recorded act) :
    Records (do tell event; recorded) act := by
  intro s before
  have hpast := h s (before ++ [event])
  have hown := h s [event]
  simp only [events, perform_bind, Recorded.tell, perform_modify, List.nil_append] at hpast hown ⊢
  rw [hpast, hown, List.append_assoc]

theorem Records.events_tell {event : Event} (h : Records recorded act) (s : σ) :
    events (do Recorded.tell event; recorded) s = event :: recorded.events s := by
  have hown := h s [event]
  simp only [events, perform_bind, Recorded.tell, perform_modify, List.nil_append] at hown ⊢
  rw [hown]
  rfl

theorem Records.foldlM {step : β → α → Recorded σ β} {step' : β → α → Act σ β}
    (h : ∀ b a, Records (step b a) (step' b a)) (as : List α) (b : β) :
    Records (as.foldlM step b) (as.foldlM step' b) := by
  induction as generalizing b with
  | nil => exact records_pure b
  | cons a as ih =>
    rw [List.foldlM_cons, List.foldlM_cons]
    exact (h b a).bind ih

/-- A recorded act on the store. -/
def onStore {κ : Type} (recorded : Recorded (Store κ) α) : Recorded (Workspace κ) α :=
  recorded.within fun (w, events) =>
    ((w.store, events), fun (s, events) => ({ w with store := s }, events))

theorem Records.onStore {κ : Type} {recorded : Recorded (Store κ) α} {act : Act (Store κ) α}
    (h : Records recorded act) : Records (Recorded.onStore recorded) (Work.onStore act) := by
  intro w before
  have hrun := h w.store before
  simp only [Recorded.onStore, Work.onStore, perform_within, hrun]
  rfl

theorem events_onStore {κ : Type} (recorded : Recorded (Store κ) α) (w : Workspace κ) :
    (onStore recorded).events w = recorded.events w.store := rfl

end Recorded

/-! ## Giving back -/

namespace Store

open Recorded

variable {κ : Type} {s t : Store κ} {e : Expression} {seat : Seat} {used : List Ref} {b : Int}
  {p q : Planted κ} {parent : Option Ref} {r : Ref}

/-- `releaseTo` with a record. -/
def releaseToRecorded : Nat → Ref → Store κ × List Event → Store κ × List Event
  | 0, r, (s, events) => (s.giveBack r, events ++ [.released r])
  | depth + 1, r, (s, events) =>
    let below := (s.children r).reverse
    below.foldl (fun x c => releaseToRecorded depth c x) (s.giveBack r, events ++ [.released r])

/-- `release` with a record. -/
def releaseRecorded (r : Option Ref) : Recorded (Store κ) Unit := do
  match r with
  | none => pure ()
  | some r =>
    match (← silently get).parent? r with
    | some owner => silently (replaceChild owner (some r) none)
    | none => pure ()
    modify fun x => releaseToRecorded x.1.nodes.size r x

/-- `replaceSubtree` with a record. -/
def replaceSubtreeRecorded (e : Expression) (target : Ref) (replacement : Option Ref) :
    Recorded (Store κ) Unit := do
  silently (relink e target replacement)
  releaseRecorded (some target)

/-- Everything that hangs below one of the references is among them. -/
def Closed (s : Store κ) (below : List Ref) : Prop := ∀ x ∈ below, s.children x ⊆ below

theorem closed_refs (h : p.In s parent) : s.Closed p.refs := by
  induction p generalizing parent with
  | absent => exact fun x hx => (List.not_mem_nil hx).elim
  | literal x v | var x n =>
    intro y hy
    rw [List.mem_singleton.mp hy, Planted.children_eq h]
    exact List.nil_subset _
  | binary x op p q ihp ihq =>
    obtain ⟨hn, hp, hq⟩ := h
    intro y hy c hc
    simp only [Planted.refs, List.mem_append, List.mem_singleton] at hy ⊢
    rcases hy with (hy | hy) | rfl
    · exact .inl (.inl (ihp hp y hy hc))
    · exact .inl (.inr (ihq hq y hy hc))
    · rw [Planted.children_eq hn] at hc
      simp only [Cell.children, List.mem_append, Option.mem_toList] at hc
      exact .inl (hc.imp Planted.mem_refs_of_ref? Planted.mem_refs_of_ref?)
  | unary x op p ih =>
    obtain ⟨hn, hp⟩ := h
    intro y hy c hc
    simp only [Planted.refs, List.mem_append, List.mem_singleton] at hy ⊢
    rcases hy with hy | rfl
    · exact .inl (ih hp y hy hc)
    · rw [Planted.children_eq hn] at hc
      exact .inl (Planted.mem_refs_of_ref? (Option.mem_toList.mp hc))

/-- Giving a node back only cuts links. -/
theorem children_giveBack_subset (s : Store κ) (r x : Ref) :
    (s.giveBack r).children x ⊆ s.children x := by
  unfold giveBack
  cases hn : s.node? r with
  | none => exact List.Subset.refl _
  | some n =>
    have hx : (s.write r ⟨n.cell.cleared, none⟩).node? x =
        if x = r then some ⟨n.cell.cleared, none⟩ else s.node? x :=
      node?_write s r x _ (lt_size_of_node? hn)
    show (s.write r ⟨n.cell.cleared, none⟩).children x ⊆ s.children x
    unfold children
    rw [hx]
    by_cases hxr : x = r
    · rw [if_pos hxr]
      cases n.cell <;> exact List.nil_subset _
    · rw [if_neg hxr]
      exact List.Subset.refl _

theorem Closed.giveBack {below : List Ref} (h : s.Closed below) (r : Ref) :
    (s.giveBack r).Closed below :=
  fun x hx => List.Subset.trans (children_giveBack_subset s r x) (h x hx)

/-- **Following a release.** The record of a release adds the nodes given back, and all of these are
among any references that contain the root and are closed. -/
theorem releaseTo_recorded (depth : Nat) (r : Ref) (s : Store κ) :
    ∃ gone : List Ref, (∀ before, releaseToRecorded depth r (s, before) =
        (releaseTo depth r s, before ++ gone.map .released)) ∧
      ∀ below, s.Closed below → r ∈ below → gone ⊆ below ∧ (releaseTo depth r s).Closed below := by
  induction depth generalizing r s with
  | zero =>
    refine ⟨[r], fun before => rfl, fun below hc hr => ⟨?_, hc.giveBack r⟩⟩
    exact List.cons_subset.mpr ⟨hr, List.nil_subset _⟩
  | succ depth ih =>
    have hfold (cs : List Ref) (s : Store κ) :
        ∃ gone : List Ref, (∀ before, cs.foldl (fun x c => releaseToRecorded depth c x) (s, before) =
            (cs.foldl (fun s c => releaseTo depth c s) s, before ++ gone.map .released)) ∧
          ∀ below, s.Closed below → cs ⊆ below →
            gone ⊆ below ∧ (cs.foldl (fun s c => releaseTo depth c s) s).Closed below := by
      induction cs generalizing s with
      | nil => exact ⟨[], by simp, fun below hc _ => ⟨List.nil_subset _, hc⟩⟩
      | cons c cs ihcs =>
        obtain ⟨first, hfirst, hbelow⟩ := ih c s
        obtain ⟨later, hlater, hbelow'⟩ := ihcs (releaseTo depth c s)
        refine ⟨first ++ later, fun before => ?_, fun below hc hcs => ?_⟩
        · rw [List.foldl_cons, List.foldl_cons, hfirst, hlater, List.map_append, List.append_assoc]
        · obtain ⟨hsub, hc'⟩ := hbelow below hc (hcs List.mem_cons_self)
          obtain ⟨hsub', hc''⟩ := hbelow' below hc' fun x hx => hcs (List.mem_cons_of_mem _ hx)
          exact ⟨List.append_subset.mpr ⟨hsub, hsub'⟩, hc''⟩
    obtain ⟨gone, hgone, hbelow⟩ := hfold (s.children r).reverse (s.giveBack r)
    refine ⟨r :: gone, fun before => ?_, fun below hc hr => ?_⟩
    · rw [releaseToRecorded, hgone, releaseTo, List.map_cons, List.append_assoc]
      rfl
    · obtain ⟨hsub, hc'⟩ := hbelow below (hc.giveBack r) fun x hx => hc r hr (List.mem_reverse.mp hx)
      exact ⟨List.cons_subset.mpr ⟨hr, hsub⟩, hc'⟩

theorem records_release (r : Option Ref) :
    Records (releaseRecorded r) (release r : Act (Store κ) Unit) := by
  cases r with
  | none => exact records_pure ()
  | some r =>
    have hlast : Records (modify fun x => releaseToRecorded x.1.nodes.size r x)
        (modify fun s => releaseTo s.nodes.size r s : Act (Store κ) Unit) := by
      intro s before
      obtain ⟨gone, hgone, -⟩ := releaseTo_recorded s.nodes.size r s
      simp [events, hgone]
    refine (records_silently get).bind fun s => ?_
    cases s.parent? r with
    | some owner => exact (records_silently _).bind fun _ => hlast
    | none => exact hlast

theorem records_replaceSubtree (e : Expression) (target : Ref) (replacement : Option Ref) :
    Records (replaceSubtreeRecorded e target replacement)
      (replaceSubtree e target replacement : Act (Store κ) Unit) := by
  rw [replaceSubtree_eq]
  exact (records_silently _).bind fun _ => records_release _

/-- A tree without a parent is given back down to its leaves, and nothing else is. -/
theorem events_release (hp : p.In s none) (hr : p.ref? = some r) :
    ∃ gone : List Ref, gone ⊆ p.refs ∧
      (releaseRecorded (some r)).events s = gone.map Event.released := by
  obtain ⟨gone, hgone, hbelow⟩ := releaseTo_recorded s.nodes.size r s
  refine ⟨gone, (hbelow p.refs (closed_refs hp) (Planted.mem_refs_of_ref? hr)).1, ?_⟩
  have hrun : (releaseRecorded (some r)).perform (s, []) =
      (.ok (), releaseToRecorded s.nodes.size r (s, [])) := by
    unfold releaseRecorded
    rw [perform_bind, silently, perform_within, perform_get]
    simp only [hp.parent?_eq hr]
    rfl
  rw [events, hrun, hgone]
  rfl

/-- **A change in a seat** gives back only nodes of the tree that hung there. -/
theorem events_replaceSubtree (hp : Seated e seat used s p r) (hq : q.In s none)
    (h : s.Accounted b (p.refs ++ (q.refs ++ used))) :
    ∃ gone : List Ref, gone ⊆ p.refs ∧
      (replaceSubtreeRecorded e r q.ref?).events s = gone.map Event.released := by
  obtain ⟨_, t, ht, hp₁, -⟩ := (relink_spec hp hq h).exists
  rw [replaceSubtreeRecorded, events_silently_bind ht]
  exact events_release hp₁ hp.ref

end Store

/-! ## What the simplifier puts into a seat -/

namespace Simplifier

open Store Recorded

variable {κ : Type} {s : Store κ} {e : Expression} {seat : Seat} {used : List Ref} {b : Int}
  {p x rest : Planted κ} {r : Ref} {slot : Slot}

/-- Putting a new literal where a node is, with a record. -/
def putLiteralRecorded (e : Expression) (r : Ref) (v : κ) : Recorded (Store κ) Unit := do
  let c ← silently (newLiteral .pool v)
  replaceSubtreeRecorded e r (some c)

theorem records_putLiteral (e : Expression) (r : Ref) (v : κ) :
    Records (putLiteralRecorded e r v) (do
      let c ← newLiteral .pool v
      replaceSubtree e r (some c) : Act (Store κ) Unit) :=
  (records_silently _).bind fun _ => records_replaceSubtree e r _

/-- What hung in a seat is given back when a literal takes the seat. -/
theorem events_putLiteral (v : κ) (hp : Seated e seat used s p r) (h : s.Accounted b (p.refs ++ used)) :
    ∃ gone : List Ref, gone ⊆ p.refs ∧ (putLiteralRecorded e r v).events s = gone.map Event.released := by
  obtain ⟨c, t, ht, hm, -⟩ := (newLiteral_spec h v).exists
  have ha : t.Accounted b (p.refs ++ ((Planted.literal c v).refs ++ used)) :=
    hm.accounted.perm (List.perm_iff_count.mpr fun a => by
      simp only [List.count_append]
      omega)
  have hseat := events_replaceSubtree (q := .literal c v) (hp.kept hm.kept) hm.stands ha
  rw [putLiteralRecorded, events_silently_bind ht]
  exact hseat

/-- `promote` with a record. -/
def promoteRecorded (e : Expression) (r : Ref) (slot : Slot) : Recorded (Store κ) Unit := do
  let child := (← silently get).slot? r slot
  silently (detach r child)
  replaceSubtreeRecorded e r child

theorem records_promote (e : Expression) (r : Ref) (slot : Slot) :
    Records (promoteRecorded e r slot) (promote e r slot : Act (Store κ) Unit) := by
  refine (records_silently get).bind fun s => ?_
  exact (records_silently _).bind fun _ => records_replaceSubtree e r _

/-- What is left of an operation is given back when an operand takes its seat. -/
theorem events_promote (F : Frame κ) (hp : Seated e seat used s (F.fill x) r)
    (h : s.Accounted b ((F.fill x).refs ++ used)) (hne : x ≠ .absent) :
    ∃ gone : List Ref, gone ⊆ (F.fill x).refs ∧
      (promoteRecorded e r F.slot).events s = gone.map Event.released := by
  obtain ⟨_, t, ht, hseat, hx₁, ha, -⟩ := (detach_operand_spec F hp h hne).exists
  have hslot := F.slot?_eq hp.isIn
  rw [F.owner_eq hp.ref] at hslot
  have hget : (get : Act (Store κ) (Store κ)).perform s = (.ok s, s) := rfl
  rw [promoteRecorded, events_silently_bind hget]
  simp only [hslot]
  rw [events_silently_bind ht]
  obtain ⟨gone, hsub, hgone⟩ := events_replaceSubtree hseat hx₁ ha
  exact ⟨gone, List.Subset.trans hsub (F.refs_fill_absent_subset x), hgone⟩

end Simplifier

/-! ## Nothing is given back without a record -/

namespace Store

open Recorded

variable {κ α : Type} {n : Nat}

/-- Since its count was `n`, the pool counted no more nodes taken back than are recorded. -/
def Covered (n : Nat) (x : Store κ × List Event) : Prop :=
  x.1.pool.released ≤ n + (x.2.filterMap Event.released?).length

theorem linkless_released (m : Nat) : Linkless fun s : Store κ => s.pool.released ≤ m := by
  intro _ s t hr h
  rw [hr.pool]
  exact h

theorem covered_silently {act : Act (Store κ) α} (h : ∀ m, Preserves (fun s => s.pool.released ≤ m) act) :
    Preserves (Covered n) (silently act) :=
  fun x hx => h _ x.1 hx

theorem Covered.giveBack {x : Store κ × List Event} (h : Covered n x) (r : Ref) :
    Covered n (x.1.giveBack r, x.2 ++ [.released r]) := by
  have hput (p : Pool) (k : Kind) : (p.put k r).released = p.released + 1 := by
    unfold Pool.put
    dsimp only
    split
    · cases k <;> rfl
    · rfl
  have hback : (x.1.giveBack r).pool.released ≤ x.1.pool.released + 1 := by
    unfold Store.giveBack
    cases x.1.node? r with
    | none => exact Nat.le_succ _
    | some node => exact Nat.le_of_eq (hput _ _)
  have hrecord : ((x.2 ++ [Event.released r]).filterMap Event.released?).length =
      (x.2.filterMap Event.released?).length + 1 := by
    simp [Event.released?]
  unfold Covered at h
  show (x.1.giveBack r).pool.released ≤ n + _
  rw [hrecord]
  omega

theorem Covered.releaseTo {x : Store κ × List Event} (h : Covered n x) (depth : Nat) (r : Ref) :
    Covered n (releaseToRecorded depth r x) := by
  induction depth generalizing x r with
  | zero => exact h.giveBack r
  | succ depth ih =>
    have hfold (below : List Ref) {x : Store κ × List Event} (h : Covered n x) :
        Covered n (below.foldl (fun x c => releaseToRecorded depth c x) x) := by
      induction below generalizing x with
      | nil => exact h
      | cons c below ihb => exact ihb (ih h c)
    exact hfold _ (h.giveBack r)

theorem covered_release (r : Option Ref) :
    Preserves (Covered n) (releaseRecorded r : Recorded (Store κ) Unit) := by
  cases r with
  | none => exact preserves_pure ()
  | some r =>
    have hfree : Preserves (Covered n) (modify fun x => releaseToRecorded x.1.nodes.size r x :
        Recorded (Store κ) Unit) := preserves_modify fun _ h => h.releaseTo _ r
    refine (covered_silently fun _ => preserves_get).bind fun s => ?_
    split
    · exact (covered_silently fun m => (linkless_released m).replaceChild _ _ _).bind fun _ => hfree
    · exact hfree

theorem released_relink (m : Nat) (e : Expression) (target : Ref) (replacement : Option Ref) :
    Preserves (fun s : Store κ => s.pool.released ≤ m) (relink e target replacement) := by
  refine preserves_get.bind fun s => ?_
  split
  · exact (linkless_released m).replaceChild _ _ _
  · refine preserves_get.bind fun s => ?_
    split
    · refine preserves_get.bind fun s => ?_
      split
      · exact preserves_throw _
      · exact preserves_modify fun _ h => h
    · exact preserves_throw _

theorem covered_replaceSubtree (e : Expression) (target : Ref) (replacement : Option Ref) :
    Preserves (Covered n) (replaceSubtreeRecorded e target replacement : Recorded (Store κ) Unit) :=
  (covered_silently fun m => released_relink m e target replacement).bind fun _ => covered_release _

theorem covered_putLiteral (e : Expression) (r : Ref) (v : κ) :
    Preserves (Covered n) (Simplifier.putLiteralRecorded e r v) := by
  have htake (m : Nat) : Preserves (fun s : Store κ => s.pool.released ≤ m) (newLiteral .pool v) := by
    intro s h
    show (s.take (.literal v)).2.pool.released ≤ m
    unfold take
    dsimp only
    split
    · exact h
    · exact h
  exact (covered_silently htake).bind fun c => covered_replaceSubtree e r (some c)

theorem covered_promote (e : Expression) (r : Ref) (slot : Slot) :
    Preserves (Covered n) (Simplifier.promoteRecorded e r slot : Recorded (Store κ) Unit) :=
  (covered_silently fun _ => preserves_get).bind fun _ =>
    (covered_silently fun m => (linkless_released m).replaceChild _ _ _).bind fun _ =>
      covered_replaceSubtree _ _ _

end Store

end Fluxion
