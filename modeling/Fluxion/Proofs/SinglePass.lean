import Fluxion.Proofs.NormalForm
import Fluxion.Proofs.Records

/-!
# One pass is enough for what it looks for

A pass lists the nodes before it starts, while trees are replaced, moved and given back under it. Still,
when a node is visited, everything below it is finished: whatever the visit puts in its place, be it a
literal, an operand or the node itself, has nothing left in it of the kind that the pass looks for. And
a visit gives back only nodes of the tree in the seat it visits. These were visited before or are the
node itself, so none of them is visited later, even if it is handed out again.

* `Simplifier.fold_isFolded` and `Simplifier.reduce_isReduced` are the passes on a plain tree.
* `Simplifier.foldPassRecorded` and `Simplifier.reducePassRecorded` keep a record of the nodes visited
  and given back.
* `Store.Owns` says that an expression owns a planted tree, whatever else is in the store.
* `Simplifier.Recounts` says what a visit records, and `Simplifier.visits_orderly` follows a pass from
  visit to visit.
* `Simplifier.Account` is a full account of a pass, and `Simplifier.one_pass_is_enough` is about both
  passes in place.
-/

namespace Fluxion

open Act

/-! ## Plain trees -/

namespace Tree

variable {κ : Type} {P : Tree κ → Prop} {here : Tree κ → Tree κ} {t : Tree κ}

/-- Something holds at every node below the root. -/
def Below (P : Tree κ → Prop) : Tree κ → Prop
  | binary _ l r => l.Everywhere P ∧ r.Everywhere P
  | unary _ x => x.Everywhere P
  | _ => True

theorem Below.everywhere (h : t.Below P) (ht : P t) : t.Everywhere P := by
  cases t with
  | absent => trivial
  | literal v | var n => exact ht
  | binary op l r => exact ⟨h.1, h.2, ht⟩
  | unary op x => exact ⟨h, ht⟩

/-- A function that finishes a tree whose operands are finished finishes every tree from the leaves
up. -/
theorem everywhere_bottomUp (hhere : ∀ t, t.Below P → (here t).Everywhere P) (t : Tree κ) :
    (t.bottomUp here).Everywhere P := by
  induction t with
  | absent => trivial
  | literal v => exact hhere (.literal v) trivial
  | var n => exact hhere (.var n) trivial
  | binary op l r ihl ihr => exact hhere (.binary op _ _) ⟨ihl, ihr⟩
  | unary op x ih => exact hhere (.unary op _) ih

end Tree

namespace Simplifier

section Plain

variable {κ : Type} [Scalar κ] (σ : Simplifier κ)

theorem foldHere_cases (t : Tree κ) : σ.foldHere t = t ∨ ∃ v, σ.foldHere t = .literal v := by
  unfold foldHere
  split
  · exact .inr ⟨_, rfl⟩
  · exact .inl rfl

/-- **One folding pass** leaves nothing to fold. -/
theorem fold_isFolded (t : Tree κ) : σ.IsFolded (σ.fold t) := by
  rw [σ.fold_eq]
  refine Tree.everywhere_bottomUp (fun t hbelow => ?_) t
  rcases σ.foldHere_cases t with hsame | ⟨v, hv⟩
  · rw [hsame]
    exact hbelow.everywhere fun ho hm v hv => σ.not_finite_of_foldHere_eq hsame ho hm hv
  · rw [hv]
    exact fun ho => absurd ho (Nat.lt_irrefl 0)

/-- **One pass of identities** leaves nothing to reduce. -/
theorem reduce_isReduced (t : Tree κ) : σ.IsReduced (σ.reduce t) := by
  rw [σ.reduce_eq]
  refine Tree.everywhere_bottomUp (fun t hbelow => ?_) t
  cases hr : σ.rule? t with
  | none =>
    have hsame : σ.reduceHere t = t := by
      unfold reduceHere
      rw [hr]
    rw [hsame]
    exact hbelow.everywhere hr
  | some o =>
    obtain ⟨op, l, r, rfl, ho⟩ := σ.rule?_cases hr
    rw [ho]
    cases o with
    | literal v => exact rfl
    | left => exact hbelow.1
    | right => exact hbelow.2

end Plain

/-! ## Recorded passes -/

open Store Recorded

section Recording

variable {κ : Type} [Scalar κ] (σ : Simplifier κ)

/-- `reduceAt` with a record. -/
def reduceRecorded (e : Expression) (r : Ref) : Recorded (Workspace κ) Bool := do
  match σ.rule? (← silently (Work.look (·.tree (some r)))) with
  | none => pure false
  | some (.literal v) =>
    onStore (putLiteralRecorded e r v)
    pure true
  | some .left =>
    onStore (promoteRecorded e r .left)
    pure true
  | some .right =>
    onStore (promoteRecorded e r .right)
    pure true

/-- A visit, which is recorded before anything is done. -/
def stepRecorded (act : Ref → Recorded (Workspace κ) Bool) (changed : Bool) (r : Ref) :
    Recorded (Workspace κ) Bool := do
  tell (.visited r)
  return (← act r) || changed

/-- `visit` with a record. -/
def visitRecorded (act : Ref → Recorded (Workspace κ) Bool) (rs : List Ref) :
    Recorded (Workspace κ) Bool :=
  rs.foldlM (stepRecorded act) false

/-- `reducePass` with a record. -/
def reducePassRecorded (e : Expression) : Recorded (Workspace κ) Bool := do
  visitRecorded (σ.reduceRecorded e) (← silently (Work.look (schedule · e)))

variable [Literal κ]

/-- `foldAt` with a record. -/
def foldRecorded (e : Expression) (r : Ref) : Recorded (Workspace κ) Bool := do
  match ← silently (σ.foldedAt r) with
  | none => pure false
  | some v =>
    onStore (putLiteralRecorded e r v)
    pure true

/-- `foldPass` with a record. -/
def foldPassRecorded (e : Expression) : Recorded (Workspace κ) Bool := do
  visitRecorded (σ.foldRecorded e) (← silently (Work.look (schedule · e)))

theorem records_fold (e : Expression) (r : Ref) : Records (σ.foldRecorded e r) (σ.foldAt e r) := by
  refine (records_silently _).bind fun v => ?_
  cases v with
  | none => exact records_pure false
  | some v => exact (records_putLiteral e r v).onStore.bind fun _ => records_pure true

omit [Literal κ] in
theorem records_reduce (e : Expression) (r : Ref) : Records (σ.reduceRecorded e r) (σ.reduceAt e r) := by
  refine (records_silently _).bind fun t => ?_
  rcases σ.rule? t with _ | ⟨v | _ | _⟩
  · exact records_pure false
  · exact (records_putLiteral e r v).onStore.bind fun _ => records_pure true
  · exact (records_promote e r .left).onStore.bind fun _ => records_pure true
  · exact (records_promote e r .right).onStore.bind fun _ => records_pure true

end Recording

/-! ## What a visit records -/

variable {κ : Type} {e : Expression} {recorded : Ref → Recorded (Workspace κ) Bool}
  {act : Ref → Work κ Bool} {here : Tree κ → Tree κ} {seat : Seat} {used : List Ref} {b : Int}
  {w : Workspace κ} {p : Planted κ} {r : Ref}

/-- Nothing is given back without a record. -/
def Covering {α : Type} (recorded : Recorded (Workspace κ) α) : Prop :=
  ∀ n, Preserves (fun x : Workspace κ × List Event => Covered n (x.1.store, x.2)) recorded

theorem covering_silently {α : Type} {act : Work κ α}
    (h : ∀ m, Preserves (fun w : Workspace κ => w.store.pool.released ≤ m) act) :
    Covering (silently act) :=
  fun _ x hx => h _ x.1 hx

theorem covering_pure {α : Type} (a : α) : Covering (pure a : Recorded (Workspace κ) α) :=
  fun _ => preserves_pure a

theorem covering_bind {α β : Type} {recorded : Recorded (Workspace κ) α}
    {next : α → Recorded (Workspace κ) β} (h : Covering recorded) (hn : ∀ a, Covering (next a)) :
    Covering (recorded >>= next) :=
  fun n => (h n).bind fun a => hn a n

/-- An act on the store that is known to change a tree. -/
theorem covering_onStore {recorded : Recorded (Store κ) Unit} (h : ∀ n, Preserves (Covered n) recorded)
    (changed : Bool) : Covering (do onStore recorded; return changed) :=
  covering_bind (fun n x hx => h n (x.1.store, x.2) hx) fun _ => covering_pure changed

theorem covering_step {recorded : Ref → Recorded (Workspace κ) Bool} (h : ∀ r, Covering (recorded r))
    (changed : Bool) (r : Ref) : Covering (stepRecorded recorded changed r) := by
  refine covering_bind (fun n => preserves_modify fun x hx => ?_) fun _ =>
    covering_bind (h r) fun _ => covering_pure _
  have hsame : (x.2 ++ [Event.visited r]).filterMap Event.released? = x.2.filterMap Event.released? := by
    rw [List.filterMap_append]
    exact List.append_nil _
  exact Nat.le_trans hx (Nat.le_of_eq (congrArg (n + ·.length) hsame.symm))

theorem covering_visit {recorded : Ref → Recorded (Workspace κ) Bool} (h : ∀ r, Covering (recorded r))
    (rs : List Ref) : Covering (visitRecorded recorded rs) :=
  fun n => preserves_foldlM (fun changed r => covering_step h changed r n) rs false

/-- A visit gives back only nodes of the tree in the seat it visits, and all of them are recorded. -/
structure Recounts (e : Expression) (recorded : Ref → Recorded (Workspace κ) Bool)
    (act : Ref → Work κ Bool) : Prop where
  records : ∀ r, Records (recorded r) (act r)
  covering : ∀ r, Covering (recorded r)
  visit : ∀ (b : Int) (seat : Seat) (used : List Ref) (w : Workspace κ) (p : Planted κ) (r : Ref),
    Seated e seat used w.store p r → w.store.Accounted b (p.refs ++ used) →
    p.tree.isWellFormed = true →
    ∃ gone : List Ref, gone ⊆ p.refs ∧ (recorded r).events w = gone.map .released

theorem recounts_reduce [Scalar κ] (σ : Simplifier κ) (e : Expression) :
    Recounts e (σ.reduceRecorded e) (σ.reduceAt e) where
  records := σ.records_reduce e
  covering r := by
    refine covering_bind (covering_silently fun m => fun _ hw => hw) fun t => ?_
    rcases σ.rule? t with _ | ⟨v | _ | _⟩
    · exact covering_pure false
    · exact covering_onStore (fun n => covered_putLiteral e r v) true
    · exact covering_onStore (fun n => covered_promote e r .left) true
    · exact covering_onStore (fun n => covered_promote e r .right) true
  visit b seat used w p r hp h hwf := by
    have hlook : (Work.look (·.tree (some r))).perform w = (.ok p.tree, w) := by
      rw [← tree_of_seated hp h]
      rfl
    rw [reduceRecorded, events_silently_bind hlook]
    cases hrule : σ.rule? p.tree with
    | none => exact ⟨[], List.nil_subset _, rfl⟩
    | some o =>
      obtain ⟨op, l, l', ht, -⟩ := σ.rule?_cases hrule
      cases p with
      | binary x op' p q =>
        obtain rfl : x = r := Option.some.inj hp.ref
        simp only [Planted.tree, Tree.isWellFormed, Bool.and_eq_true] at hwf
        have hne {q : Planted κ} (hq : q.tree.isWellFormed = true) : q ≠ .absent := by
          rintro rfl
          cases hq
        cases o with
        | literal v =>
          simp only [events_bind_pure, events_onStore]
          exact events_putLiteral v hp h
        | left =>
          simp only [events_bind_pure, events_onStore]
          exact events_promote (.left x op' q) hp h (hne hwf.1.2)
        | right =>
          simp only [events_bind_pure, events_onStore]
          exact events_promote (.right x op' p) hp h (hne hwf.2)
      | _ => cases ht

theorem foldedAt_preserves [Scalar κ] [Literal κ] (σ : Simplifier κ) (P : Store κ → Prop) (r : Ref) :
    Preserves (fun w : Workspace κ => P w.store) (σ.foldedAt r) := by
  have hnote (entry : Entry) :
      Preserves (fun w : Workspace κ => P w.store) (Work.note entry) := fun _ hw => hw
  have hlook : Preserves (fun w : Workspace κ => P w.store) (Work.look (·.tree (some r))) :=
    fun _ hw => hw
  refine hlook.bind fun t => ?_
  split
  · exact preserves_pure _
  · refine Preserves.bind ?_ fun _ => (hnote _).bind fun _ => preserves_pure none
    unfold Work.noteEvaluation
    split
    · exact hnote _
    · exact preserves_pure ()

theorem recounts_fold [Scalar κ] [Literal κ] (σ : Simplifier κ) (e : Expression) :
    Recounts e (σ.foldRecorded e) (σ.foldAt e) where
  records := σ.records_fold e
  covering r := by
    refine covering_bind (covering_silently fun m => ?_) fun v => ?_
    · exact σ.foldedAt_preserves (·.pool.released ≤ m) r
    cases v with
    | none => exact covering_pure false
    | some v => exact covering_onStore (fun n => covered_putLiteral e r v) true
  visit b seat used w p r hp h _ := by
    obtain ⟨v, w₁, hv, hw, -⟩ := (σ.foldedAt_spec (tree_of_seated hp h)).exists
    rw [foldRecorded, events_silently_bind hv]
    cases v with
    | none => exact ⟨[], List.nil_subset _, rfl⟩
    | some v =>
      simp only [events_bind_pure, events_onStore]
      rw [hw]
      exact events_putLiteral v hp h

/-- The nodes visited are `rs`, in that order. None is visited after it was given back, and none of
those in use elsewhere is given back. -/
structure Orderly (rs used : List Ref) (events : List Event) : Prop where
  visits : events.filterMap Event.visited? = rs
  ordered : events.Pairwise fun a b => ∀ r, a = .released r → b ≠ .visited r
  apart : ∀ r, .released r ∈ events → r ∉ used

/-! ## From a visit to a pass -/

variable {rs rs' used' : List Ref} {events events' : List Event}

theorem Orderly.mono (h : Orderly rs used events) (hs : used' ⊆ used) : Orderly rs used' events :=
  ⟨h.visits, h.ordered, fun r hr hm => h.apart r hr (hs hm)⟩

theorem mem_of_visited {events : List Event} {r : Ref} (h : .visited r ∈ events) :
    r ∈ events.filterMap Event.visited? :=
  List.mem_filterMap.mpr ⟨_, h, rfl⟩

/-- What is visited later is still in use while the first nodes are visited. -/
theorem Orderly.append (h : Orderly rs (rs' ++ used) events) (h' : Orderly rs' used events') :
    Orderly (rs ++ rs') used (events ++ events') where
  visits := by rw [List.filterMap_append, h.visits, h'.visits]
  ordered := by
    refine List.pairwise_append.mpr ⟨h.ordered, h'.ordered, ?_⟩
    rintro a ha b hb r rfl rfl
    exact h.apart r ha (List.mem_append_left _ (h'.visits ▸ mem_of_visited hb))
  apart r hr := by
    rcases List.mem_append.mp hr with hr | hr
    · exact fun hm => h.apart r hr (List.mem_append_right _ hm)
    · exact h'.apart r hr

/-- A visit with what it gives back. -/
theorem orderly_visit {gone : List Ref} (h : ∀ x ∈ gone, x ∉ used) :
    Orderly [r] used (.visited r :: gone.map .released) where
  visits := by simp [Event.visited?, Function.comp_def]
  ordered := by
    have hgone : (gone.map Event.released).Pairwise fun a b => ∀ r, a = .released r → b ≠ .visited r :=
      List.pairwise_map.mpr (List.pairwise_of_forall fun _ _ _ _ hv => by cases hv)
    exact List.pairwise_cons.mpr ⟨fun _ _ x hx => (by cases hx), hgone⟩
  apart x hx := by
    simp only [List.mem_cons, reduceCtorEq, List.mem_map, Event.released.injEq, false_or,
      exists_eq_right] at hx
    exact h x hx

theorem records_step (ha : Recounts e recorded act) (changed : Bool) (r : Ref) :
    Records (stepRecorded recorded changed r) (do return (← act r) || changed) :=
  Records.tell ((ha.records r).bind fun _ => records_pure _)

theorem orderly_step (hr : Recounts e recorded act) (hp : Seated e seat used w.store p r)
    (h : w.store.Accounted b (p.refs ++ used)) (hw : p.tree.isWellFormed = true) (flag : Bool) :
    Orderly [r] used ((stepRecorded recorded flag r).events w) := by
  obtain ⟨gone, hsub, hgone⟩ := hr.visit b seat used w p r hp h hw
  have hbody := (hr.records r).bind fun changed => records_pure (changed || flag)
  rw [stepRecorded, hbody.events_tell, events_bind_pure, hgone]
  exact orderly_visit fun x hx hu => (List.nodup_append.mp h.nodup_used).2.2 x (hsub hx) x hu rfl

/-- The nodes visited first are recorded first. -/
theorem events_foldlM_append (hr : Recounts e recorded act) {flag flag₁ : Bool} {w₁ : Workspace κ}
    (hrun : (rs.foldlM (fun changed r => do return (← act r) || changed) flag).perform w =
      (.ok flag₁, w₁)) :
    ((rs ++ rs').foldlM (stepRecorded recorded) flag).events w =
      (rs.foldlM (stepRecorded recorded) flag).events w ++
        (rs'.foldlM (stepRecorded recorded) flag₁).events w₁ := by
  rw [List.foldlM_append]
  exact (Records.foldlM (records_step hr) rs flag).events_bind
    (fun flag => Records.foldlM (records_step hr) rs' flag) hrun

/-- **From a visit to a pass.** The nodes of a tree are visited children first, and none of them is
visited after it was given back. -/
theorem visits_orderly (ha : Realises e act here) (hr : Recounts e recorded act)
    (hp : Seated e seat used w.store p r) (h : w.store.Accounted b (p.refs ++ used))
    (hw : p.tree.isWellFormed = true) (flag : Bool) :
    Orderly p.refs used ((p.refs.foldlM (stepRecorded recorded) flag).events w) := by
  induction p generalizing seat used w r flag with
  | absent => cases hp.ref
  | literal x v | var x n =>
    obtain rfl : x = r := Option.some.inj hp.ref
    simp only [Planted.refs, List.foldlM_cons, List.foldlM_nil, bind_pure]
    exact orderly_step hr hp h hw flag
  | unary x op p ih =>
    obtain rfl : x = r := Option.some.inj hp.ref
    simp only [Planted.tree, Tree.isWellFormed, Bool.and_eq_true] at hw
    obtain ⟨y, hy⟩ := Planted.ref?_of_isWellFormed hw.2
    have hpx := hp.below (.operand x op) hy
    have hax := h.below (.operand x op)
    obtain ⟨flag₁, w₁, hrun, p₁, hp₁, hw₁, -, hr₁⟩ := (visit_spec ha hpx hax hw.2 flag).exists
    have hr₁ : Replaced _ e seat used _ (.unary x op p₁) _ := hr₁.of_below (.operand x op) hp
    have hwf : (Planted.unary x op p₁).tree.isWellFormed = true := by
      simp [Planted.tree, Tree.isWellFormed, hw.1, hw₁]
    have hbelow : Orderly p.refs (x :: used) _ := ih hpx hax hw.2 flag
    have hnode := orderly_step hr (hp.of_replaced hr₁ rfl) hr₁.accounted hwf flag₁
    rw [Planted.refs, events_foldlM_append hr hrun]
    simp only [List.foldlM_cons, List.foldlM_nil, bind_pure]
    exact hbelow.append hnode
  | binary x op p q ihp ihq =>
    obtain rfl : x = r := Option.some.inj hp.ref
    simp only [Planted.tree, Tree.isWellFormed, Bool.and_eq_true] at hw
    obtain ⟨y, hy⟩ := Planted.ref?_of_isWellFormed hw.1.2
    obtain ⟨z, hz⟩ := Planted.ref?_of_isWellFormed hw.2
    have hpl := hp.below (.left x op q) hy
    have hal := h.below (.left x op q)
    obtain ⟨flag₁, w₁, hrun₁, p₁, hp₁, hw₁, -, hr₁⟩ := (visit_spec ha hpl hal hw.1.2 flag).exists
    have hr₁ : Replaced _ e seat used _ (.binary x op p₁ q) _ := hr₁.of_below (.left x op q) hp
    have hs₁ := hp.of_replaced hr₁ rfl
    have hpr := hs₁.below (.right x op p₁) hz
    have har := hr₁.accounted.below (.right x op p₁)
    obtain ⟨flag₂, w₂, hrun₂, q₁, hq₁, hw₂, -, hr₂⟩ := (visit_spec ha hpr har hw.2 flag₁).exists
    have hr₂ : Replaced _ e seat used _ (.binary x op p₁ q₁) _ := hr₂.of_below (.right x op p₁) hs₁
    have hwf : (Planted.binary x op p₁ q₁).tree.isWellFormed = true := by
      simp [Planted.tree, Tree.isWellFormed, hw.1.1, hw₁, hw₂]
    -- while the left operand is visited, the right one and the node itself are in use elsewhere
    have hleft : Orderly p.refs (q.refs ++ x :: used) _ := ihp hpl hal hw.1.2 flag
    have hright := (ihq hpr har hw.2 flag₁).mono (List.subset_append_right _ (x :: used))
    have hnode := orderly_step hr (hs₁.of_replaced hr₂ rfl) hr₂.accounted hwf flag₂
    rw [Planted.refs, List.append_assoc, events_foldlM_append hr hrun₁, events_foldlM_append hr hrun₂]
    simp only [List.foldlM_cons, List.foldlM_nil, bind_pure]
    exact Orderly.append (hleft.mono (by simp)) (hright.append hnode)

end Simplifier

/-! ## Expressions that own their trees -/

namespace Store

variable {κ : Type} {s : Store κ} {e : Expression} {p : Planted κ} {r : Ref}

/-- The expression owns a planted tree, whose nodes are different ones and not free. -/
structure Owns (s : Store κ) (e : Expression) (p : Planted κ) : Prop where
  isIn : p.In s none
  apart : s.Apart p.refs
  root : s.root? e = p.ref?

theorem Owns.stands (h : s.Owns e p) : p.Stands s p.refs none :=
  ⟨h.isIn, List.Subset.refl _, h.apart.nodup_used⟩

theorem Owns.expressionTree_eq (h : s.Owns e p) : s.expressionTree e = p.tree := by
  rw [expressionTree, h.root]
  exact h.stands.tree_eq h.apart

theorem Owns.schedule_eq (h : s.Owns e p) : Simplifier.schedule s e = p.refs := by
  rw [Simplifier.schedule, h.root]
  cases hr : p.ref? with
  | none => rw [Planted.eq_absent_of_ref? hr, Planted.refs]
  | some r => exact h.stands.postOrder_eq h.apart hr

theorem Owns.seated (h : s.Owns e p) (hr : p.ref? = some r) : Seated e .root [] s p r :=
  seated_of_root? h.isIn hr (h.root.trans hr)

/-- A strictly owned expression owns a tree. -/
theorem StrictlyOwned.owns (h : s.StrictlyOwned) (he : e.place < s.roots.size) : ∃ p, s.Owns e p := by
  obtain ⟨b, own, hown⟩ := h.holds
  obtain ⟨p, hp⟩ := hown.exists_mem he
  obtain ⟨rest, hperm⟩ := perm_of_mem hp
  exact ⟨p, hown.trees _ hp, (hown.perm hperm.symm).accounted.toApart.of_append_left, hown.root?_eq hp⟩

end Store

/-! ## Both passes -/

namespace Simplifier

open Store Recorded

variable {κ : Type} {e : Expression} {recorded : Ref → Recorded (Workspace κ) Bool}
  {act : Ref → Work κ Bool} {here : Tree κ → Tree κ} {w : Workspace κ} {p : Planted κ}

/-- A pass over an expression whose tree is valid. -/
theorem pass_owned (ha : Realises e act here) (h : w.store.Owns e p) (hv : p.tree.Valid) :
    (do visit act (← Work.look (schedule · e))).Succeeds w fun _ w' =>
      ∃ q : Planted κ, w'.store.Owns e q ∧ q.tree = p.tree.bottomUp here := by
  refine Work.ensures_look ?_
  rw [h.schedule_eq]
  cases hr : p.ref? with
  | none =>
    obtain rfl := Planted.eq_absent_of_ref? hr
    exact ensures_pure ⟨.absent, h, rfl⟩
  | some r =>
    have hseat := h.seated hr
    have hacc : w.store.Accounted _ (p.refs ++ []) := (List.append_nil p.refs).symm ▸ h.apart.accounted
    refine (visit_spec ha hseat hacc (Planted.isWellFormed_of_valid hv hr) false).mono ?_
    rintro changed w' ⟨q, hq, -, -, hrep⟩
    have hroot := hrep.root?_eq (lt_size_of_root? (h.root.trans hr)) e
    exact ⟨q, ⟨hrep.isIn, hrep.accounted.toApart.of_append_left, hroot.trans (if_pos rfl)⟩, hq⟩

theorem orderly_pass (ha : Realises e act here) (hr : Recounts e recorded act) (h : w.store.Owns e p)
    (hv : p.tree.Valid) :
    Orderly (schedule w.store e) []
      (events (do visitRecorded recorded (← silently (Work.look (schedule · e)))) w) := by
  have hlook : (Work.look (schedule · e)).perform w = (.ok (schedule w.store e), w) := rfl
  rw [events_silently_bind hlook, h.schedule_eq]
  cases hroot : p.ref? with
  | none =>
    rw [Planted.eq_absent_of_ref? hroot]
    exact ⟨rfl, List.Pairwise.nil, fun r hr => (List.not_mem_nil hr).elim⟩
  | some r =>
    have hacc : w.store.Accounted _ (p.refs ++ []) := (List.append_nil p.refs).symm ▸ h.apart.accounted
    exact visits_orderly ha hr (h.seated hroot) hacc (Planted.isWellFormed_of_valid hv hroot) false

/-- A full account of an act that visits nodes: the record is one of the act itself, the nodes visited are
`rs` in that order, whatever the pool counts as taken back is recorded, and no node is visited after it
was given back. -/
structure Account {α : Type} (recorded : Recorded (Workspace κ) α) (act : Work κ α) (w : Workspace κ)
    (rs : List Ref) : Prop where
  records : Records recorded act
  visits : (recorded.events w).filterMap Event.visited? = rs
  releases : (act.perform w).2.store.pool.released ≤
    w.store.pool.released + ((recorded.events w).filterMap Event.released?).length
  ordered : (recorded.events w).Pairwise fun a b => ∀ r, a = .released r → b ≠ .visited r

theorem account_pass (ha : Realises e act here) (hr : Recounts e recorded act) (h : w.store.Owns e p)
    (hv : p.tree.Valid) :
    Account (do visitRecorded recorded (← silently (Work.look (schedule · e))))
      (do visit act (← Work.look (schedule · e))) w (schedule w.store e) := by
  have horderly := orderly_pass ha hr h hv
  have hrecords : Records (do visitRecorded recorded (← silently (Work.look (schedule · e))))
      (do visit act (← Work.look (schedule · e))) :=
    (records_silently _).bind fun rs => Records.foldlM (records_step hr) rs false
  have hcovering : Covering (do visitRecorded recorded (← silently (Work.look (schedule · e)))) :=
    covering_bind (covering_silently fun _ _ hw => hw) fun rs => covering_visit hr.covering rs
  refine ⟨hrecords, horderly.visits, ?_, horderly.ordered⟩
  have hcovered := hcovering w.store.pool.released (w, []) (Nat.le_refl _)
  rw [hrecords w []] at hcovered
  exact hcovered

/-- **One pass is enough** for what it looks for, on an expression with a valid tree. A folding pass in
place is one on the plain tree, and leaves no operation that does not depend on the variable and has a
finite value under the bindings. A pass of identities in place is one on the plain tree, and leaves no
node to which an identity applies. Both passes visit the nodes that were there when they began, children
first, and never a node that they gave back. -/
theorem one_pass_is_enough [Scalar κ] [Literal κ] (σ : Simplifier κ) (h : w.store.Owns e p)
    (hv : p.tree.Valid) :
    ((σ.foldPass e).Succeeds w fun _ w' =>
      w'.store.expressionTree e = σ.fold p.tree ∧ σ.IsFolded (w'.store.expressionTree e)) ∧
    ((σ.reducePass e).Succeeds w fun _ w' =>
      w'.store.expressionTree e = σ.reduce p.tree ∧ σ.IsReduced (w'.store.expressionTree e)) ∧
    Account (σ.foldPassRecorded e) (σ.foldPass e) w (schedule w.store e) ∧
    Account (σ.reducePassRecorded e) (σ.reducePass e) w (schedule w.store e) := by
  refine ⟨?_, ?_, account_pass (σ.foldAt_realises e) (recounts_fold σ e) h hv,
    account_pass (σ.reduceAt_realises e) (recounts_reduce σ e) h hv⟩
  · refine (pass_owned (σ.foldAt_realises e) h hv).mono ?_
    rintro _ w' ⟨q, hq, htree⟩
    have hfold : w'.store.expressionTree e = σ.fold p.tree := by
      rw [hq.expressionTree_eq, htree, σ.fold_eq]
    exact ⟨hfold, hfold ▸ σ.fold_isFolded p.tree⟩
  · refine (pass_owned (σ.reduceAt_realises e) h hv).mono ?_
    rintro _ w' ⟨q, hq, htree⟩
    have hreduce : w'.store.expressionTree e = σ.reduce p.tree := by
      rw [hq.expressionTree_eq, htree, σ.reduce_eq]
    exact ⟨hreduce, hreduce ▸ σ.reduce_isReduced p.tree⟩

/-- The tree of `(x + 0) * (2 * 3)`. -/
def idleSum : Planted Float :=
  .binary 6 (.known .mul) (.binary 2 (.known .add) (.var 0 (some "x")) (.literal 1 0))
    (.binary 5 (.known .mul) (.literal 3 2) (.literal 4 3))

/-- A workspace with an expression that owns this tree, and with nothing else. -/
def withIdleSum : Workspace Float :=
  ⟨⟨#[⟨.var (some "x"), some 2⟩, ⟨.literal 0, some 2⟩, ⟨.binary (.known .add) (some 0) (some 1), some 6⟩,
      ⟨.literal 2, some 5⟩, ⟨.literal 3, some 5⟩, ⟨.binary (.known .mul) (some 3) (some 4), some 6⟩,
      ⟨.binary (.known .mul) (some 2) (some 5), none⟩], #[some 6], ⟨[], [], [], [], 2, 0, ⟨1, 3, 3, 0⟩⟩⟩,
    .opened .minimal, []⟩

/-- A simplifier that keeps `x`. -/
def keepingX : Simplifier Float := .standard (some "x") .empty 1

/-- The folding pass gives back the nodes of `2 * 3` and visits the root after that; the pass of
identities gives back the sum after it has visited `x` below it. -/
theorem one_pass_is_enough_idleSum :
    withIdleSum.store.Owns ⟨0⟩ idleSum ∧ idleSum.tree.Valid ∧
      (keepingX.foldPass ⟨0⟩).Succeeds withIdleSum (fun _ w' =>
        w'.store.expressionTree ⟨0⟩ = keepingX.fold idleSum.tree ∧
          keepingX.IsFolded (w'.store.expressionTree ⟨0⟩)) ∧
      (keepingX.reducePass ⟨0⟩).Succeeds withIdleSum (fun _ w' =>
        w'.store.expressionTree ⟨0⟩ = keepingX.reduce idleSum.tree ∧
          keepingX.IsReduced (w'.store.expressionTree ⟨0⟩)) ∧
      Account (keepingX.foldPassRecorded ⟨0⟩) (keepingX.foldPass ⟨0⟩) withIdleSum
        [0, 1, 2, 3, 4, 5, 6] ∧
      Account (keepingX.reducePassRecorded ⟨0⟩) (keepingX.reducePass ⟨0⟩) withIdleSum
        [0, 1, 2, 3, 4, 5, 6] := by
  have howns : withIdleSum.store.Owns ⟨0⟩ idleSum :=
    ⟨⟨rfl, ⟨rfl, rfl, rfl⟩, rfl, rfl, rfl⟩, ⟨by decide, by decide⟩, rfl⟩
  have hvalid : idleSum.tree.Valid := .inr rfl
  have hschedule : schedule withIdleSum.store ⟨0⟩ = [0, 1, 2, 3, 4, 5, 6] := howns.schedule_eq
  rw [← hschedule]
  exact ⟨howns, hvalid, one_pass_is_enough keepingX howns hvalid⟩

end Simplifier

end Fluxion
