import Fluxion.Proofs.Concurrence
import Fluxion.Proofs.Simplification

/-!
# Passes in tandem

Two stores have the same tree in the same seat under different names. A visit of the simplifier does the
same on both sides: it folds into the same literal, or moves the same operand, or is refused where the
operand to move is missing. So by induction over the tree a pass does the same on both sides, whatever
the tree; the nodes that stay keep their names. The first store recycles nothing, so that what is new
there was never seen before.

* `Simplifier.Facing` says that a tree hangs in a seat on both sides.
* `Simplifier.Renewed` says what it is replaced by.
* `Simplifier.visit_tandem` goes from one visit to a pass, `Simplifier.run_tandem` to the whole.
-/

namespace Fluxion

open Act

/-- The seat under other names. -/
def Seat.rename (ρ : Ref → Ref) : Seat → Seat
  | root => root
  | slot o sl => slot (ρ o) sl

namespace Simplifier

open Store

variable {κ : Type} {e : Expression} {seat : Seat} {used used' : List Ref} {b b' : Int} {t s t' s' t'' s'' : Store κ}
  {p q q' c : Planted κ} {r x : Ref} {ρ ρ' ρ'' : Ref → Ref} {op : Operator} {w w' v v' : Workspace κ}

/-- A tree hangs in a seat, and under other names in the same seat of another store. -/
structure Facing (b b' : Int) (e : Expression) (seat : Seat) (used used' : List Ref) (ρ : Ref → Ref)
    (t s : Store κ) (p : Planted κ) (r : Ref) : Prop where
  left : Seated e seat used t p r
  right : Seated e (seat.rename ρ) used' s (p.rename ρ) (ρ r)
  accounted : t.Accounted b (p.refs ++ used)
  accounted' : s.Accounted b' ((p.rename ρ).refs ++ used')
  idle : t.Idle 0

/-- The tree `p` was replaced by the same tree on both sides. What is left of it has the names it had, and
the rest is new. -/
structure Renewed (b b' : Int) (e : Expression) (seat : Seat) (used used' : List Ref) (ρ : Ref → Ref)
    (t s : Store κ) (p : Planted κ) (ρ' : Ref → Ref) (q : Planted κ) (t' s' : Store κ) : Prop where
  left : Replaced b e seat used t q t'
  right : Replaced b' e (seat.rename ρ) used' s (q.rename ρ') s'
  idle : t'.Idle t.nodes.size
  names : ∀ x < t.nodes.size, ρ' x = ρ x
  fresh : ∀ x ∈ q.refs, x ∈ p.refs ∨ t.nodes.size ≤ x
  spelled : p.tree.isSpelled = true → q.tree.isSpelled = true
  root : ∃ r, q.ref? = some r

theorem Facing.lt_size (h : Facing b b' e seat used used' ρ t s p r) (hx : x ∈ p.refs) : x < t.nodes.size :=
  h.accounted.lt_size (List.mem_append_left _ hx)

/-- The owner of a seat is a node of the store. -/
theorem Facing.rename_seat (h : Facing b b' e seat used used' ρ t s p r)
    (hn : ∀ x < t.nodes.size, ρ' x = ρ x) : seat.rename ρ' = seat.rename ρ := by
  cases seat with
  | root => rfl
  | slot o sl => exact congrArg (Seat.slot · sl) (hn o (h.accounted.lt_size (List.mem_append_right _ h.left.has.1)))

/-- Nothing was done. -/
theorem Facing.renewed (h : Facing b b' e seat used used' ρ t s p r) :
    Renewed b b' e seat used used' ρ t s p ρ p t s :=
  ⟨h.left.replaced h.accounted, h.right.replaced h.accounted', h.idle.self, fun _ _ => rfl, fun _ hx => .inl hx, id,
    r, h.left.ref⟩

/-- What it was replaced by hangs in the seat on both sides. -/
theorem Renewed.facing (h : Renewed b b' e seat used used' ρ t s p ρ' q t' s')
    (hp : Facing b b' e seat used used' ρ t s p r) :
    ∃ r', Facing b b' e seat used used' ρ' t' s' q r' := by
  obtain ⟨r', hr'⟩ := h.root
  have hseat := hp.rename_seat h.names
  have hr₂ : (q.rename ρ').ref? = some (ρ' r') := by rw [Planted.ref?_rename, hr', Option.map_some]
  exact ⟨r', hp.left.of_replaced h.left hr', hseat ▸ hp.right.of_replaced h.right hr₂, h.left.accounted,
    h.right.accounted, ⟨h.idle.spare, h.idle.room, Nat.zero_le _⟩⟩

theorem Renewed.trans (h : Renewed b b' e seat used used' ρ t s p ρ' q t' s')
    (h' : Renewed b b' e seat used used' ρ' t' s' q ρ'' q' t'' s'')
    (hp : Facing b b' e seat used used' ρ t s p r) :
    Renewed b b' e seat used used' ρ t s p ρ'' q' t'' s'' := by
  have hseat := hp.rename_seat h.names
  have hlt : ∀ {x}, x < t.nodes.size → x < t'.nodes.size := fun hx => Nat.lt_of_lt_of_le hx h.idle.size
  refine ⟨h.left.trans h'.left, h.right.trans (hseat ▸ h'.right),
    ⟨h'.idle.spare, h'.idle.room, Nat.le_trans h.idle.size h'.idle.size⟩,
    fun x hx => (h'.names x (hlt hx)).trans (h.names x hx), fun x hx => ?_, h'.spelled ∘ h.spelled, h'.root⟩
  rcases h'.fresh x hx with hx | hx
  · exact h.fresh x hx
  · exact .inr (Nat.le_trans h.idle.size hx)

/-! ## Operands -/

/-- An operation hangs on the other side as the renamed operation. -/
theorem Facing.renamed (F : Frame κ) (h : Facing b b' e seat used used' ρ t s (F.fill p) r) :
    Seated e (seat.rename ρ) used' s ((F.rename ρ).fill (p.rename ρ)) (ρ r) ∧
      s.Accounted b' (((F.rename ρ).fill (p.rename ρ)).refs ++ used') := by
  rw [← F.rename_fill]
  exact ⟨h.right, h.accounted'⟩

theorem Facing.below (F : Frame κ) (h : Facing b b' e seat used used' ρ t s (F.fill p) r) (hx : p.ref? = some x) :
    Facing b b' e (.slot r F.slot) (F.other.refs ++ r :: used) ((F.other.rename ρ).refs ++ ρ r :: used') ρ t s p x := by
  obtain rfl := F.owner_eq h.left.ref
  obtain ⟨hright, ha⟩ := h.renamed F
  have hbelow := hright.below (F.rename ρ) (x := ρ x) (by rw [Planted.ref?_rename, hx, Option.map_some])
  have habelow := ha.below (F.rename ρ)
  simp only [Frame.other_rename, Frame.slot_rename, Frame.owner_rename] at hbelow habelow
  exact ⟨h.left.below F hx, hbelow, h.accounted.below F, habelow, h.idle⟩

/-- An operand was replaced, seen from the seat of the operation. -/
theorem Renewed.of_below (F : Frame κ) (hf : Facing b b' e seat used used' ρ t s (F.fill p) r)
    (h : Renewed b b' e (.slot r F.slot) (F.other.refs ++ r :: used) ((F.other.rename ρ).refs ++ ρ r :: used') ρ t s p
      ρ' c t' s') :
    Renewed b b' e seat used used' ρ t s (F.fill p) ρ' (F.fill c) t' s' := by
  have hsame : F.rename ρ' = F.rename ρ := by
    refine F.rename_congr fun y hy => h.names y (hf.lt_size ?_)
    exact (F.perm_refs_fill p).mem_iff.mpr (List.mem_append_right _ hy)
  have hright := h.right
  rw [← F.other_rename, Seat.rename, ← F.slot_rename ρ] at hright
  refine ⟨h.left.of_below F hf.left, ?_, h.idle, h.names, fun x hx => ?_, fun hs => ?_, F.owner, F.ref?_fill c⟩
  · rw [F.rename_fill, hsame]
    exact hright.of_below (F.rename ρ) (hf.renamed F).1
  · rcases List.mem_append.mp ((F.perm_refs_fill c).mem_iff.mp hx) with hx | hx
    · exact (h.fresh x hx).imp_left fun hx => (F.perm_refs_fill p).mem_iff.mpr (List.mem_append_left _ hx)
    · exact .inl ((F.perm_refs_fill p).mem_iff.mpr (List.mem_append_right _ hx))
  · obtain ⟨hp, ho⟩ := F.isSpelled_fill.mp hs
    exact F.isSpelled_fill.mpr ⟨h.spelled hp, ho⟩

/-! ## From a visit to a pass -/

/-- The tree in the seat was replaced by the same tree on both sides, and the same was said. -/
def Renews (b b' : Int) (e : Expression) (seat : Seat) (used used' : List Ref) (ρ : Ref → Ref) (w w' : Workspace κ)
    (p : Planted κ) (v v' : Workspace κ) : Prop :=
  v.warnings = v'.warnings ∧
    ∃ ρ' q, Renewed b b' e seat used used' ρ w.store w'.store p ρ' q v.store v'.store

theorem Renews.of_renewed {v v' : Workspace κ} (hp : Facing b b' e seat used used' ρ w.store w'.store p r)
    (h : Renewed b b' e seat used used' ρ w.store w'.store p ρ' q v.store v'.store) {u u' : Workspace κ}
    (h' : Renews b b' e seat used used' ρ' v v' q u u') : Renews b b' e seat used used' ρ w w' p u u' := by
  obtain ⟨hw, ρ'', q', h'⟩ := h'
  exact ⟨hw, ρ'', q', h.trans h' hp⟩

/-- Visits do the same to the tree in a seat on both sides. -/
def Visits (e : Expression) (act : Ref → Work κ Bool) : Prop :=
  ∀ (b b' : Int) (seat : Seat) (used used' : List Ref) (ρ : Ref → Ref) (w w' : Workspace κ) (p : Planted κ)
    (r : Ref), Facing b b' e seat used used' ρ w.store w'.store p r → w.warnings = w'.warnings →
    (act r).Tandem w (act (ρ r)) w'
      (fun c c' v v' => c = c' ∧ Renews b b' e seat used used' ρ w w' p v v')
      (Renews b b' e seat used used' ρ w w' p)

section Visits

variable {act : Ref → Work κ Bool}

/-- Visiting one node, given whether an earlier visit changed the tree. -/
theorem visit_one_tandem (ha : Visits e act) (hp : Facing b b' e seat used used' ρ w.store w'.store p r)
    (hw : w.warnings = w'.warnings) (flag : Bool) :
    (do return (← act r) || flag : Work κ Bool).Tandem w (do return (← act (ρ r)) || flag : Work κ Bool) w'
      (fun c c' v v' => c = c' ∧ Renews b b' e seat used used' ρ w w' p v v')
      (Renews b b' e seat used used' ρ w w' p) := by
  refine (ha b b' seat used used' ρ w w' p r hp hw).bind ?_
  rintro c _ v v' ⟨rfl, hv⟩
  exact tandem_pure ⟨rfl, hv⟩

/-- Visiting the nodes of an operand, if there is one, seen from the seat of the operation. -/
theorem operand_tandem (F : Frame κ) {step step' : Bool → Ref → Work κ Bool}
    (hp : Facing b b' e seat used used' ρ w.store w'.store (F.fill p) r) (hw : w.warnings = w'.warnings)
    (hchild : ∀ {seat used used' x}, Facing b b' e seat used used' ρ w.store w'.store p x → ∀ flag,
      (p.refs.foldlM step flag).Tandem w ((p.rename ρ).refs.foldlM step' flag) w'
        (fun c c' v v' => c = c' ∧ Renews b b' e seat used used' ρ w w' p v v')
        (Renews b b' e seat used used' ρ w w' p)) (flag : Bool) :
    (p.refs.foldlM step flag).Tandem w ((p.rename ρ).refs.foldlM step' flag) w'
      (fun c c' v v' => c = c' ∧ v.warnings = v'.warnings ∧ ∃ ρ' q,
        Renewed b b' e seat used used' ρ w.store w'.store (F.fill p) ρ' (F.fill q) v.store v'.store)
      (Renews b b' e seat used used' ρ w w' (F.fill p)) := by
  cases hr : p.ref? with
  | none =>
    rw [Planted.eq_absent_of_ref? hr] at hp ⊢
    exact tandem_pure ⟨rfl, hw, ρ, .absent, hp.renewed⟩
  | some x =>
    refine (hchild (hp.below F hr) flag).mono ?_ ?_
    · rintro c c' v v' ⟨hc, hv, ρ', q, h⟩
      exact ⟨hc, hv, ρ', q, h.of_below F hp⟩
    · rintro v v' ⟨hv, ρ', q, h⟩
      exact ⟨hv, ρ', F.fill q, h.of_below F hp⟩

/-- The root is visited last, when its operands were. -/
theorem visit_last_tandem (ha : Visits e act) (hp : Facing b b' e seat used used' ρ w.store w'.store p r)
    (h : Renewed b b' e seat used used' ρ w.store w'.store p ρ' q v.store v'.store) (hr : q.ref? = some r)
    (hv : v.warnings = v'.warnings) (flag : Bool) :
    (do return (← act r) || flag : Work κ Bool).Tandem v (do return (← act (ρ r)) || flag : Work κ Bool) v'
      (fun c c' v v' => c = c' ∧ Renews b b' e seat used used' ρ w w' p v v')
      (Renews b b' e seat used used' ρ w w' p) := by
  obtain ⟨r', hq⟩ := h.facing hp
  obtain rfl : r = r' := Option.some.inj (hr.symm.trans hq.left.ref)
  rw [← h.names r (hp.lt_size (Planted.mem_refs_of_ref? hp.left.ref))]
  refine (visit_one_tandem ha hq hv flag).mono ?_ fun _ _ hf => hf.of_renewed hp h
  rintro c c' u u' ⟨hc, hu⟩
  exact ⟨hc, hu.of_renewed hp h⟩

/-- **From a visit to a pass.** Visiting the nodes of a tree, children first, does the same on both
sides. -/
theorem visit_tandem (ha : Visits e act) (hp : Facing b b' e seat used used' ρ w.store w'.store p r)
    (hw : w.warnings = w'.warnings) (flag : Bool) :
    (p.refs.foldlM (fun changed r => do return (← act r) || changed) flag).Tandem w
      ((p.rename ρ).refs.foldlM (fun changed r => do return (← act r) || changed) flag) w'
      (fun c c' v v' => c = c' ∧ Renews b b' e seat used used' ρ w w' p v v')
      (Renews b b' e seat used used' ρ w w' p) := by
  induction p generalizing seat used used' ρ w w' r flag with
  | absent => cases hp.left.ref
  | literal x c =>
    obtain rfl : x = r := Option.some.inj hp.left.ref
    simp only [Planted.rename, Planted.refs, List.foldlM_cons, List.foldlM_nil, bind_pure]
    exact visit_one_tandem ha hp hw flag
  | var x n =>
    obtain rfl : x = r := Option.some.inj hp.left.ref
    simp only [Planted.rename, Planted.refs, List.foldlM_cons, List.foldlM_nil, bind_pure]
    exact visit_one_tandem ha hp hw flag
  | unary x op p ih =>
    obtain rfl : x = r := Option.some.inj hp.left.ref
    simp only [Planted.rename, Planted.refs, List.foldlM_append, List.foldlM_cons, List.foldlM_nil, bind_pure]
    refine Tandem.bind (operand_tandem (.operand x op) hp hw (fun hp flag => ih hp hw flag) flag) ?_
    rintro f _ v v' ⟨rfl, hv, ρ₁, p₁, h₁⟩
    exact visit_last_tandem ha hp h₁ rfl hv f
  | binary x op p q ihp ihq =>
    obtain rfl : x = r := Option.some.inj hp.left.ref
    simp only [Planted.rename, Planted.refs, List.foldlM_append, List.foldlM_cons, List.foldlM_nil, bind_pure,
      bind_assoc]
    refine Tandem.bind (operand_tandem (.left x op q) hp hw (fun hp flag => ihp hp hw flag) flag) ?_
    rintro f _ v v' ⟨rfl, hv, ρ₁, p₁, h₁⟩
    obtain ⟨r', hp₁⟩ := h₁.facing hp
    obtain rfl : x = r' := Option.some.inj hp₁.left.ref
    have hq : q.rename ρ₁ = q.rename ρ :=
      Planted.rename_congr fun y hy => h₁.names y (hp.lt_size (by simp [Planted.refs, hy]))
    rw [← hq]
    refine Tandem.bind ((operand_tandem (.right x op p₁) hp₁ hv (fun hp flag => ihq hp hv flag) f).mono
      (fun _ _ _ _ => id) fun _ _ hf => hf.of_renewed hp h₁) ?_
    rintro g _ u u' ⟨rfl, hu, ρ₂, q₁, h₂⟩
    exact visit_last_tandem ha hp (h₁.trans h₂ hp) rfl hu g

/-- **A pass over the tree of an expression.** -/
theorem pass_tandem (ha : Visits e act) (hp : Facing b b' e .root used used' ρ w.store w'.store p r)
    (hw : w.warnings = w'.warnings) :
    (do visit act (← Work.look (schedule · e)) : Work κ Bool).Tandem w
      (do visit act (← Work.look (schedule · e)) : Work κ Bool) w'
      (fun c c' v v' => c = c' ∧ Renews b b' e .root used used' ρ w w' p v v')
      (Renews b b' e .root used used' ρ w w' p) := by
  refine Work.tandem_look ?_
  rw [schedule_of_seated hp.left hp.accounted, schedule_of_seated hp.right hp.accounted']
  exact visit_tandem ha hp hw false

end Visits

/-! ## The visits of the simplifier -/

/-- The tree in a seat reads back on both sides. -/
theorem Facing.tree_eq (hp : Facing b b' e seat used used' ρ w.store w'.store p r) :
    w.store.tree (some r) = p.tree ∧ w'.store.tree (some (ρ r)) = p.tree :=
  ⟨tree_of_seated hp.left hp.accounted, (tree_of_seated hp.right hp.accounted').trans (Planted.tree_rename ρ p)⟩

/-- Putting a new literal into the seat. -/
theorem replaceByLiteral_tandem (v : κ) (hp : Facing b b' e seat used used' ρ w.store w'.store p r)
    (hw : w.warnings = w'.warnings) {low : Workspace κ → Workspace κ → Prop} :
    (Work.onStore do
      let c ← newLiteral .pool v
      replaceSubtree e r (some c)).Tandem w
      (Work.onStore do
        let c ← newLiteral .pool v
        replaceSubtree e (ρ r) (some c)) w' (fun _ _ u u' => Renews b b' e seat used used' ρ w w' p u u') low := by
  have hleft := (replaceByTaken_spec v hp.left hp.accounted).preserves
    ((idle_newLiteral .pool v).bind fun c => idle_replaceSubtree e r (some c)) hp.idle.self
  have hright := replaceByTaken_spec v hp.right hp.accounted'
  obtain ⟨_, t', hrun, hl, hidle⟩ := hleft.exists
  obtain ⟨_, s', hrun', hr⟩ := hright.exists
  refine tandem_of_ok (Work.perform_onStore hrun) (Work.perform_onStore hrun') ⟨hw, ?_⟩
  -- on the first side the new node is none of those that were there
  have hnew : (w.store.take (.literal v)).1 = w.store.nodes.size := congrArg Prod.fst (hp.idle.take_eq _)
  refine ⟨Function.update ρ (w.store.take (.literal v)).1 (w'.store.take (.literal v)).1,
    .literal (w.store.take (.literal v)).1 v, hl, ?_, hidle, fun x hx => ?_, fun x hx => ?_, fun _ => rfl, _, rfl⟩
  · rw [Planted.rename, Function.update_self]
    exact hr
  · exact Function.update_of_ne (fun he => Nat.lt_irrefl _ (hnew ▸ he ▸ hx)) _ _
  · rw [List.mem_singleton.mp hx, hnew]
    exact .inr (Nat.le_refl _)

/-- How an operation refuses to give up an operand that is not there. -/
def refusal : Frame κ → Fault
  | .operand .. => .notAChild
  | _ => .emptySlot

theorem refusal_rename (F : Frame κ) (ρ : Ref → Ref) : refusal (F.rename ρ) = refusal F := by
  cases F <;> rfl

/-- An operand that is not there cannot be moved. -/
theorem promote_refused {parent : Option Ref} (e : Expression) (F : Frame κ) (h : (F.fill .absent).In s parent) :
    (promote e F.owner F.slot).perform s = (.error (refusal F), s) := by
  have hdetach : (detach F.owner none).perform s = (.error (refusal F), s) := by
    have hn := (F.in_fill.mp h).1
    unfold detach replaceChild
    rw [perform_bind, perform_get]
    simp only [hn]
    cases F <;> rfl
  unfold promote
  rw [perform_bind, perform_get]
  dsimp only
  rw [F.slot?_eq h, Planted.ref?_absent, perform_bind, hdetach]

/-- Moving an operand to the seat of its operation, or being refused where it is missing. -/
theorem promote_tandem (F : Frame κ) (hp : Facing b b' e seat used used' ρ w.store w'.store (F.fill p) r)
    (hw : w.warnings = w'.warnings) :
    (Work.onStore (promote e r F.slot)).Tandem w (Work.onStore (promote e (ρ r) F.slot)) w'
      (fun _ _ v v' => Renews b b' e seat used used' ρ w w' (F.fill p) v v')
      (Renews b b' e seat used used' ρ w w' (F.fill p)) := by
  obtain rfl := F.owner_eq hp.left.ref
  obtain ⟨hright, ha⟩ := hp.renamed F
  cases hr : p.ref? with
  | none =>
    obtain rfl := Planted.eq_absent_of_ref? hr
    have hrun := promote_refused e F hp.left.isIn
    have hrun' := promote_refused e (F.rename ρ) hright.isIn
    rw [refusal_rename, F.owner_rename, F.slot_rename] at hrun'
    exact tandem_of_error (Work.perform_onStore hrun) (Work.perform_onStore hrun') ⟨hw, ρ, _, hp.renewed⟩
  | some x =>
    have hne {q : Planted κ} {y : Ref} (hq : q.ref? = some y) : q ≠ .absent := by
      rintro rfl
      cases hq
    have hr' : (p.rename ρ).ref? = some (ρ x) := by rw [Planted.ref?_rename, hr, Option.map_some]
    have hleft := (promote_spec F hp.left hp.accounted (hne hr)).preserves (idle_promote e F.owner F.slot) hp.idle.self
    have hright := promote_spec (F.rename ρ) hright ha (hne hr')
    rw [F.slot_rename] at hright
    obtain ⟨_, t', hrun, hl, hidle⟩ := hleft.exists
    obtain ⟨_, s', hrun', hr'⟩ := hright.exists
    exact tandem_of_ok (Work.perform_onStore hrun) (Work.perform_onStore hrun')
      ⟨hw, ρ, p, hl, hr', hidle, fun _ _ => rfl,
        fun x hx => .inl ((F.perm_refs_fill p).mem_iff.mpr (List.mem_append_left _ hx)),
        fun hs => (F.isSpelled_fill.mp hs).1, x, hr⟩

variable [Scalar κ] (σ : Simplifier κ)

/-- **The visits of the pass of identities.** -/
theorem visits_reduceAt (e : Expression) : Visits e (σ.reduceAt e) := by
  intro b b' seat used used' ρ w w' p r hp hw
  obtain ⟨htree, htree'⟩ := hp.tree_eq
  unfold reduceAt
  refine Work.tandem_look ?_
  rw [htree, htree']
  cases hrule : σ.rule? p.tree with
  | none => exact tandem_pure ⟨rfl, hw, ρ, p, hp.renewed⟩
  | some o =>
    obtain ⟨op, l, l', ht, -⟩ := σ.rule?_cases hrule
    cases p with
    | binary x op' p q =>
      obtain rfl : x = r := Option.some.inj hp.left.ref
      cases o with
      | literal v =>
        refine (replaceByLiteral_tandem v hp hw).bind fun _ _ v v' hv => ?_
        exact tandem_pure ⟨rfl, hv⟩
      | left =>
        refine (promote_tandem (.left x op' q) hp hw).bind fun _ _ v v' hv => ?_
        exact tandem_pure ⟨rfl, hv⟩
      | right =>
        refine (promote_tandem (.right x op' p) hp hw).bind fun _ _ v v' hv => ?_
        exact tandem_pure ⟨rfl, hv⟩
    | _ => cases ht

variable [Literal κ]

/-- Looking for the value of a fold gives the same on both sides. -/
theorem foldedAt_tandem {r' : Ref} (ht : w'.store.tree (some r') = w.store.tree (some r))
    {low : Workspace κ → Workspace κ → Prop} :
    (σ.foldedAt r).Tandem w (σ.foldedAt r') w' (fun v v' u u' => v = v' ∧ u.store = w.store ∧
      u'.store = w'.store ∧ u.warnings = w.warnings ∧ u'.warnings = w'.warnings) low := by
  have hleft := (σ.quiet_foldedAt r).succeeds (σ.foldedAt_spec (w := w) rfl)
  have hright := (σ.quiet_foldedAt r').succeeds (σ.foldedAt_spec ht)
  refine hleft.tandem hright ?_
  rintro v v' u u' ⟨⟨hs, hv⟩, hwarn⟩ ⟨⟨hs', hv'⟩, hwarn'⟩
  refine ⟨?_, hs, hs', hwarn, hwarn'⟩
  rcases hv with hv | ⟨rfl, f, hv⟩ <;> rcases hv' with hv' | ⟨rfl, f', hv'⟩
  · exact Except.ok.inj (hv.symm.trans hv')
  · cases hv.symm.trans hv'
  · cases hv.symm.trans hv'
  · rfl

/-- **The visits of the folding pass.** -/
theorem visits_foldAt (e : Expression) : Visits e (σ.foldAt e) := by
  intro b b' seat used used' ρ w w' p r hp hw
  obtain ⟨htree, htree'⟩ := hp.tree_eq
  unfold foldAt
  refine (σ.foldedAt_tandem (htree'.trans htree.symm)).bind ?_
  rintro o _ v v' ⟨rfl, hs, hs', hwarn, hwarn'⟩
  have hvw : v.warnings = v'.warnings := hwarn.trans (hw.trans hwarn'.symm)
  have hv : Facing b b' e seat used used' ρ v.store v'.store p r := by rw [hs, hs']; exact hp
  have hrenews : ∀ {u u' : Workspace κ}, Renews b b' e seat used used' ρ v v' p u u' →
      Renews b b' e seat used used' ρ w w' p u u' := fun h => by
    unfold Renews at h ⊢
    rw [← hs, ← hs']
    exact h
  cases o with
  | none => exact tandem_pure ⟨rfl, hrenews ⟨hvw, ρ, p, hv.renewed⟩⟩
  | some c =>
    refine (replaceByLiteral_tandem c hv hvw).bind fun _ _ u u' hu => ?_
    exact tandem_pure ⟨rfl, hrenews hu⟩

/-! ## Passes and iterations -/

/-- The iterations, from any number of them left. -/
theorem iterate_tandem (left done : Nat) (changed : Bool)
    (hp : Facing b b' e .root used used' ρ w.store w'.store p r) (hw : w.warnings = w'.warnings) :
    (σ.iterate e left done changed).Tandem w (σ.iterate e left done changed) w'
      (fun c c' v v' => c = c' ∧ Renews b b' e .root used used' ρ w w' p v v')
      (Renews b b' e .root used used' ρ w w' p) := by
  induction left generalizing ρ w w' p r done changed with
  | zero =>
    refine tandem_of_ok rfl rfl ⟨rfl, ?_, ρ, p, hp.renewed⟩
    exact congrArg (σ.limitMessage :: ·) hw
  | succ left ih =>
    unfold iterate
    refine (pass_tandem (σ.visits_foldAt e) hp hw).bind ?_
    rintro folded _ v v' ⟨rfl, hv, ρ₁, p₁, h₁⟩
    obtain ⟨r₁, hp₁⟩ := h₁.facing hp
    refine ((pass_tandem (σ.visits_reduceAt e) hp₁ hv).mono (fun _ _ _ _ => id) fun _ _ hf =>
      hf.of_renewed hp h₁).bind ?_
    rintro reduced _ u u' ⟨rfl, hu, ρ₂, p₂, h₂⟩
    obtain ⟨r₂, hp₂⟩ := h₂.facing hp₁
    have h := h₁.trans h₂ hp
    split
    · refine (ih (done + 1) true hp₂ hu).mono ?_ fun _ _ hf => hf.of_renewed hp h
      rintro c c' z z' ⟨hc, hz⟩
      exact ⟨hc, hz.of_renewed hp h⟩
    · exact tandem_pure ⟨rfl, hu, ρ₂, p₂, h⟩

/-- **Simplifying in place.** -/
theorem run_tandem (hp : Facing b b' e .root used used' ρ w.store w'.store p r) (hw : w.warnings = w'.warnings) :
    (σ.run e).Tandem w (σ.run e) w'
      (fun c c' v v' => c = c' ∧ Renews b b' e .root used used' ρ w w' p v v')
      (Renews b b' e .root used used' ρ w w' p) := by
  unfold run
  refine Work.tandem_look ?_
  rw [hp.left.root?_eq, hp.right.root?_eq]
  exact σ.iterate_tandem _ 0 false hp hw

/-! ## Twins whose expressions are simplified -/

section Twins

variable {F G : Forest κ} {E : Effect}

omit [Scalar κ] [Literal κ] in
/-- An expression of twins got another tree on both sides. -/
theorem Renewed.onward (h : Twins ρ (p :: G) t s) (hE : E.changed e) (hroot : t.root? e = some r)
    (hr : Renewed b b' e .root G.refs (G.refs.map ρ) ρ t s p ρ' q t' s')
    (hlost : ∀ x ∈ p.refs, x ∉ q.refs → E.lost x) (htouched : ∀ x ∈ p.refs, E.touched x) :
    Onward E ρ (p :: G) t ρ' (q :: G) t' s' := by
  have hG := h.tail
  have hname : ∀ y ∈ G.refs, ρ' y = ρ y := fun y hy => hr.names y (hG.lt_size hy)
  have hnodes : ∀ y ∈ G.refs, t'.node? y = t.node? y := hr.left.kept.nodes
  have hb : t'.Bears (q :: G) := by
    refine ⟨fun c hc => ?_, fun c hc => ?_, hr.left.accounted.toApart⟩
    · rcases List.mem_cons.mp hc with rfl | hc
      · exact hr.left.isIn
      · exact (hG.bears.trees c hc).congr fun y hy => hnodes y (Forest.subset_refs hc hy)
    · rcases List.mem_cons.mp hc with rfl | hc
      · exact hr.spelled (h.bears.spelled p List.mem_cons_self)
      · exact hG.bears.spelled c hc
  have ha : s'.Apart ((Forest.refs (q :: G)).map ρ') := by
    rw [Forest.refs_cons, List.map_append, List.map_congr_left hname, ← Planted.refs_rename]
    exact hr.right.accounted.toApart
  have hlt := lt_size_of_root? hroot
  have hrt := hr.left.root?_eq hlt
  have hrs := hr.right.root?_eq (h.places ▸ hlt)
  have hsize := hr.left.size_roots
  refine h.next hr.idle hb (fun x hx => ?_) ha (fun x hx hx' => ?_) (fun x hx hl => ?_) (fun x hx hx' ht => ?_)
    ⟨Nat.le_of_eq hsize.symm, fun hsame => hr.right.size_roots.trans (hsame.trans hsize.symm), fun e' => ?_⟩
  · rcases List.mem_append.mp hx with hx | hx
    · exact hr.left.isIn.node?_rename hr.right.isIn hx
    · exact hG.node?_eq hname hx hnodes fun y hy => hr.right.kept.nodes _ (List.mem_map_of_mem hy)
  · refine ⟨?_, hr.names x hx'⟩
    rcases List.mem_append.mp hx with hx | hx
    · exact List.mem_append_left _ ((hr.fresh x hx).resolve_right (Nat.not_le.mpr hx'))
    · exact List.mem_append_right _ hx
  · rcases List.mem_append.mp hx with hx | hx
    · exact List.mem_append_left _ (by_contra fun hq => hl (hlost x hx hq))
    · exact List.mem_append_right _ hx
  · rcases List.mem_append.mp hx with hx | hx
    · exact absurd (htouched x ((hr.fresh x hx).resolve_right (Nat.not_le.mpr hx'))) ht
    · exact hnodes x hx
  · rw [hrt, hrs, Planted.ref?_rename]
    by_cases he : e' = e
    · rw [if_pos he, if_pos he]
      exact .inr ⟨fun _ => he ▸ hE, fun x hx => List.mem_append_left _ (Planted.mem_refs_of_ref? hx), rfl⟩
    · rw [if_neg he, if_neg he]
      exact .inl ⟨rfl, rfl⟩

omit [Scalar κ] [Literal κ] in
/-- The tree of an expression of twins hangs on both sides. -/
theorem facing_root (h : Twins ρ (p :: G) t s) (hr : p.ref? = some r) (hroot : t.root? e = some r) :
    ∃ b b', Facing b b' e .root G.refs (G.refs.map ρ) ρ t s p r := by
  have hp := h.bears.trees p List.mem_cons_self
  have hmem := Planted.mem_refs_of_ref? hr
  have hroots : s.root? e = some (ρ r) := by
    rw [h.roots e fun x hx => ?_, hroot]
    · rfl
    · obtain rfl : r = x := Option.some.inj (hroot.symm.trans hx)
      exact List.mem_append_left _ hmem
  have ha := h.apart.accounted
  rw [Forest.refs_cons, List.map_append, ← Planted.refs_rename] at ha
  refine ⟨_, _, seated_of_root? hp hr hroot, ?_, h.bears.apart.accounted, ha, h.idle⟩
  exact seated_of_root? (h.in_rename hp (List.subset_append_left _ _)) (by rw [Planted.ref?_rename, hr]; rfl) hroots

/-- **Simplifying an expression of twins.** What is left of its tree was there before or is new. -/
theorem concur_run (h : Abreast ρ F w w') (hE : E.changed e)
    (hlive : ∀ r, w.store.root? e = some r → r ∈ F.refs ∧ w.store.parent? r = none)
    (hlost : ∀ x ∈ schedule w.store e, x ∉ schedule ((σ.run e).perform w).2.store e → E.lost x)
    (htouched : ∀ x ∈ schedule w.store e, E.touched x) :
    Concur E ρ F (σ.run e) w (σ.run e) w' fun c c' _ F' t' => c = c' ∧ ∀ r, t'.root? e = some r →
      (r ∈ F'.refs ∧ t'.parent? r = none) ∧
        ∀ y ∈ t'.postOrder r, y ∈ schedule w.store e ∨ w.store.nodes.size ≤ y := by
  have htwins : Twins ρ F w.store w'.store := h.twins
  cases hroot : w.store.root? e with
  | none =>
    have hroot' : w'.store.root? e = none := by
      rw [htwins.roots e fun r hr => (hlive r hr).1, hroot]
      rfl
    unfold run
    refine Work.tandem_look ?_
    rw [hroot, hroot']
    refine h.concur_pure ⟨rfl, fun r hr => ?_⟩
    have hr : w.store.root? e = some r := hr
    rw [hroot] at hr
    cases hr
  | some r =>
    obtain ⟨hr, hparent⟩ := hlive r hroot
    obtain ⟨p, G, hperm, hp⟩ := htwins.bears.exists_root hr hparent
    have hpG := htwins.perm hperm.symm
    obtain ⟨b, b', hf⟩ := facing_root hpG hp hroot
    have hschedule := schedule_of_seated hf.left hf.accounted
    rw [hschedule] at hlost htouched ⊢
    -- wherever the run stops, the tree by then hangs at the root on both sides
    have hgo : ∀ {v v' : Workspace κ}, ((σ.run e).perform w).2 = v →
        Renews b b' e .root (Forest.refs G) ((Forest.refs G).map ρ) ρ w w' p v v' →
        WentOn E ρ F w (fun _ F' t' => ∀ r, t'.root? e = some r → (r ∈ F'.refs ∧ t'.parent? r = none) ∧
          ∀ y ∈ t'.postOrder r, y ∈ p.refs ∨ w.store.nodes.size ≤ y) v v' := by
      rintro v v' hrun ⟨hsaid, ρ', q, hq⟩
      obtain ⟨r', hf'⟩ := hq.facing hf
      have hafter := schedule_of_seated hf'.left hf'.accounted
      rw [hrun, hafter] at hlost
      refine ⟨ρ', q :: G, (hq.onward hpG hE hroot hlost htouched).of_perm hperm.symm, hsaid, fun y hy => ?_⟩
      obtain rfl : r' = y := Option.some.inj ((hf'.left.root?_eq).symm.trans hy)
      refine ⟨⟨List.mem_append_left _ (Planted.mem_refs_of_ref? hf'.left.ref), hf'.left.isIn.parent?_eq hf'.left.ref⟩,
        fun y hy => hq.fresh y ?_⟩
      rw [← hafter, schedule, hf'.left.root?_eq]
      exact hy
    obtain ⟨c, c', v, v', hrun, hrun', hc, hv⟩ | ⟨f, v, v', hrun, hrun', hv⟩ := (σ.run_tandem hf h.said).cases
    · obtain ⟨ρ', F', ho, hs, hp⟩ := hgo (congrArg Prod.snd hrun) hv
      exact tandem_of_ok hrun hrun' ⟨ρ', F', ho, hs, hc, hp⟩
    · obtain ⟨ρ', F', ho, hs, -⟩ := hgo (congrArg Prod.snd hrun) hv
      exact tandem_of_error hrun hrun' ⟨ρ', F', ho, hs, trivial⟩

/-- Simplifying an expression that was made before leaves it one that was. -/
theorem concur_runOpened {n m : Nat} {e' : Expression} (h : Abreast ρ F w w') (hn : n ≤ w.store.nodes.size)
    (ho : Opened n m e e' F w.store) :
    Concur (.beyond n m) ρ F (σ.run e) w (σ.run e') w' fun _ _ _ F' t' => Opened n m e e' F' t' := by
  have hfresh : ∀ x ∈ schedule w.store e, n ≤ x := by
    unfold schedule
    cases hr : w.store.root? e with
    | none => exact fun _ hx => nomatch hx
    | some r => exact ho.fresh r hr
  rw [ho.same]
  have hE : (Effect.beyond n m).changed e := ho.beyond
  refine ((σ.concur_run h hE ho.root (fun x hx _ => hfresh x hx) hfresh).noting).mono ?_
  rintro c c' ρ' F' t' ⟨⟨-, hroot⟩, s', hon⟩
  refine ⟨rfl, ho.beyond, Nat.lt_of_lt_of_le ho.placed hon.places, fun r hr => (hroot r hr).1, fun r hr y hy => ?_⟩
  exact ((hroot r hr).2 y hy).elim (hfresh y) (Nat.le_trans hn)

end Twins

end Simplifier

end Fluxion
