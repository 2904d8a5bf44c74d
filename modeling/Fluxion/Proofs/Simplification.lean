import Fluxion.Proofs.Passes
import Fluxion.Proofs.StackLoops

/-!
# Simplifying in place is simplifying the plain tree

The visits of both passes of the simplifier do to the tree in its seat what the rules do to a plain
tree: a fold and an identity that makes a constant put a new literal into the seat, an identity that
keeps an operand moves the operand there. So the passes, and with them the iterations, do to the tree
of an expression what they do to the plain tree, and nothing to anything else.

* `Simplifier.foldAt_realises` and `Simplifier.reduceAt_realises` are the visits.
* `Simplifier.run_spec` is the whole simplification.
-/

namespace Fluxion

open Act

/-- What an identity makes of an operation on two operands. -/
def Outcome.result {κ : Type} (l r : Tree κ) : Outcome κ → Tree κ
  | literal v => .literal v
  | left => l
  | right => r

namespace Simplifier

open Store

variable {κ : Type} {e : Expression} {seat : Seat} {used : List Ref} {b : Int} {w : Workspace κ}
  {p : Planted κ} {r : Ref}

/-- The tree in a seat reads back. -/
theorem tree_of_seated (hp : Seated e seat used w.store p r)
    (h : w.store.Accounted b (p.refs ++ used)) : w.store.tree (some r) = p.tree := by
  rw [← hp.ref]
  exact (hp.isIn.stands h.toApart).tree_eq h.toApart

/-- Putting a new literal into a seat. -/
theorem replaceByTaken_spec {s : Store κ} (v : κ) (hp : Seated e seat used s p r)
    (h : s.Accounted b (p.refs ++ used)) :
    (do
      let c ← newLiteral .pool v
      replaceSubtree e r (some c) : Act (Store κ) Unit).Succeeds s fun _ t =>
        Replaced b e seat used s (.literal (s.take (.literal v)).1 v) t := by
  have hnew : (newLiteral .pool v).Succeeds s fun c t =>
      c = (s.take (.literal v)).1 ∧ Made b (p.refs ++ used) s (.literal c v) t :=
    (newLiteral_spec h v).and (ensures_of_ok rfl rfl) |>.mono fun _ _ hm => ⟨hm.2, hm.1.1⟩
  refine hnew.bind ?_
  rintro _ t ⟨rfl, hm⟩
  have ha : t.Accounted b (p.refs ++
      ((Planted.literal (s.take (.literal v)).1 v).refs ++ used)) :=
    hm.accounted.perm (List.perm_iff_count.mpr fun a => by
      simp only [List.count_append]
      omega)
  refine (replaceSubtree_spec (hp.kept hm.kept) hm.stands ha).mono fun _ u hu => ?_
  exact hu.after (hm.kept.subset (List.subset_append_right _ _))

theorem replaceByLiteral_spec (v : κ) (hp : Seated e seat used w.store p r)
    (h : w.store.Accounted b (p.refs ++ used)) :
    (Work.onStore do
      let c ← newLiteral .pool v
      replaceSubtree e r (some c)).Succeeds w fun _ w' =>
        ∃ q : Planted κ, q.tree = .literal v ∧ Replaced b e seat used w.store q w'.store :=
  (Work.succeeds_onStore (replaceByTaken_spec v hp h)).mono fun _ _ hr => ⟨_, rfl, hr⟩

variable [Scalar κ] (σ : Simplifier κ)

/-! ## What the rules make -/

/-- What an operation folds into is its value, if it is finite. -/
theorem folded?_eq (t : Tree κ) :
    σ.folded? t =
      if σ.isFoldable t then
        match t.value .guarded σ.bindings with
        | .error f => .error f
        | .ok v => .ok (if Scalar.isFinite v then some v else none)
      else .ok none := by
  have hvalue : t.isAbsent = false → t.evaluate σ.bindings = t.value .guarded σ.bindings :=
    Tree.evaluate_eq_value _
  unfold folded?
  cases t with
  | binary op l r => exact hvalue rfl ▸ rfl
  | unary op x => exact hvalue rfl ▸ rfl
  | _ => rfl

/-- Only an operation folds. -/
theorem operations_pos_of_folded? {t : Tree κ} {v : κ} (h : σ.folded? t = .ok (some v)) :
    0 < t.operations := by
  cases t with
  | binary op l r => exact Nat.succ_pos _
  | unary op x => exact Nat.succ_pos _
  | _ => simp [folded?, isFoldable] at h

theorem isWellFormed_foldHere {t : Tree κ} (h : t.isWellFormed = true) :
    (σ.foldHere t).isWellFormed = true := by
  unfold foldHere
  split
  · rfl
  · exact h

/-- Identities are for operations of two operands. -/
theorem rule?_cases {t : Tree κ} {o : Outcome κ} (h : σ.rule? t = some o) :
    ∃ op l r, t = .binary op l r ∧ σ.reduceHere t = o.result l r := by
  cases t with
  | binary op l r =>
    refine ⟨op, l, r, rfl, ?_⟩
    unfold reduceHere
    rw [h]
    cases o <;> rfl
  | _ => cases h

/-- A fold takes operations away or changes nothing. -/
theorem exists_flagged_foldHere (f : Bool) (t : Tree κ) : ∃ f', Flagged f t (σ.foldHere t) f' := by
  unfold foldHere
  split
  · exact ⟨true, .inr ⟨rfl, σ.operations_pos_of_folded? ‹_›⟩⟩
  · exact ⟨f, .inl ⟨rfl, rfl⟩⟩

/-- An identity takes operations away. -/
theorem exists_flagged_reduceHere (f : Bool) (t : Tree κ) : ∃ f', Flagged f t (σ.reduceHere t) f' := by
  cases hr : σ.rule? t with
  | none =>
    refine ⟨f, .inl ⟨rfl, ?_⟩⟩
    unfold reduceHere
    rw [hr]
  | some o =>
    obtain ⟨op, l, r, rfl, ho⟩ := σ.rule?_cases hr
    refine ⟨true, .inr ⟨rfl, ?_⟩⟩
    rw [ho]
    cases o <;> simp only [Outcome.result, Tree.operations] <;> omega

/-- A folding pass, and then a pass of identities. -/
theorem exists_flagged_pass (t : Tree κ) :
    ∃ f f', Flagged false t (σ.fold t) f ∧ Flagged f (σ.fold t) (σ.pass t) f' := by
  obtain ⟨f, hfold⟩ := exists_flagged_bottomUp σ.exists_flagged_foldHere t false
  obtain ⟨f', hreduce⟩ := exists_flagged_bottomUp σ.exists_flagged_reduceHere (σ.fold t) f
  rw [← σ.fold_eq] at hfold
  rw [← σ.reduce_eq] at hreduce
  exact ⟨f, f', hfold, hreduce⟩

/-- A pass that takes no operation away changes nothing. -/
theorem pass_eq_of_operations_eq {t : Tree κ} (h : (σ.pass t).operations = t.operations) :
    σ.pass t = t := by
  obtain ⟨f, f', hfold, hreduce⟩ := σ.exists_flagged_pass t
  rcases hfold.trans hreduce with ⟨-, hsame⟩ | ⟨-, hlt⟩
  · exact hsame
  · exact absurd h (Nat.ne_of_lt hlt)

/-- How many of a number of passes take operations away, until one does not. -/
def changes : Nat → Tree κ → Nat
  | 0, _ => 0
  | rounds + 1, t =>
    if (σ.pass t).operations = t.operations then 0 else changes rounds (σ.pass t) + 1

/-- What a pass makes of a tree and leaves alone itself is its normal form. -/
theorem normalizeIn_eq_of_pass {t t' : Tree κ} (h : σ.pass t = t') (h' : σ.pass t' = t')
    (rounds : Nat) : σ.normalizeIn (rounds + 1) t = t' := by
  have hkept : ∀ rounds, σ.normalizeIn rounds t' = t' := by
    intro rounds
    cases rounds with
    | zero => rfl
    | succ rounds =>
      rw [normalizeIn, h']
      exact if_pos rfl
  rw [normalizeIn, h]
  by_cases hops : t'.operations = t.operations
  · rw [if_pos hops, ← h]
    exact (σ.pass_eq_of_operations_eq (h ▸ hops)).symm
  · rw [if_neg hops]
    exact hkept rounds

theorem isWellFormed_reduceHere {t : Tree κ} (h : t.isWellFormed = true) :
    (σ.reduceHere t).isWellFormed = true := by
  cases hr : σ.rule? t with
  | none =>
    unfold reduceHere
    rw [hr]
    exact h
  | some o =>
    obtain ⟨op, l, r, rfl, ho⟩ := σ.rule?_cases hr
    simp only [Tree.isWellFormed, Bool.and_eq_true] at h
    rw [ho]
    cases o with
    | literal v => rfl
    | left => exact h.1.2
    | right => exact h.2

/-! ## Visits -/

/-- **The visit of the pass of identities.** -/
theorem reduceAt_realises (e : Expression) : Realises e (σ.reduceAt e) σ.reduceHere where
  visit b seat used w p r hp h hwf := by
    unfold reduceAt
    refine Work.ensures_look ?_
    rw [tree_of_seated hp h]
    cases hrule : σ.rule? p.tree with
    | none =>
      have hsame : σ.reduceHere p.tree = p.tree := by
        unfold reduceHere
        rw [hrule]
      exact ensures_pure ⟨p, hsame.symm, .inl ⟨rfl, rfl⟩, hp.replaced h⟩
    | some o =>
      obtain ⟨op, l, l', ht, hres⟩ := σ.rule?_cases hrule
      cases p with
      | binary x op' p q =>
        obtain ⟨rfl, rfl, rfl⟩ := Tree.binary.inj ht
        obtain rfl : x = r := Option.some.inj hp.ref
        simp only [Planted.tree, Tree.isWellFormed, Bool.and_eq_true] at hwf
        have hne {q : Planted κ} (hq : q.tree.isWellFormed = true) : q ≠ .absent := by
          rintro rfl
          cases hq
        rw [hres]
        cases o with
        | literal v =>
          refine (replaceByLiteral_spec v hp h).bind ?_
          rintro - w₁ ⟨q', hq', hr⟩
          refine ensures_pure ⟨q', hq', .inr ⟨rfl, ?_⟩, hr⟩
          rw [hq']
          exact Nat.succ_pos _
        | left =>
          refine (Work.succeeds_onStore (promote_spec (.left x op' q) hp h (hne hwf.1.2))).bind fun _ w₁ hr => ?_
          refine ensures_pure ⟨p, rfl, .inr ⟨rfl, ?_⟩, hr⟩
          simp only [Planted.tree, Tree.operations]
          omega
        | right =>
          refine (Work.succeeds_onStore (promote_spec (.right x op' p) hp h (hne hwf.2))).bind fun _ w₁ hr => ?_
          refine ensures_pure ⟨q, rfl, .inr ⟨rfl, ?_⟩, hr⟩
          simp only [Planted.tree, Tree.operations]
          omega
      | _ => cases ht
  wellFormed _ := σ.isWellFormed_reduceHere

variable {c : Nat} {own : Holdings κ}

theorem reducePass_spec (h : w.store.Holds b c ((e, p) :: own)) (hw : p.tree.isWellFormed = true) :
    (σ.reducePass e).Succeeds w fun changed w' => ∃ q : Planted κ, q.tree = σ.reduce p.tree ∧
      q.tree.isWellFormed = true ∧ Flagged false p.tree q.tree changed ∧
      w'.store.Holds b c ((e, q) :: own) := by
  rw [σ.reduce_eq]
  exact pass_spec (σ.reduceAt_realises e) h hw

variable [Literal κ]

/-- Looking for the value of a fold does not change the store. -/
theorem foldedAt_spec {t : Tree κ} (ht : w.store.tree (some r) = t) :
    (σ.foldedAt r).Succeeds w fun v w' => w'.store = w.store ∧
      (σ.folded? t = .ok v ∨ v = none ∧ ∃ f, σ.folded? t = .error f) := by
  unfold foldedAt
  refine Work.ensures_look ?_
  rw [ht]
  cases hf : σ.folded? t with
  | ok v => exact ensures_pure ⟨rfl, .inl rfl⟩
  | error f =>
    refine (Work.succeeds_noteEvaluation f w).bind fun _ w₁ h₁ => ?_
    refine (Work.succeeds_note _ w₁).bind fun _ w₂ h₂ => ?_
    exact ensures_pure ⟨h₂.trans h₁, .inr ⟨rfl, f, rfl⟩⟩

/-- **The visit of the folding pass.** -/
theorem foldAt_realises (e : Expression) : Realises e (σ.foldAt e) σ.foldHere where
  visit b seat used w p r hp h _ := by
    unfold foldAt
    refine (σ.foldedAt_spec (tree_of_seated hp h)).bind ?_
    rintro v w₁ ⟨hw, hv⟩
    have hp₁ : Seated e seat used w₁.store p r := hw ▸ hp
    have h₁ : w₁.store.Accounted b (p.refs ++ used) := hw ▸ h
    rw [← hw]
    cases v with
    | none =>
      have hsame : σ.foldHere p.tree = p.tree := by
        unfold foldHere
        rcases hv with hv | ⟨-, f, hv⟩ <;> rw [hv]
      exact ensures_pure ⟨p, hsame.symm, .inl ⟨rfl, rfl⟩, hp₁.replaced h₁⟩
    | some v =>
      have hv : σ.folded? p.tree = .ok (some v) := by
        rcases hv with hv | ⟨hv, -⟩
        · exact hv
        · cases hv
      refine (replaceByLiteral_spec v hp₁ h₁).bind ?_
      rintro - w₂ ⟨q, hq, hr⟩
      refine ensures_pure ⟨q, ?_, .inr ⟨rfl, ?_⟩, hr⟩
      · rw [hq, foldHere, hv]
      · rw [hq]
        exact σ.operations_pos_of_folded? hv
  wellFormed _ := σ.isWellFormed_foldHere

/-! ## Passes and iterations -/

theorem foldPass_spec (h : w.store.Holds b c ((e, p) :: own)) (hw : p.tree.isWellFormed = true) :
    (σ.foldPass e).Succeeds w fun changed w' => ∃ q : Planted κ, q.tree = σ.fold p.tree ∧
      q.tree.isWellFormed = true ∧ Flagged false p.tree q.tree changed ∧
      w'.store.Holds b c ((e, q) :: own) := by
  rw [σ.fold_eq]
  exact pass_spec (σ.foldAt_realises e) h hw

theorem quiet_foldedAt (r : Ref) : Work.Quiet (σ.foldedAt r) := by
  refine (Work.quiet_look _).bind fun t => ?_
  cases σ.folded? t with
  | ok v => exact Work.quiet_pure v
  | error f =>
    refine Work.Quiet.bind ?_ fun _ => (Work.quiet_note _).bind fun _ => Work.quiet_pure none
    unfold Work.noteEvaluation
    split
    · exact Work.quiet_note _
    · exact Work.quiet_pure _

omit [Scalar κ] [Literal κ] in
theorem quiet_visit {act : Ref → Work κ Bool} (h : ∀ r, Work.Quiet (act r)) (rs : List Ref) :
    Work.Quiet (visit act rs) :=
  Work.quiet_foldlM (fun _ r => (h r).bind fun _ => Work.quiet_pure _) rs false

theorem quiet_foldPass (e : Expression) : Work.Quiet (σ.foldPass e) := by
  refine (Work.quiet_look _).bind fun rs => quiet_visit (fun r => ?_) rs
  refine (σ.quiet_foldedAt r).bind fun v => ?_
  cases v with
  | none => exact Work.quiet_pure false
  | some v => exact (Work.quiet_onStore _).bind fun _ => Work.quiet_pure true

omit [Literal κ] in
theorem quiet_reducePass (e : Expression) : Work.Quiet (σ.reducePass e) := by
  refine (Work.quiet_look _).bind fun rs => quiet_visit (fun r => ?_) rs
  refine (Work.quiet_look _).bind fun t => ?_
  rcases σ.rule? t with _ | ⟨v | _ | _⟩
  · exact Work.quiet_pure false
  all_goals exact (Work.quiet_onStore _).bind fun _ => Work.quiet_pure true

/-- What iterations report: whether the tree changed, and how many of them there were. When they are
used up, there is a warning. -/
structure Reported (left done : Nat) (changed : Bool) (t : Tree κ) (w : Workspace κ)
    (result : Simplification) (w' : Workspace κ) : Prop where
  changed : result.changed = (changed || decide (0 < σ.changes left t))
  iterations : result.iterations = done + min left (σ.changes left t + 1)
  warnings : w'.warnings = (if σ.changes left t = left then [σ.limitMessage] else []) ++ w.warnings

/-- The iterations, from any number of them left. -/
theorem iterate_spec (left done : Nat) (changed : Bool) (h : w.store.Holds b c ((e, p) :: own))
    (hw : p.tree.isWellFormed = true) :
    (σ.iterate e left done changed).Succeeds w fun result w' => ∃ q : Planted κ,
      q.tree = σ.normalizeIn left p.tree ∧ q.tree.isWellFormed = true ∧
      w'.store.Holds b c ((e, q) :: own) ∧ σ.Reported left done changed p.tree w result w' := by
  induction left generalizing w p done changed with
  | zero =>
    have hwarn : (Work.warn σ.limitMessage : Work κ Unit).Succeeds w fun _ w' =>
      w'.store = w.store ∧ w'.warnings = σ.limitMessage :: w.warnings := ⟨rfl, rfl⟩
    refine hwarn.bind fun _ w' hs => ?_
    exact ensures_pure ⟨p, rfl, hw, hs.1 ▸ h, by simp [changes], by simp, by simp [changes, hs.2]⟩
  | succ left ih =>
    unfold iterate
    refine ((σ.quiet_foldPass e).succeeds (σ.foldPass_spec h hw)).bind ?_
    rintro folded w₁ ⟨⟨p₁, hp₁, hw₁, hf₁, h₁⟩, hq₁⟩
    refine ((σ.quiet_reducePass e).succeeds (σ.reducePass_spec h₁ hw₁)).bind ?_
    rintro reduced w₂ ⟨⟨p₂, hp₂, hw₂, hf₂, h₂⟩, hq₂⟩
    have hnext : σ.pass p.tree = p₂.tree := by rw [pass, ← hp₁, hp₂]
    cases hflag : folded || reduced with
    | true =>
      -- some visit changed the tree, so it has fewer operations than before
      have hlt : p₂.tree.operations < p.tree.operations := by
        rcases Bool.or_eq_true _ _ |>.mp hflag with rfl | rfl
        · have ho := hf₁.operations_lt
          rcases hf₂ with ⟨-, ht⟩ | ⟨-, ho'⟩
          · exact ht ▸ ho
          · exact Nat.lt_trans ho' ho
        · have ho := hf₂.operations_lt
          rcases hf₁ with ⟨-, ht⟩ | ⟨-, ho'⟩
          · exact ht ▸ ho
          · exact Nat.lt_trans ho ho'
      have hchanges : σ.changes (left + 1) p.tree = σ.changes left p₂.tree + 1 := by
        rw [changes, hnext, if_neg (Nat.ne_of_lt hlt)]
      refine (ih (done + 1) true h₂ hw₂).ensures.mono ?_ fun _ _ => id
      rintro result w' ⟨q, hq, hwf, h', hr⟩
      refine ⟨q, ?_, hwf, h', ?_, ?_, ?_⟩
      · rw [normalizeIn, hnext, if_neg (Nat.ne_of_lt hlt), hq]
      · simp [hr.changed, hchanges]
      · rw [hr.iterations, hchanges]
        omega
      · simp [hr.warnings, hchanges, hq₁, hq₂]
    | false =>
      rw [Bool.or_eq_false_iff] at hflag
      obtain ⟨rfl, rfl⟩ := hflag
      have hsame : p₂.tree = p.tree := hf₂.eq.trans hf₁.eq
      have hchanges : σ.changes (left + 1) p.tree = 0 := by rw [changes, hnext, hsame, if_pos rfl]
      refine ensures_pure ⟨p₂, ?_, hw₂, h₂, ?_, ?_, ?_⟩
      · simp only [normalizeIn, hnext, hsame, if_true]
      · simp [hchanges]
      · simp [hchanges]
      · simp [hchanges, hq₁, hq₂]

/-- **Simplifying in place.** The expression gets the simplified tree, and no other expression
changes; the empty expression stays empty. -/
theorem run_spec (h : w.store.Holds b c ((e, p) :: own))
    (hw : p = .absent ∨ p.tree.isWellFormed = true) :
    (σ.run e).Succeeds w fun _ w' => ∃ q : Planted κ, w'.store.Holds b c ((e, q) :: own) ∧
      (q = .absent ∧ p = .absent ∨
        q.tree.isWellFormed = true ∧ q.tree = σ.normalize p.tree) := by
  unfold run
  refine Work.ensures_look ?_
  rw [h.root?_eq List.mem_cons_self]
  rcases hw with rfl | hw
  · exact ensures_pure ⟨.absent, h, .inl ⟨rfl, rfl⟩⟩
  · obtain ⟨r, hr⟩ := Planted.ref?_of_isWellFormed hw
    rw [hr]
    refine (σ.iterate_spec σ.maxIterations.toNat 0 false h hw).mono ?_
    rintro result w' ⟨q, hq, hwf, h', -⟩
    exact ⟨q, h', .inr ⟨hwf, hq⟩⟩

/-- **Simplifying a well-formed tree in place**, with what is reported. -/
theorem run_reported (h : w.store.Holds b c ((e, p) :: own)) (hw : p.tree.isWellFormed = true) :
    (σ.run e).Succeeds w fun result w' => ∃ q : Planted κ, q.tree = σ.normalize p.tree ∧
      q.tree.isWellFormed = true ∧ w'.store.Holds b c ((e, q) :: own) ∧
      σ.Reported σ.maxIterations.toNat 0 false p.tree w result w' := by
  unfold run
  refine Work.ensures_look ?_
  obtain ⟨r, hr⟩ := Planted.ref?_of_isWellFormed hw
  rw [h.root?_eq List.mem_cons_self, hr]
  exact σ.iterate_spec σ.maxIterations.toNat 0 false h hw

end Simplifier

end Fluxion
