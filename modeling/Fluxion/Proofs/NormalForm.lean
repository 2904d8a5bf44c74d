import Fluxion.Proofs.Runs

/-!
# Normal forms

Every pass that changes a tree takes operations away, so there are no more of them than the tree has
operations, and one more to find that nothing is left to do. A tree that a pass leaves alone has nothing
to fold and nothing to reduce at any of its nodes, so it is left alone again.

* `Tree.Everywhere` says that something holds at every node.
* `Simplifier.IsNormal` says that there is nothing to do, and `Simplifier.isNormal_of_pass_eq` that this
  is so where a pass changes nothing.
* `Simplifier.operations_normalizeIn` bounds the passes that change something.
* `Simplifier.run_reaches_normal_form` is the whole simplification in place.
-/

namespace Fluxion

open Act

/-! ## Nodes of a tree -/

namespace Tree

variable {κ : Type} {t : Tree κ}

/-- Something holds at every node, that is, of the subtree it is the root of. -/
def Everywhere (P : Tree κ → Prop) : Tree κ → Prop
  | absent => True
  | literal v => P (literal v)
  | var n => P (var n)
  | binary op l r => l.Everywhere P ∧ r.Everywhere P ∧ P (binary op l r)
  | unary op x => x.Everywhere P ∧ P (unary op x)

theorem Everywhere.mono {P Q : Tree κ → Prop} (h : t.Everywhere P) (hpq : ∀ u, P u → Q u) :
    t.Everywhere Q := by
  induction t with
  | absent => trivial
  | literal v | var n => exact hpq _ h
  | binary op l r ihl ihr => exact ⟨ihl h.1, ihr h.2.1, hpq _ h.2.2⟩
  | unary op x ih => exact ⟨ih h.1, hpq _ h.2⟩

theorem size_pos_of_isWellFormed (h : t.isWellFormed = true) : 0 < t.size :=
  size_pos_of_not_absent (isAbsent_of_isWellFormed h)

/-- An operation of a well-formed tree has operands. -/
theorem one_lt_size (h : t.isWellFormed = true) (ho : 0 < t.operations) : 1 < t.size := by
  cases t with
  | binary op l r =>
    simp only [isWellFormed, Bool.and_eq_true] at h
    have hl := size_pos_of_isWellFormed h.1.2
    simp only [size]
    omega
  | unary op x =>
    simp only [isWellFormed, Bool.and_eq_true] at h
    have hx := size_pos_of_isWellFormed h.2
    simp only [size]
    omega
  | _ => cases ho

end Tree

/-- An expression with a well-formed tree is there. -/
theorem lt_size_of_isWellFormed {κ : Type} {s : Store κ} {e : Expression}
    (h : (s.expressionTree e).isWellFormed = true) : e.place < s.roots.size := by
  cases hr : s.root? e with
  | some r => exact Store.lt_size_of_root? hr
  | none =>
    rw [Store.expressionTree, hr, Store.tree] at h
    cases hn : s.nodes.size <;> rw [hn] at h <;> cases h

namespace Simplifier

/-! ## Functions from the leaves up -/

section BottomUp

variable {κ : Type} {here : Tree κ → Tree κ} {t : Tree κ}

/-- A function that keeps a node or takes operations away either keeps all nodes of a tree, or takes
operations away from the tree. -/
theorem everywhere_or_operations_lt (hhere : ∀ f t, ∃ f', Flagged f t (here t) f') (t : Tree κ) :
    (t.bottomUp here = t ∧ t.Everywhere fun u => here u = u) ∨
      (t.bottomUp here).operations < t.operations := by
  have hcases (t : Tree κ) : here t = t ∨ (here t).operations < t.operations := by
    obtain ⟨f, hf⟩ := hhere false t
    exact hf.imp And.right And.right
  have hle (t : Tree κ) : (here t).operations ≤ t.operations :=
    (hcases t).elim (fun h => Nat.le_of_eq (congrArg Tree.operations h)) Nat.le_of_lt
  induction t with
  | absent => exact .inl ⟨rfl, trivial⟩
  | literal v => exact (hcases (.literal v)).imp (fun h => ⟨h, h⟩) id
  | var n => exact (hcases (.var n)).imp (fun h => ⟨h, h⟩) id
  | binary op l r ihl ihr =>
    rw [Tree.bottomUp]
    have hnode := hle (.binary op (l.bottomUp here) (r.bottomUp here))
    rcases ihl with ⟨hl, hl'⟩ | hl
    · rcases ihr with ⟨hr, hr'⟩ | hr
      · rw [hl, hr]
        exact (hcases (.binary op l r)).imp (fun h => ⟨h, hl', hr', h⟩) id
      · rw [hl] at hnode ⊢
        exact .inr (Nat.lt_of_le_of_lt hnode (by simp only [Tree.operations]; omega))
    · have hr : (r.bottomUp here).operations ≤ r.operations :=
        ihr.elim (fun h => Nat.le_of_eq (congrArg Tree.operations h.1)) Nat.le_of_lt
      exact .inr (Nat.lt_of_le_of_lt hnode (by simp only [Tree.operations]; omega))
  | unary op x ih =>
    rw [Tree.bottomUp]
    rcases ih with ⟨hx, hx'⟩ | hx
    · rw [hx]
      exact (hcases (.unary op x)).imp (fun h => ⟨h, hx', h⟩) id
    · have hnode := hle (.unary op (x.bottomUp here))
      exact .inr (Nat.lt_of_le_of_lt hnode (by simp only [Tree.operations]; omega))

/-- A function shrinks trees if it keeps a well-formed tree or makes a smaller one of it, which is
well-formed again. -/
def Shrinks (here : Tree κ → Tree κ) : Prop :=
  ∀ t : Tree κ, t.isWellFormed = true →
    (here t).isWellFormed = true ∧ (here t = t ∨ (here t).size < t.size)

theorem Shrinks.size_le (h : Shrinks here) (ht : t.isWellFormed = true) : (here t).size ≤ t.size :=
  (h t ht).2.elim (fun h => Nat.le_of_eq (congrArg Tree.size h)) Nat.le_of_lt

theorem Shrinks.comp {there : Tree κ → Tree κ} (h : Shrinks here) (h' : Shrinks there) :
    Shrinks fun t => there (here t) := by
  intro t ht
  obtain ⟨hw, hs⟩ := h t ht
  obtain ⟨hw', hs'⟩ := h' (here t) hw
  refine ⟨hw', ?_⟩
  rcases hs with hs | hs
  · simpa only [hs] using hs'
  · exact .inr (Nat.lt_of_le_of_lt (h'.size_le hw) hs)

theorem Shrinks.bottomUp (h : Shrinks here) : Shrinks (Tree.bottomUp here) := by
  intro t ht
  induction t with
  | absent => cases ht
  | literal v => exact h _ ht
  | var n => exact h _ ht
  | binary op l r ihl ihr =>
    simp only [Tree.isWellFormed, Bool.and_eq_true] at ht
    obtain ⟨hwl, hl⟩ := ihl ht.1.2
    obtain ⟨hwr, hr⟩ := ihr ht.2
    have hw : (Tree.binary op (l.bottomUp here) (r.bottomUp here)).isWellFormed = true := by
      simp only [Tree.isWellFormed, Bool.and_eq_true]
      exact ⟨⟨ht.1.1, hwl⟩, hwr⟩
    simp only [Tree.bottomUp]
    refine ⟨(h _ hw).1, ?_⟩
    have hnode := h.size_le hw
    rcases hl with hl | hl
    · rcases hr with hr | hr
      · rw [hl, hr] at hw ⊢
        exact (h _ hw).2
      · rw [hl] at hnode ⊢
        exact .inr (Nat.lt_of_le_of_lt hnode (by simp only [Tree.size]; omega))
    · have hr : (r.bottomUp here).size ≤ r.size :=
        hr.elim (fun h => Nat.le_of_eq (congrArg Tree.size h)) Nat.le_of_lt
      exact .inr (Nat.lt_of_le_of_lt hnode (by simp only [Tree.size]; omega))
  | unary op x ih =>
    simp only [Tree.isWellFormed, Bool.and_eq_true] at ht
    obtain ⟨hwx, hx⟩ := ih ht.2
    have hw : (Tree.unary op (x.bottomUp here)).isWellFormed = true := by
      simp only [Tree.isWellFormed, Bool.and_eq_true]
      exact ⟨ht.1, hwx⟩
    simp only [Tree.bottomUp]
    refine ⟨(h _ hw).1, ?_⟩
    rcases hx with hx | hx
    · rw [hx] at hw ⊢
      exact (h _ hw).2
    · exact .inr (Nat.lt_of_le_of_lt (h.size_le hw) (by simp only [Tree.size]; omega))

end BottomUp

/-! ## What the passes leave -/

variable {κ : Type} [Scalar κ] (σ : Simplifier κ) {t : Tree κ}

/-- There is nothing to fold: no operation that does not depend on the variable has a finite value under
the bindings. -/
def IsFolded (t : Tree κ) : Prop :=
  t.Everywhere fun u => 0 < u.operations → u.mentions σ.argument = false →
    ∀ v, u.value .guarded σ.bindings = .ok v → Scalar.isFinite v = false

/-- There is nothing to reduce: no identity applies. -/
def IsReduced (t : Tree κ) : Prop := t.Everywhere fun u => σ.rule? u = none

/-- There is nothing to do. -/
structure IsNormal (t : Tree κ) : Prop where
  folded : σ.IsFolded t
  reduced : σ.IsReduced t

/-- What a fold leaves alone has no value to be folded into. -/
theorem not_finite_of_foldHere_eq {v : κ} (h : σ.foldHere t = t) (ho : 0 < t.operations)
    (hm : t.mentions σ.argument = false) (hv : t.value .guarded σ.bindings = .ok v) :
    Scalar.isFinite v = false := by
  have hfoldable : σ.isFoldable t = true := by
    cases t with
    | binary op l r | unary op x => simp only [isFoldable, hm, Bool.not_false]
    | _ => cases ho
  rw [Bool.eq_false_iff]
  intro hfinite
  have hfolded : σ.folded? t = .ok (some v) := by
    rw [folded?_eq, if_pos hfoldable, hv]
    simp only [hfinite, if_true]
  rw [foldHere, hfolded] at h
  rw [← h] at ho
  cases ho

/-- What the identities leave alone has none that applies. -/
theorem rule?_eq_none_of_reduceHere_eq (h : σ.reduceHere t = t) : σ.rule? t = none := by
  obtain ⟨f, hf⟩ := σ.exists_flagged_reduceHere false t
  cases hr : σ.rule? t with
  | none => rfl
  | some o =>
    obtain ⟨op, l, r, rfl, ho⟩ := σ.rule?_cases hr
    have hops := congrArg Tree.operations (ho.symm.trans h)
    cases o <;> simp only [Outcome.result, Tree.operations] at hops <;> omega

/-- **A pass that changes nothing** had nothing to do. -/
theorem isNormal_of_pass_eq (h : σ.pass t = t) : σ.IsNormal t := by
  have hle (t : Tree κ) : (σ.reduce t).operations ≤ t.operations := by
    rw [σ.reduce_eq]
    rcases everywhere_or_operations_lt σ.exists_flagged_reduceHere t with ⟨ht, -⟩ | ht
    · exact Nat.le_of_eq (congrArg Tree.operations ht)
    · exact Nat.le_of_lt ht
  have hfold : σ.fold t = t ∧ t.Everywhere fun u => σ.foldHere u = u := by
    rw [σ.fold_eq]
    refine (everywhere_or_operations_lt σ.exists_flagged_foldHere t).resolve_right fun hlt => ?_
    rw [← σ.fold_eq] at hlt
    have hpass := hle (σ.fold t)
    rw [← pass, h] at hpass
    omega
  have hreduce : t.Everywhere fun u => σ.reduceHere u = u := by
    rcases everywhere_or_operations_lt σ.exists_flagged_reduceHere t with ⟨-, ht⟩ | hlt
    · exact ht
    · rw [← σ.reduce_eq] at hlt
      rw [pass, hfold.1] at h
      rw [h] at hlt
      exact absurd hlt (Nat.lt_irrefl _)
  exact ⟨hfold.2.mono fun u hu ho hm v hv => σ.not_finite_of_foldHere_eq hu ho hm hv,
    hreduce.mono fun u hu => σ.rule?_eq_none_of_reduceHere_eq hu⟩

/-! ## Sizes -/

theorem shrinks_foldHere : Shrinks σ.foldHere := by
  intro t ht
  refine ⟨σ.isWellFormed_foldHere ht, ?_⟩
  unfold foldHere
  split
  · exact .inr (Tree.one_lt_size ht (σ.operations_pos_of_folded? ‹_›))
  · exact .inl rfl

theorem shrinks_reduceHere : Shrinks σ.reduceHere := by
  intro t ht
  refine ⟨σ.isWellFormed_reduceHere ht, ?_⟩
  cases hr : σ.rule? t with
  | none =>
    left
    unfold reduceHere
    rw [hr]
  | some o =>
    obtain ⟨op, l, r, rfl, ho⟩ := σ.rule?_cases hr
    have hsize := Tree.one_lt_size ht (Nat.succ_pos _)
    right
    rw [ho]
    cases o <;> simp only [Outcome.result, Tree.size] at hsize ⊢ <;> omega

theorem shrinks_pass : Shrinks σ.pass := by
  have hfold : Shrinks σ.fold := by
    rw [funext σ.fold_eq]
    exact σ.shrinks_foldHere.bottomUp
  have hreduce : Shrinks σ.reduce := by
    rw [funext σ.reduce_eq]
    exact σ.shrinks_reduceHere.bottomUp
  exact hfold.comp hreduce

theorem shrinks_normalizeIn (rounds : Nat) : Shrinks (σ.normalizeIn rounds) := by
  induction rounds with
  | zero => exact fun t ht => ⟨ht, .inl rfl⟩
  | succ rounds ih =>
    intro t ht
    rw [normalizeIn]
    split
    · exact ⟨ht, .inl rfl⟩
    · exact (σ.shrinks_pass.comp ih) t ht

/-! ## Counting passes -/

/-- **Passes that change something** take operations away, each at least one. -/
theorem operations_normalizeIn (rounds : Nat) (t : Tree κ) :
    (σ.normalizeIn rounds t).operations + σ.changes rounds t ≤ t.operations := by
  induction rounds generalizing t with
  | zero => exact Nat.le_refl _
  | succ rounds ih =>
    rw [normalizeIn, changes]
    split
    · exact Nat.le_refl _
    · have hlt : (σ.pass t).operations < t.operations := by
        obtain ⟨f, f', hfold, hreduce⟩ := σ.exists_flagged_pass t
        rcases hfold.trans hreduce with ⟨-, hsame⟩ | ⟨-, hlt⟩
        · exact absurd (congrArg Tree.operations hsame) ‹_›
        · exact hlt
      have := ih (σ.pass t)
      omega

theorem normalizeIn_eq_of_changes {rounds : Nat} (h : σ.changes rounds t = 0) :
    σ.normalizeIn rounds t = t := by
  cases rounds with
  | zero => rfl
  | succ rounds =>
    rw [changes] at h
    split at h
    · rw [normalizeIn, if_pos ‹_›]
    · cases h

theorem changes_le (rounds : Nat) (t : Tree κ) : σ.changes rounds t ≤ rounds := by
  induction rounds generalizing t with
  | zero => exact Nat.le_refl _
  | succ rounds ih =>
    rw [changes]
    split
    · exact Nat.zero_le _
    · exact Nat.succ_le_succ (ih _)

/-- If not all passes changed something, another one changes nothing. -/
theorem pass_normalizeIn {rounds : Nat} (h : σ.changes rounds t < rounds) :
    σ.pass (σ.normalizeIn rounds t) = σ.normalizeIn rounds t := by
  induction rounds generalizing t with
  | zero => cases h
  | succ rounds ih =>
    rw [changes] at h
    rw [normalizeIn]
    split at h
    · rw [if_pos ‹_›]
      exact σ.pass_eq_of_operations_eq ‹_›
    · rw [if_neg ‹_›]
      exact ih (Nat.lt_of_succ_lt_succ h)

theorem changes_eq_zero (h : σ.pass t = t) (rounds : Nat) : σ.changes rounds t = 0 := by
  cases rounds with
  | zero => rfl
  | succ rounds => rw [changes, h, if_pos rfl]

/-! ## Simplifying in place -/

variable [Literal κ] {w w' : Workspace κ} {e : Expression} {left : Nat} {result : Simplification}

omit [Literal κ] in
/-- A change is reported if the tree changed. -/
theorem Reported.changed_iff (h : σ.Reported left 0 false t w result w') :
    result.changed = true ↔ σ.normalizeIn left t ≠ t := by
  rw [h.changed, Bool.false_or, decide_eq_true_iff]
  refine ⟨fun hpos hsame => ?_, fun hdiffer => Nat.pos_of_ne_zero fun hzero => ?_⟩
  · have hcount := σ.operations_normalizeIn left t
    rw [hsame] at hcount
    omega
  · exact hdiffer (σ.normalizeIn_eq_of_changes hzero)

omit [Literal κ] in
/-- There is no warning if some pass changed nothing. -/
theorem Reported.quiet_iff (h : σ.Reported left 0 false t w result w') :
    w'.warnings = w.warnings ↔ σ.changes left t < left := by
  rw [h.warnings]
  by_cases hused : σ.changes left t = left
  · rw [if_pos hused, hused]
    refine iff_of_false (fun hquiet => ?_) (Nat.lt_irrefl _)
    exact absurd (congrArg List.length hquiet) (by simp)
  · rw [if_neg hused]
    exact iff_of_true rfl (Nat.lt_of_le_of_ne (σ.changes_le left t) hused)

omit [Literal κ] in
/-- What is reported of a tree that a pass leaves alone. -/
theorem Reported.eq_of_pass_eq (h : σ.Reported left 0 false t w result w') (hpass : σ.pass t = t)
    (hleft : 0 < left) : result = ⟨false, 1⟩ ∧ w'.warnings = w.warnings := by
  have hnone := σ.changes_eq_zero hpass left
  refine ⟨?_, (Reported.quiet_iff σ h).mpr (hnone ▸ hleft)⟩
  obtain ⟨hchanged, hiterations, -⟩ := h
  rw [hnone] at hchanged hiterations
  rcases result with ⟨changed, iterations⟩
  obtain rfl : changed = false := hchanged
  obtain rfl : iterations = 1 := by
    simp only at hiterations
    omega
  rfl

/-- **Simplifying in place reaches a normal form.** On an expression with a well-formed tree there are at
most as many iterations as the tree has operations, and one more, so a limit above the number of
operations is not noticed. A change is reported exactly if the tree changed, which then has fewer nodes.
If there was no warning, the tree is a normal form, and simplifying again leaves it as it is in one
iteration. -/
theorem run_reaches_normal_form (h : w.store.StrictlyOwned)
    (hwf : (w.store.expressionTree e).isWellFormed = true) :
    (σ.run e).Succeeds w fun result w' =>
      result.iterations ≤ (w.store.expressionTree e).operations + 1 ∧
      (((w.store.expressionTree e).operations : Int) < σ.maxIterations → w'.warnings = w.warnings) ∧
      (result.changed = true ↔ w'.store.expressionTree e ≠ w.store.expressionTree e) ∧
      (result.changed = true → (w'.store.expressionTree e).size < (w.store.expressionTree e).size) ∧
      (w'.warnings = w.warnings → σ.IsNormal (w'.store.expressionTree e) ∧
        (σ.run e).Succeeds w' fun again w'' => again = ⟨false, 1⟩ ∧ w''.warnings = w'.warnings ∧
          w''.store.expressionTree e = w'.store.expressionTree e) := by
  obtain ⟨b, own, hown⟩ := h.holds
  obtain ⟨p, hp⟩ := hown.exists_mem (lt_size_of_isWellFormed hwf)
  obtain ⟨rest, hperm⟩ := Store.perm_of_mem hp
  rw [hown.expressionTree_eq hp] at hwf ⊢
  refine (σ.run_reported (hown.perm hperm.symm) hwf).mono ?_
  rintro result w' ⟨q, hq, hwf', h', hr⟩
  rw [h'.expressionTree_eq List.mem_cons_self, hq, normalize]
  have hcount := σ.operations_normalizeIn σ.maxIterations.toNat p.tree
  have hsize := (σ.shrinks_normalizeIn σ.maxIterations.toNat p.tree hwf).2
  refine ⟨?_, fun hlimit => ?_, Reported.changed_iff σ hr, fun hc => ?_, fun hquiet => ?_⟩
  · rw [hr.iterations]
    omega
  · refine (Reported.quiet_iff σ hr).mpr ?_
    omega
  · exact hsize.resolve_left ((Reported.changed_iff σ hr).mp hc)
  · have hunused := (Reported.quiet_iff σ hr).mp hquiet
    have hpass := σ.pass_normalizeIn hunused
    refine ⟨σ.isNormal_of_pass_eq hpass, ?_⟩
    rw [← normalize, ← hq] at hpass ⊢
    refine (σ.run_reported h' hwf').mono ?_
    rintro again w'' ⟨q', hq', -, h'', hr'⟩
    obtain ⟨hagain, hquiet'⟩ := Reported.eq_of_pass_eq σ hr' hpass (Nat.zero_lt_of_lt hunused)
    refine ⟨hagain, hquiet', ?_⟩
    rw [h''.expressionTree_eq List.mem_cons_self, hq', normalize,
      σ.normalizeIn_eq_of_changes (σ.changes_eq_zero hpass _)]

/-- The derivative `1+1` of `x+x` has one operation, so two iterations are enough. -/
theorem run_reaches_normal_form_ones :
    Run.sumDifferentiated.store.StrictlyOwned ∧
      (Run.sumDifferentiated.store.expressionTree ⟨1⟩).isWellFormed = true ∧
      ((standard (some "x") .empty 2).run ⟨1⟩).Succeeds Run.sumDifferentiated fun result w' =>
        result.iterations ≤ 2 ∧ w'.warnings = Run.sumDifferentiated.warnings ∧
          (standard (some "x") .empty 2).IsNormal (w'.store.expressionTree ⟨1⟩) := by
  have howned : Run.sumDifferentiated.store.StrictlyOwned :=
    Run.run_sumDifferentiated.strictlyOwned (Store.stocked_strictlyOwned 4 2)
  have hwf : (Run.sumDifferentiated.store.expressionTree ⟨1⟩).isWellFormed = true := by decide +kernel
  have hops : (Run.sumDifferentiated.store.expressionTree ⟨1⟩).operations = 1 := by decide +kernel
  refine ⟨howned, hwf, (run_reaches_normal_form (standard (some "x") .empty 2) howned hwf).mono ?_⟩
  rintro result w' ⟨hiterations, hquiet, -, -, hnormal⟩
  rw [hops] at hiterations hquiet
  exact ⟨hiterations, hquiet (by decide), (hnormal (hquiet (by decide))).1⟩

end Simplifier

end Fluxion
