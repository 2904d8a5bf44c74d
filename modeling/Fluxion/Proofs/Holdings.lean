import Fluxion.Proofs.Derivation

/-!
# What expressions own

Holdings list expressions with the planted trees they own. A store holds them when every expression
has the root of its tree, no tree has a parent, and no node is in two trees, twice in one, or free.
Besides the nodes of the trees `b` nodes are handed out, and besides the expressions there are `c`
others; both numbers stay the same whatever is made, given back or moved, so nothing is ever lost as
long as they do.

* `Store.Holds` says that a store holds what is listed.
* `Store.newExpression_spec`, `Store.releaseExpression_spec` and `Store.copyExpression_spec` say what
  the operations on expressions do to holdings.
-/

namespace Fluxion

open Act

/-- Expressions with the trees they own. -/
abbrev Holdings (κ : Type) := List (Expression × Planted κ)

/-- The references of all trees. -/
def Holdings.refs {κ : Type} (own : Holdings κ) : List Ref := own.flatMap fun x => x.2.refs

namespace Store

variable {κ : Type}

section Roots

variable {s : Store κ} {e : Expression} {r : Ref}

theorem root?_eq_some : s.root? e = some r ↔ s.roots[e.place]? = some (some r) := by
  rw [root?, Option.join_eq_some_iff]

theorem lt_size_of_root? (h : s.root? e = some r) : e.place < s.roots.size :=
  (Array.getElem?_eq_some_iff.mp (root?_eq_some.mp h)).1

theorem root?_writeRoot (s : Store κ) (e e' : Expression) (x : Option Ref) :
    (s.writeRoot e x).root? e' = if e' = e ∧ e.place < s.roots.size then x else s.root? e' := by
  unfold writeRoot root?
  rw [Array.getElem?_setIfInBounds]
  by_cases he : e' = e
  · subst he
    by_cases hlt : e'.place < s.roots.size <;> simp [hlt]
  · have hne : e.place ≠ e'.place := fun h => he (by cases e; cases e'; simp_all)
    simp [he, hne]

end Roots

/-- Every expression listed owns its tree, `b` nodes are handed out besides and there are `c` other
expressions. -/
structure Holds (s : Store κ) (b : Int) (c : Nat) (own : Holdings κ) : Prop where
  distinct : (own.map (·.1)).Nodup
  roots : ∀ x ∈ own, s.roots[x.1.place]? = some x.2.ref?
  trees : ∀ x ∈ own, x.2.In s none
  accounted : s.Accounted b own.refs
  size : s.roots.size = c + own.length

variable {s t u : Store κ} {b b' : Int} {c : Nat} {own own' : Holdings κ} {e : Expression}
  {p q : Planted κ}

@[simp] theorem refs_cons (e : Expression) (p : Planted κ) (own : Holdings κ) :
    Holdings.refs ((e, p) :: own) = p.refs ++ own.refs := rfl

theorem Holds.perm (h : s.Holds b c own) (hp : own'.Perm own) : s.Holds b c own' where
  distinct := (hp.map _).nodup_iff.mpr h.distinct
  roots x hx := h.roots x (hp.mem_iff.mp hx)
  trees x hx := h.trees x (hp.mem_iff.mp hx)
  accounted := h.accounted.perm (hp.flatMap_right _)
  size := hp.length_eq ▸ h.size

theorem subset_refs (h : (e, p) ∈ own) : p.refs ⊆ own.refs :=
  fun _ hx => List.mem_flatMap_of_mem h hx

/-- The tree of an expression stands among the nodes in use. -/
theorem Holds.stands (h : s.Holds b c own) (he : (e, p) ∈ own) : p.Stands s own.refs none := by
  refine ⟨h.trees _ he, subset_refs he, ?_⟩
  exact (List.nodup_flatMap.mp h.accounted.nodup_used).1 _ he

theorem Holds.root?_eq (h : s.Holds b c own) (he : (e, p) ∈ own) : s.root? e = p.ref? := by
  unfold root?
  rw [h.roots _ he]
  rfl

theorem Holds.lt_size (h : s.Holds b c own) (he : (e, p) ∈ own) : e.place < s.roots.size :=
  (Array.getElem?_eq_some_iff.mp (h.roots _ he)).1

/-- **An expression has the tree it is listed with.** -/
theorem Holds.expressionTree_eq (h : s.Holds b c own) (he : (e, p) ∈ own) :
    s.expressionTree e = p.tree := by
  unfold expressionTree
  rw [h.root?_eq he]
  exact (h.stands he).tree_eq h.accounted.toApart

/-- What leaves the nodes in use and the roots alone leaves the holdings alone. -/
theorem Holds.kept (h : s.Holds b c own) (hk : Kept own.refs s t) (ha : t.Accounted b' own.refs) :
    t.Holds b' c own where
  distinct := h.distinct
  roots x hx := by
    rw [hk.roots]
    exact h.roots x hx
  trees x hx := (h.trees x hx).kept hk (subset_refs (e := x.1) hx)
  accounted := ha
  size := hk.roots ▸ h.size

/-- An expression listed once is not listed again. -/
theorem Holds.ne_of_mem (h : s.Holds b c ((e, p) :: own)) {x : Expression × Planted κ} (hx : x ∈ own) :
    x.1 ≠ e := by
  intro he
  have hnd := h.distinct
  rw [List.map_cons, List.nodup_cons] at hnd
  exact hnd.1 (List.mem_map.mpr ⟨x, hx, he⟩)

/-- An expression with another tree. -/
theorem Holds.reroot (h : s.Holds b c ((e, p) :: own))
    (hroots : t.roots = s.roots.setIfInBounds e.place q.ref?)
    (hnodes : ∀ r ∈ own.refs, t.node? r = s.node? r) (hq : q.In t none)
    (ha : t.Accounted b' (q.refs ++ own.refs)) : t.Holds b' c ((e, q) :: own) where
  distinct := h.distinct
  roots x hx := by
    rw [hroots]
    rcases List.mem_cons.mp hx with rfl | hx
    · exact Array.getElem?_setIfInBounds_self_of_lt (h.lt_size List.mem_cons_self)
    · have hne : e.place ≠ x.1.place := fun he => h.ne_of_mem hx (congrArg Expression.mk he.symm)
      rw [Array.getElem?_setIfInBounds_ne hne]
      exact h.roots x (List.mem_cons_of_mem _ hx)
  trees x hx := by
    rcases List.mem_cons.mp hx with rfl | hx
    · exact hq
    · refine (h.trees x (List.mem_cons_of_mem _ hx)).congr fun r hr => hnodes r ?_
      exact subset_refs (e := x.1) hx hr
  accounted := ha
  size := by
    rw [hroots, Array.size_setIfInBounds]
    exact h.size

/-! ## Operations on expressions -/

/-- A tree without a parent can become the root of any expression. -/
theorem setRoot_spec (hq : q.In s none) (e : Expression) :
    (setRoot e q.ref?).Succeeds s fun _ t => t = s.writeRoot e q.ref? := by
  have hrun : (setRoot e q.ref?).perform s = (.ok (), s.writeRoot e q.ref?) := by
    unfold setRoot
    rw [perform_bind, perform_get]
    simp only [hq.bind_parent?]
    rfl
  exact ensures_of_ok hrun rfl

/-- **Making an expression** of a tree that was just made. -/
theorem newExpression_spec (h : s.Holds b c own) (hm : Made b own.refs s p t) :
    (newExpression p.ref?).Succeeds t fun e u => u.Holds b c ((e, p) :: own) := by
  have hrun : (newExpression p.ref?).perform t =
      (.ok ⟨t.roots.size⟩, { t with roots := t.roots.push p.ref? }) := by
    unfold newExpression
    rw [perform_bind, perform_get]
    simp only [hm.stands.bind_parent?]
    rfl
  have ht := h.kept hm.kept hm.accounted.of_append_right.accounted
  refine ensures_of_ok hrun ⟨?_, ?_, ?_, ?_, ?_⟩
  · rw [List.map_cons, List.nodup_cons]
    refine ⟨fun hmem => ?_, h.distinct⟩
    obtain ⟨x, hx, he⟩ := List.mem_map.mp hmem
    have hlt := ht.lt_size (e := x.1) hx
    rw [he] at hlt
    exact Nat.lt_irrefl _ hlt
  · intro x hx
    rcases List.mem_cons.mp hx with rfl | hx
    · exact Array.getElem?_push_size
    · have hlt := ht.lt_size (e := x.1) hx
      rw [Array.getElem?_push, if_neg (Nat.ne_of_lt hlt)]
      exact ht.roots x hx
  · intro x hx
    rcases List.mem_cons.mp hx with rfl | hx
    · exact hm.stands.congr fun _ _ => rfl
    · exact (ht.trees x hx).congr fun _ _ => rfl
  · exact ⟨⟨hm.accounted.nodup, hm.accounted.bound⟩, hm.accounted.balance⟩
  · rw [Array.size_push, ht.size, List.length_cons]
    omega

/-- **Giving the tree of an expression back** leaves the expression empty. -/
theorem releaseExpression_spec (h : s.Holds b c ((e, p) :: own)) :
    (releaseExpression e).Succeeds s fun _ t => t.Holds b c ((e, .absent) :: own) := by
  unfold releaseExpression
  refine ensures_get ?_
  refine ensures_modify ?_
  rw [h.root?_eq List.mem_cons_self]
  have hp : p.In (s.writeRoot e none) none := (h.trees _ List.mem_cons_self).congr fun _ _ => rfl
  have ha : (s.writeRoot e none).Accounted b (p.refs ++ own.refs) :=
    ⟨⟨h.accounted.nodup, h.accounted.bound⟩, h.accounted.balance⟩
  refine (release_spec hp ha).mono fun _ t hf => ?_
  exact h.reroot hf.kept.roots hf.kept.nodes trivial hf.accounted

/-- **Copying an expression.** -/
theorem copyExpression_spec (h : s.Holds b c own) (he : (e, p) ∈ own) :
    (copyExpression e).Ensures s
      (fun e' t => p.tree.isSpelled = true ∧ ∃ q, q.tree = p.tree ∧ t.Holds b c ((e', q) :: own))
      fun f t => p.tree.isSpelled = false ∧ (∃ n, f = .invalidName n) ∧ ∃ b', t.Holds b' c own := by
  unfold copyExpression
  refine ensures_get ?_
  rw [h.root?_eq he]
  cases hr : p.ref? with
  | none =>
    obtain rfl := Planted.eq_absent_of_ref? hr
    have hm : Made b own.refs s .absent s := ⟨trivial, h.accounted, .refl _ _⟩
    refine (newExpression_spec h hm).ensures.mono ?_ fun _ _ => id
    exact fun e' t ht => ⟨rfl, .absent, rfl, ht⟩
  | some r =>
    refine ((copy_spec (h.stands he) hr h.accounted).mono (fun _ _ => id) ?_).bind ?_
    · rintro f t ⟨hs, hf⟩
      exact ⟨hs, hf.fault, _, h.kept hf.kept hf.apart.accounted⟩
    · rintro _ t ⟨hs, q, hq, rfl, hm⟩
      exact (newExpression_spec h hm).ensures.mono (fun e' u hu => ⟨hs, q, hq, hu⟩) fun _ _ => id

end Store

end Fluxion
