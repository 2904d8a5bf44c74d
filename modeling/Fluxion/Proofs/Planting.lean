import Fluxion.Proofs.Links
import Fluxion.Proofs.Shape
import Mathlib.Algebra.GroupWithZero.Nat
import Mathlib.Tactic.Convert

/-!
# Making and giving back whole trees

Making the nodes of a tree takes as many nodes of each kind from the pool as the tree has, and giving
a tree back returns as many. Neither touches anything in use.

A pool that hands out nodes and gets the same number back ends up with more free nodes than before if
some of them had to be made, up to its room.

* `Pool.Drawn` and `Pool.Returned` count what the pool hands out and takes back, kind by kind.
* `Store.Built` says that a tree was made, and `Store.release_spec` gives one back.
* `Store.GivenUp` says that all that was made was given back.
-/

namespace Fluxion

open Act

/-! ## Counting -/

namespace Pool

/-- The pool handed out `n k` nodes of each kind `k`, free ones first. -/
structure Drawn (n : Kind → Nat) (p q : Pool) : Prop where
  stock : ∀ k, q.stock k = p.stock k - n k
  handedOut : ∀ k, q.handedOut.count k = p.handedOut.count k + n k
  released : q.released = p.released
  room : q.room = p.room

/-- The pool took back `n k` nodes of each kind `k`, and kept them while there was room. -/
structure Returned (n : Kind → Nat) (p q : Pool) : Prop where
  stock : ∀ k, (q.stock k : Int) = max (p.stock k : Int) (min p.room (p.stock k + n k))
  handedOut : q.handedOut = p.handedOut
  released : q.released = p.released + (n .var + n .literal + n .binary + n .unary)
  room : q.room = p.room

variable {n m : Kind → Nat} {p q r : Pool}

theorem drawn_refl (p : Pool) : Drawn (fun _ => 0) p p := ⟨fun _ => rfl, fun _ => rfl, rfl, rfl⟩

theorem Drawn.trans (h : Drawn n p q) (h' : Drawn m q r) : Drawn (fun k => n k + m k) p r where
  stock k := by
    rw [h'.stock, h.stock, Nat.sub_sub]
  handedOut k := by
    rw [h'.handedOut, h.handedOut, Nat.add_assoc]
  released := h'.released.trans h.released
  room := h'.room.trans h.room

theorem drawn_draw (p : Pool) (k : Kind) : Drawn (fun k' => if k' = k then 1 else 0) p (p.draw k) := by
  refine ⟨fun k' => ?_, fun k' => ?_, ?_, ?_⟩
  · by_cases h : k' = k
    · subst h
      simp [draw, stock]
    · simp [draw, stock, free_setFree_ne _ _ h, h]
  · have h : (p.draw k).handedOut = p.handedOut.add k := by cases k <;> rfl
    rw [h, Tally.count_add]
  · cases k <;> rfl
  · cases k <;> rfl

theorem returned_refl (p : Pool) : Returned (fun _ => 0) p p :=
  ⟨fun k => by omega, rfl, rfl, rfl⟩

theorem Returned.trans (h : Returned n p q) (h' : Returned m q r) :
    Returned (fun k => n k + m k) p r where
  stock k := by
    rw [h'.stock, h.stock, h.room]
    push_cast
    omega
  handedOut := h'.handedOut.trans h.handedOut
  released := by
    rw [h'.released, h.released]
    omega
  room := h'.room.trans h.room

theorem returned_put (p : Pool) (k : Kind) (x : Ref) :
    Returned (fun k' => if k' = k then 1 else 0) p (p.put k x) := by
  have hfree : ∀ k', ({ p with released := p.released + 1 } : Pool).free k' = p.free k' := by
    intro k'
    cases k' <;> rfl
  unfold put
  by_cases h : (p.stock k : Int) < p.room
  · have hput : (({ p with released := p.released + 1 } : Pool).stock k : Int) < p.room := by
      rw [stock, hfree]
      exact h
    simp only [hput, if_true]
    refine ⟨fun k' => ?_, ?_, ?_, ?_⟩
    · by_cases hk : k' = k
      · subst hk
        simp only [stock, free_setFree_self, hfree, List.length_cons, if_true] at h ⊢
        omega
      · simp only [stock, free_setFree_ne _ _ hk, hfree, hk, if_false]
        omega
    · cases k <;> rfl
    · cases k <;> rfl
    · cases k <;> rfl
  · have hput : ¬(({ p with released := p.released + 1 } : Pool).stock k : Int) < p.room := by
      rw [stock, hfree]
      exact h
    simp only [hput, if_false]
    refine ⟨fun k' => ?_, rfl, ?_, rfl⟩
    · by_cases hk : k' = k
      · subst hk
        simp only [stock, hfree, if_true] at h ⊢
        omega
      · simp only [stock, hfree, hk, if_false]
        omega
    · cases k <;> rfl

/-- A pool without stock has no free nodes. -/
theorem spare_eq_nil (h : ∀ k, p.stock k = 0) : p.spare = [] := by
  have hfree : ∀ k, p.free k = [] := fun k => List.eq_nil_of_length_eq_zero (h k)
  have hv := hfree .var
  have hl := hfree .literal
  have hb := hfree .binary
  have hu := hfree .unary
  simp only [free] at hv hl hb hu
  simp only [spare, hv, hl, hb, hu, List.append_nil]

end Pool

/-! ## Making trees -/

namespace Planted

variable {κ : Type} {p : Planted κ}

/-- A well-formed tree has a root. -/
theorem ref?_of_isWellFormed (h : p.tree.isWellFormed = true) : ∃ r, p.ref? = some r := by
  cases p with
  | absent => cases h
  | _ => exact ⟨_, rfl⟩

theorem isWellFormed_of_valid {r : Ref} (h : p.tree.Valid) (hr : p.ref? = some r) :
    p.tree.isWellFormed = true := by
  refine h.isWellFormed ?_
  cases p with
  | absent => cases hr
  | _ => rfl

end Planted

namespace Store

variable {κ : Type} {s t u : Store κ} {p q : Planted κ} {used : List Ref} {parent : Option Ref}
  {r : Ref} {b : Int}

/-- A tree was made beside what is in use, and the pool handed out the nodes of the tree. -/
structure Built (b : Int) (used : List Ref) (s : Store κ) (p : Planted κ) (t : Store κ) : Prop
    extends Made b used s p t where
  pool : Pool.Drawn (p.tree.count ·) s.pool t.pool

/-- A tree was built, and this is its root. -/
def BuiltAt (b : Int) (used : List Ref) (s : Store κ) (root : Option Ref) (tree : Tree κ) (t : Store κ) :
    Prop :=
  ∃ p : Planted κ, p.ref? = root ∧ p.tree = tree ∧ Built b used s p t

theorem newLiteral_built (h : s.Accounted b used) (v : κ) :
    (newLiteral .pool v).Succeeds s fun r t => Built b used s (.literal r v) t :=
  (newLiteral_spec h v).mono fun _ _ ⟨hm, hp⟩ => ⟨hm, hp ▸ Pool.drawn_draw _ _⟩

theorem newVar_built (h : s.Accounted b used) {n : Name} (hn : n.isLetter = true) :
    (newVar .pool n).Succeeds s fun r t => Built b used s (.var r n) t := by
  refine (newVar_spec h n).mono (fun _ _ ⟨_, hm, hp⟩ => ⟨hm, hp ▸ Pool.drawn_draw _ _⟩) ?_
  rintro f t ⟨-, hf, -⟩
  cases hn.symm.trans hf

theorem Built.perm {used' : List Ref} (h : Built b used s p t) (hu : used'.Perm used) :
    Built b used' s p t :=
  ⟨⟨h.stands, h.accounted.perm (hu.append_left _), h.kept.subset hu.subset⟩, h.pool⟩

/-- A node over two trees that were built one after the other. -/
theorem Built.newBinary (op : Operator) (hp : Built b used s p t) (hq : Built b (p.refs ++ used) t q u) :
    (newBinary .pool op p.ref? q.ref?).Succeeds u fun r v => Built b used s (.binary r op p q) v := by
  refine (newBinary_after op hp.toMade hq.toMade).mono ?_
  rintro r v ⟨hm, hpool⟩
  refine ⟨hm, ?_⟩
  rw [hpool]
  exact (hp.pool.trans hq.pool).trans (Pool.drawn_draw _ _)

theorem Built.newUnary (op : Operator) (hp : Built b used s p t) :
    (newUnary .pool op p.ref?).Succeeds t fun r u => Built b used s (.unary r op p) u := by
  refine (newUnary_after op hp.toMade).mono ?_
  rintro r u ⟨hm, hpool⟩
  refine ⟨hm, ?_⟩
  rw [hpool]
  exact hp.pool.trans (Pool.drawn_draw _ _)

/-! ## Giving trees back -/

/-- Nodes were given back: nothing in use changed, and the pool counted them. -/
structure Freed (b : Int) (used : List Ref) (n : Kind → Nat) (s t : Store κ) : Prop where
  accounted : t.Accounted b used
  kept : Kept used s t
  pool : Pool.Returned n s.pool t.pool

theorem Freed.trans {n m : Kind → Nat} {used' : List Ref} (h : Freed b (used' ++ used) n s t)
    (h' : Freed b used m t u) : Freed b used (fun k => n k + m k) s u where
  accounted := h'.accounted
  kept := (h.kept.subset (by simp)).trans h'.kept
  pool := h.pool.trans h'.pool

/-- Giving back what is in a slot, if anything is. -/
theorem freed_slot {depth : Nat} (ha : s.Accounted b (p.refs ++ used))
    (h : ∀ r, p.ref? = some r → Freed b used (p.tree.count ·) s (releaseTo depth r s)) :
    Freed b used (p.tree.count ·) s (p.ref?.toList.foldl (fun s c => releaseTo depth c s) s) := by
  cases hr : p.ref? with
  | none =>
    rw [Planted.eq_absent_of_ref? hr] at ha ⊢
    exact ⟨ha, .refl _ _, Pool.returned_refl _⟩
  | some r => exact h r hr

theorem freed_giveBack {c : Cell κ} {kind : Kind} (h : s.Accounted b (r :: used))
    (hn : s.node? r = some ⟨c, parent⟩) (hc : c.kind = kind) :
    Freed b used (fun k => if k = kind then 1 else 0) s (s.giveBack r) := by
  obtain ⟨ha, hk, hp⟩ := giveBack_spec h.toApart hn
  refine ⟨⟨ha, ?_⟩, hk, ?_⟩
  · rw [hp, Pool.balance_put, h.balance, List.length_cons]
    omega
  · rw [hp, ← hc]
    exact Pool.returned_put _ _ _

theorem reverse_children_binary (op : Operator) (x y : Option Ref) :
    (Cell.binary op x y : Cell κ).children.reverse = y.toList ++ x.toList := by
  cases x <;> cases y <;> rfl

theorem reverse_children_unary (op : Operator) (x : Option Ref) :
    (Cell.unary op x : Cell κ).children.reverse = x.toList := by
  cases x <;> rfl

/-- Giving back down far enough gives the whole tree back, whatever its root refers back to. -/
theorem releaseTo_spec {depth : Nat} (hp : p.In s parent) (hd : p.tree.depth ≤ depth)
    (hr : p.ref? = some r) (h : s.Accounted b (p.refs ++ used)) :
    Freed b used (p.tree.count ·) s (releaseTo depth r s) := by
  induction p generalizing s parent depth r used with
  | absent => cases hr
  | literal x v =>
    obtain rfl : x = r := Option.some.inj hr
    obtain ⟨d, rfl⟩ := Nat.exists_eq_add_one.mpr hd
    simp only [releaseTo, Planted.children_eq hp, Cell.children, List.reverse_nil, List.foldl_nil]
    exact freed_giveBack h hp rfl
  | var x n =>
    obtain rfl : x = r := Option.some.inj hr
    obtain ⟨d, rfl⟩ := Nat.exists_eq_add_one.mpr hd
    simp only [releaseTo, Planted.children_eq hp, Cell.children, List.reverse_nil, List.foldl_nil]
    exact freed_giveBack h hp rfl
  | binary x op p q ihp ihq =>
    obtain rfl : x = r := Option.some.inj hr
    obtain ⟨d, rfl, hdp, hdq⟩ := Tree.exists_of_depth_binary_le hd
    obtain ⟨hn, hp, hq⟩ := hp
    have hfree : Freed b (q.refs ++ (p.refs ++ used)) (if · = .binary then 1 else 0) s (s.giveBack x) :=
      freed_giveBack (h.perm (List.perm_iff_count.mpr fun y => by
        simp only [Planted.refs, List.count_append, List.count_cons, List.count_nil]
        omega)) hn rfl
    simp only [releaseTo, Planted.children_eq hn, reverse_children_binary, List.foldl_append]
    -- the right side is given back before the left one
    have hright := freed_slot hfree.accounted fun y hy =>
      ihq (hq.kept hfree.kept (by simp)) hdq hy hfree.accounted
    have hleft := freed_slot hright.accounted fun y hy =>
      ihp ((hp.kept hfree.kept (by simp)).kept hright.kept (by simp))
        hdp hy hright.accounted
    obtain ⟨ha, hk, hpool⟩ := (hfree.trans hright).trans hleft
    refine ⟨ha, hk, ?_⟩
    convert hpool using 2 with k
    simp only [Planted.tree, Tree.count]
    omega
  | unary x op p ih =>
    obtain rfl : x = r := Option.some.inj hr
    obtain ⟨d, rfl, hdp⟩ := Tree.exists_of_depth_unary_le hd
    obtain ⟨hn, hp⟩ := hp
    have hfree : Freed b (p.refs ++ used) (if · = .unary then 1 else 0) s (s.giveBack x) :=
      freed_giveBack (h.perm (List.perm_iff_count.mpr fun y => by
        simp only [Planted.refs, List.count_append, List.count_cons, List.count_nil]
        omega)) hn rfl
    simp only [releaseTo, Planted.children_eq hn, reverse_children_unary]
    have hslot := freed_slot hfree.accounted fun y hy =>
      ih (hp.kept hfree.kept (by simp)) hdp hy hfree.accounted
    obtain ⟨ha, hk, hpool⟩ := hfree.trans hslot
    refine ⟨ha, hk, ?_⟩
    convert hpool using 2 with k
    simp only [Planted.tree, Tree.count]
    omega

/-- **Giving back a tree** that has no parent. -/
theorem release_spec (hp : p.In s none) (h : s.Accounted b (p.refs ++ used)) :
    (release p.ref?).Succeeds s fun _ t => Freed b used (p.tree.count ·) s t := by
  cases hr : p.ref? with
  | none =>
    rw [Planted.eq_absent_of_ref? hr] at h ⊢
    exact ensures_pure ⟨h, .refl _ _, Pool.returned_refl _⟩
  | some r =>
    have hdepth := (hp.stands h.toApart).depth_le h.toApart
    have hrun : (release (some r)).perform s = (.ok (), releaseTo s.nodes.size r s) := by
      unfold release
      rw [perform_bind, perform_get]
      simp only [hp.parent?_eq hr]
      rfl
    exact ensures_of_ok hrun (releaseTo_spec hp hdepth hr h)

/-- Giving trees back one after the other. -/
theorem forM_release_spec (ps : List (Planted κ)) (hp : ∀ p ∈ ps, p.In s none)
    (h : s.Accounted b (ps.flatMap (·.refs) ++ used)) :
    ((ps.map (·.ref?)).forM release).Succeeds s fun _ t =>
      Freed b used (fun k => (ps.map (·.tree.count k)).sum) s t := by
  induction ps generalizing s with
  | nil => exact ensures_pure ⟨h, .refl _ _, Pool.returned_refl _⟩
  | cons p ps ih =>
    rw [List.map_cons, List.forM]
    rw [List.flatMap_cons, List.append_assoc] at h
    refine (release_spec (hp p List.mem_cons_self) h).bind ?_
    rintro - t hfree
    refine (ih (fun q hq => ?_) hfree.accounted).mono ?_
    · refine (hp q (List.mem_cons_of_mem _ hq)).kept hfree.kept fun x hx => ?_
      exact List.mem_append_left _ (List.mem_flatMap_of_mem hq hx)
    · rintro - u hrest
      simpa using hfree.trans hrest

/-! ## Giving up -/

/-- An act that made nodes gave all of them back, and `n k` nodes of each kind `k` besides. -/
structure GivenUp (b : Int) (used : List Ref) (n : Kind → Nat) (s t : Store κ) : Prop where
  accounted : t.Accounted b used
  kept : Kept used s t
  pool : ∃ d m, Pool.Drawn d s.pool m ∧ Pool.Returned (fun k => d k + n k) m t.pool

variable {n m : Kind → Nat} {used' : List Ref}

theorem Freed.givenUp (h : Freed b used n s t) : GivenUp b used n s t :=
  ⟨h.accounted, h.kept, _, _, Pool.drawn_refl _, by simpa using h.pool⟩

/-- Giving more back behind an act that was given up. -/
theorem GivenUp.freed (h : GivenUp b (used' ++ used) n s t) (h' : Freed b used m t u) :
    GivenUp b used (fun k => n k + m k) s u := by
  obtain ⟨d, q, hd, hr⟩ := h.pool
  refine ⟨h'.accounted, (h.kept.subset (by simp)).trans h'.kept, d, q, hd, ?_⟩
  simpa only [Nat.add_assoc] using hr.trans h'.pool

/-- What is built and given back is given up. -/
theorem Built.givenUp (h : Built b used' s p t) (hs : used ⊆ used') (h' : GivenUp b used n t u)
    (hn : ∀ k, n k = p.tree.count k + m k) : GivenUp b used m s u := by
  obtain ⟨d, q, hd, hr⟩ := h'.pool
  refine ⟨h'.accounted, (h.kept.subset hs).trans h'.kept, _, q, h.pool.trans hd, ?_⟩
  convert hr using 2 with k
  rw [hn]
  omega

/-- Nothing is left of the nodes that an act made. -/
abbrev Undone (b : Int) (used : List Ref) (s t : Store κ) : Prop := GivenUp b used (fun _ => 0) s t

theorem undone_refl (h : s.Accounted b used) : Undone b used s s :=
  Freed.givenUp ⟨h, .refl _ _, Pool.returned_refl _⟩

/-- Nothing is left where the tree that was built is given back. -/
theorem Built.undone (hp : Built b used s p t) (h : Freed b used n t u)
    (hn : ∀ k, n k = p.tree.count k) : Undone b used s u :=
  hp.givenUp (List.Subset.refl _) h.givenUp hn

end Store

end Fluxion
