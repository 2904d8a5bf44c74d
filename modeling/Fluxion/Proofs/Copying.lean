import Fluxion.Proofs.Planting

/-!
# Copying planted trees

A copy is made of new nodes only and is the same tree. While it is made, a table tells which copy
stands for which node; copying a tree changes the table at the nodes of the tree and nowhere else, so
the copy of the right side is still in the table when the left side has been copied.

Copying stops at a name that is not a letter. Then the nodes made so far are lost, but nothing in use
has changed.

* `Store.copy_spec` copies a tree.
* `Store.Stopped` is what a copy that fails leaves behind.
-/

namespace Fluxion

open Act

namespace Store

variable {κ : Type} {s t u : Store κ} {p q : Planted κ} {used used' : List Ref} {b : Int}
  {parent : Option Ref} {r : Ref} {f : Fault} {copies copies' : Copies}

/-- The work stopped at a name that is not a letter; nothing in use changed. -/
structure Stopped (used : List Ref) (s : Store κ) (f : Fault) (t : Store κ) : Prop where
  fault : ∃ n, f = .invalidName n
  apart : t.Apart used
  kept : Kept used s t

theorem Stopped.after (h : Stopped (used' ++ used) t f u) (hk : Kept used s t) :
    Stopped used s f u where
  fault := h.fault
  apart := h.apart.of_append_right
  kept := hk.trans (h.kept.subset (by simp))

/-! ## The table of copies -/

@[simp] theorem Copies.find?_none (copies : Copies) : copies.find? none = none := rfl

theorem Copies.find?_insert_self (copies : Copies) (r c : Ref) :
    Copies.find? (copies.insert r c) (some r) = some c := by
  simp [Copies.find?]

/-- Copying outside a tree leaves its copy in the table. -/
theorem Copies.find?_congr (h : ∀ x ∈ p.refs, copies'[x]? = copies[x]?) :
    copies'.find? p.ref? = copies.find? p.ref? := by
  cases hr : p.ref? with
  | none => rfl
  | some x => exact h x (Planted.mem_refs_of_ref? hr)

/-- An act copies a tree: the copy is made and entered, or a name stops the work. -/
def CopiesTree (act : Act (Store κ) Copies) (b : Int) (used : List Ref) (s : Store κ)
    (p : Planted κ) (copies : Copies) : Prop :=
  act.Ensures s
    (fun copies' t => p.tree.isSpelled = true ∧
      (∃ q, q.tree = p.tree ∧ q.ref? = copies'.find? p.ref? ∧ Made b used s q t) ∧
      ∀ x ∉ p.refs, copies'[x]? = copies[x]?)
    fun f t => p.tree.isSpelled = false ∧ Stopped used s f t

/-- Copying what is in a slot, if anything is. -/
theorem copiesTree_slot {depth : Nat} (ha : s.Accounted b used)
    (h : ∀ r, p.ref? = some r → CopiesTree (copyTo depth r copies) b used s p copies) :
    CopiesTree (p.ref?.toList.foldlM (fun copies c => copyTo depth c copies) copies) b used s p
      copies := by
  cases hr : p.ref? with
  | none =>
    rw [Planted.eq_absent_of_ref? hr]
    exact ensures_pure ⟨rfl, ⟨.absent, rfl, rfl, trivial, ha, .refl _ _⟩, fun _ _ => rfl⟩
  | some r =>
    have hone := h r hr
    simpa using hone

/-- Entering the copy of a root changes the table at the root only. -/
theorem Copies.getElem?_insert_of_notMem {c : Ref} (hr : p.ref? = some r)
    (h : ∀ x ∉ p.refs, copies'[x]? = copies[x]?) :
    ∀ x ∉ p.refs, (copies'.insert r c)[x]? = copies[x]? := by
  intro x hx
  have hne : r ≠ x := fun e => hx (e ▸ Planted.mem_refs_of_ref? hr)
  rw [Std.HashMap.getElem?_insert, if_neg (by simpa using hne)]
  exact h x hx

/-- Copying a literal. -/
theorem copyTo_literal {v : κ} (depth : Nat) (hn : s.node? r = some ⟨.literal v, parent⟩)
    (h : s.Accounted b used) :
    CopiesTree (copyTo (depth + 1) r copies) b used s (.literal r v) copies := by
  unfold CopiesTree copyTo
  refine ensures_get ?_
  simp only [Planted.children_eq hn, Cell.children, List.reverse_nil, List.foldlM_nil, pure_bind]
  refine ensures_get ?_
  simp only [hn]
  refine (newLiteral_spec h v).bind ?_
  rintro c t ⟨hm, -⟩
  refine ensures_pure ⟨rfl, ⟨.literal c v, rfl, ?_, hm⟩, ?_⟩
  · exact (Copies.find?_insert_self copies r c).symm
  · exact Copies.getElem?_insert_of_notMem rfl fun _ _ => rfl

/-- Copying a variable: its name must be a letter. -/
theorem copyTo_var {n : Name} (depth : Nat) (hn : s.node? r = some ⟨.var n, parent⟩)
    (h : s.Accounted b used) :
    CopiesTree (copyTo (depth + 1) r copies) b used s (.var r n) copies := by
  unfold CopiesTree copyTo
  refine ensures_get ?_
  simp only [Planted.children_eq hn, Cell.children, List.reverse_nil, List.foldlM_nil, pure_bind]
  refine ensures_get ?_
  simp only [hn]
  refine ((newVar_spec h n).mono (fun _ _ => id) ?_).bind ?_
  · rintro f t ⟨rfl, hl, ha, hk⟩
    exact ⟨hl, ⟨n, rfl⟩, ha.toApart, hk⟩
  · rintro c t ⟨hl, hm, -⟩
    refine ensures_pure ⟨hl, ⟨.var c n, rfl, ?_, hm⟩, ?_⟩
    · exact (Copies.find?_insert_self copies r c).symm
    · exact Copies.getElem?_insert_of_notMem rfl fun _ _ => rfl

/-- Copying an operation of two operands, the right one before the left one. -/
theorem copyTo_binary {op : Operator} {depth : Nat}
    (hp : (Planted.binary r op p q).Stands s used parent)
    (hright : CopiesTree (q.ref?.toList.foldlM (fun copies c => copyTo depth c copies) copies) b used
      s q copies)
    (hleft : ∀ (copies : Copies) (q' : Planted κ) (t : Store κ), Made b used s q' t →
      CopiesTree (p.ref?.toList.foldlM (fun copies c => copyTo depth c copies) copies) b
        (q'.refs ++ used) t p copies) :
    CopiesTree (copyTo (depth + 1) r copies) b used s (.binary r op p q) copies := by
  have hn := hp.isIn.1
  have hru : r ∈ used := hp.subset (by simp [Planted.refs])
  have hnd := hp.nodup
  simp only [Planted.refs, List.nodup_append] at hnd
  unfold CopiesTree copyTo
  refine ensures_get ?_
  simp only [Planted.children_eq hn, reverse_children_binary, List.foldlM_append, bind_assoc]
  refine (Ensures.mono hright (fun _ _ => id) ?_).bind ?_
  · rintro f t ⟨hs, hf⟩
    exact ⟨by simp [Planted.tree, Tree.isSpelled, hs], hf⟩
  rintro copies₁ t₁ ⟨hsq, ⟨q', hq', hrq, hmq⟩, hnew₁⟩
  refine (Ensures.mono (hleft copies₁ q' t₁ hmq) (fun _ _ => id) ?_).bind ?_
  · rintro f t ⟨hs, hf⟩
    exact ⟨by simp [Planted.tree, Tree.isSpelled, hs], hf.after hmq.kept⟩
  rintro copies₂ t₂ ⟨hsp, ⟨p', hp', hrp, hmp⟩, hnew₂⟩
  refine ensures_get ?_
  have hn₂ : t₂.node? r = some ⟨.binary op p.ref? q.ref?, parent⟩ :=
    (hmp.kept.nodes r (by simp [hru])).trans ((hmq.kept.nodes r hru).trans hn)
  -- copying the left side has not touched the entry for the right one
  have hkeep : copies₂.find? q.ref? = copies₁.find? q.ref? :=
    Copies.find?_congr fun y hy => hnew₂ y fun hm => hnd.1.2.2 y hm y hy rfl
  simp only [hn₂, hkeep, ← hrq, ← hrp]
  refine (newBinary_before op hmq hmp).bind ?_
  rintro c t₃ ⟨hm, -⟩
  refine ensures_pure ⟨?_, ⟨.binary c op p' q', ?_, ?_, hm⟩, ?_⟩
  · simp [Planted.tree, Tree.isSpelled, hsp, hsq]
  · simp [Planted.tree, hp', hq']
  · exact (Copies.find?_insert_self copies₂ r c).symm
  · refine Copies.getElem?_insert_of_notMem rfl fun y hy => ?_
    simp only [Planted.refs, List.mem_append, not_or] at hy
    exact (hnew₂ y hy.1.1).trans (hnew₁ y hy.1.2)

/-- Copying an operation of one operand. -/
theorem copyTo_unary {op : Operator} {depth : Nat}
    (hp : (Planted.unary r op p).Stands s used parent)
    (hslot : CopiesTree (p.ref?.toList.foldlM (fun copies c => copyTo depth c copies) copies) b used
      s p copies) :
    CopiesTree (copyTo (depth + 1) r copies) b used s (.unary r op p) copies := by
  have hn := hp.isIn.1
  have hru : r ∈ used := hp.subset (by simp [Planted.refs])
  unfold CopiesTree copyTo
  refine ensures_get ?_
  simp only [Planted.children_eq hn, reverse_children_unary]
  refine Ensures.bind hslot ?_
  rintro copies₁ t₁ ⟨hsp, ⟨p', hp', hrp, hmp⟩, hnew⟩
  refine ensures_get ?_
  have hn₁ : t₁.node? r = some ⟨.unary op p.ref?, parent⟩ := (hmp.kept.nodes r hru).trans hn
  simp only [hn₁, ← hrp]
  refine (newUnary_after op hmp).bind ?_
  rintro c t₂ ⟨hm, -⟩
  refine ensures_pure ⟨hsp, ⟨.unary c op p', ?_, ?_, hm⟩, ?_⟩
  · simp [Planted.tree, hp']
  · exact (Copies.find?_insert_self copies₁ r c).symm
  · refine Copies.getElem?_insert_of_notMem rfl fun y hy => ?_
    simp only [Planted.refs, List.mem_append, not_or] at hy
    exact hnew y hy.1

/-- Copying down far enough copies the whole tree. -/
theorem copyTo_spec {depth : Nat} (hp : p.Stands s used parent) (hd : p.tree.depth ≤ depth)
    (hr : p.ref? = some r) (h : s.Accounted b used) :
    CopiesTree (copyTo depth r copies) b used s p copies := by
  induction p generalizing s parent depth r used copies with
  | absent => cases hr
  | literal x v =>
    cases hr
    obtain ⟨d, rfl⟩ := Nat.exists_eq_add_one.mpr hd
    exact copyTo_literal d hp.isIn h
  | var x n =>
    cases hr
    obtain ⟨d, rfl⟩ := Nat.exists_eq_add_one.mpr hd
    exact copyTo_var d hp.isIn h
  | binary x op p q ihp ihq =>
    cases hr
    obtain ⟨d, rfl, hdp, hdq⟩ := Tree.exists_of_depth_binary_le hd
    refine copyTo_binary hp (copiesTree_slot h fun y hy => ?_) fun copies q' t hm => ?_
    · exact ihq hp.right hdq hy h
    · refine copiesTree_slot hm.accounted fun y hy => ?_
      have hp' := (hp.left.kept hm.kept).mono (List.subset_append_right q'.refs used)
      exact ihp hp' hdp hy hm.accounted
  | unary x op p ih =>
    cases hr
    obtain ⟨d, rfl, hdp⟩ := Tree.exists_of_depth_unary_le hd
    refine copyTo_unary hp (copiesTree_slot h fun y hy => ?_)
    exact ih hp.operand hdp hy h

/-- **Copying a tree.** The copy is the same tree, made of new nodes; a name that is not a letter
stops the work. -/
theorem copy_spec (hp : p.Stands s used parent) (hr : p.ref? = some r) (h : s.Accounted b used) :
    (copy r).Ensures s
      (fun c t => p.tree.isSpelled = true ∧ ∃ q, q.tree = p.tree ∧ q.ref? = c ∧ Made b used s q t)
      fun f t => p.tree.isSpelled = false ∧ Stopped used s f t := by
  unfold copy
  refine ensures_get ?_
  refine (copyTo_spec hp (hp.depth_le h.toApart) hr h).bind ?_
  rintro copies t ⟨hs, ⟨q, hq, hc, hm⟩, -⟩
  rw [hr] at hc
  exact ensures_pure ⟨hs, q, hq, hc, hm⟩

end Store

end Fluxion
