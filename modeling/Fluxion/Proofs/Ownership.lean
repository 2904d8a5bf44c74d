import Fluxion.Proofs.Holdings
import Mathlib.Data.List.Pairwise

/-!
# Strict ownership

A way down names the slot to take at each node. In a strictly owned store a node that is reached from
an expression is reached by one way only, refers back to the node that holds it, and is not free.
This says of ways down what holdings say of planted trees, and the two are the same: the ways of a
store that holds planted trees are the ways of the trees, and in a strictly owned store no way is
longer than the number of nodes, so the trees can be read off.

* `Store.StrictlyOwned` says what strict ownership is.
* `Store.Holds.strictlyOwned` and `Store.StrictlyOwned.holds` go from holdings to strict ownership
  and back.
* `Store.Untouched` says that an expression has the same tree, node by node.
-/

namespace Fluxion

/-! ## Ways down a planted tree -/

namespace Planted

variable {κ : Type} {s : Store κ} {parent : Option Ref} {p : Planted κ} {r x : Ref} {slot : Slot}

/-- What is in a slot of the root. -/
def child : Slot → Planted κ → Planted κ
  | .left, binary _ _ p _ => p
  | .right, binary _ _ _ q => q
  | .operand, unary _ _ p => p
  | _, _ => absent

/-- The part at the end of a way down. -/
def part : List Slot → Planted κ → Planted κ
  | [], p => p
  | slot :: way, p => part way (p.child slot)

theorem part_absent (way : List Slot) : part way (absent : Planted κ) = absent := by
  induction way with
  | nil => rfl
  | cons slot way ih => cases slot <;> exact ih

theorem In.slot?_eq (h : p.In s parent) (hr : p.ref? = some r) (slot : Slot) :
    s.slot? r slot = (p.child slot).ref? := by
  unfold Store.slot?
  cases p <;> cases slot <;> simp_all [In, child, Cell.slot?]

theorem In.child (h : p.In s parent) (hr : p.ref? = some r) (slot : Slot) :
    (p.child slot).In s (some r) := by
  cases p <;> cases slot <;> simp_all [In, Planted.child]

/-- At every node of a tree stands a tree. -/
theorem In.at (h : p.In s parent) (hr : r ∈ p.refs) :
    ∃ (q : Planted κ) (above : Option Ref), q.ref? = some r ∧ q.In s above ∧ q.refs.Sublist p.refs ∧
      (p.tree.isSpelled = true → q.tree.isSpelled = true) := by
  induction p generalizing parent with
  | absent => cases hr
  | literal x v =>
    obtain rfl := List.mem_singleton.mp hr
    exact ⟨_, parent, rfl, h, List.Sublist.refl _, id⟩
  | var x n =>
    obtain rfl := List.mem_singleton.mp hr
    exact ⟨_, parent, rfl, h, List.Sublist.refl _, id⟩
  | binary x op p q ihp ihq =>
    simp only [refs, List.mem_append, List.mem_singleton] at hr
    rcases hr with (hr | hr) | rfl
    · obtain ⟨q', above, hq, hin, hsub, hsp⟩ := ihp h.2.1 hr
      refine ⟨q', above, hq, hin, ?_, fun hs => hsp ?_⟩
      · exact (hsub.trans (List.sublist_append_left _ _)).trans (List.sublist_append_left _ _)
      · simp only [tree, Tree.isSpelled, Bool.and_eq_true] at hs
        exact hs.1
    · obtain ⟨q', above, hq, hin, hsub, hsp⟩ := ihq h.2.2 hr
      refine ⟨q', above, hq, hin, ?_, fun hs => hsp ?_⟩
      · exact (hsub.trans (List.sublist_append_right _ _)).trans (List.sublist_append_left _ _)
      · simp only [tree, Tree.isSpelled, Bool.and_eq_true] at hs
        exact hs.2
    · exact ⟨_, parent, rfl, h, List.Sublist.refl _, id⟩
  | unary x op p ih =>
    simp only [refs, List.mem_append, List.mem_singleton] at hr
    rcases hr with hr | rfl
    · obtain ⟨q', above, hq, hin, hsub, hsp⟩ := ih h.2 hr
      exact ⟨q', above, hq, hin, hsub.trans (List.sublist_append_left _ _), hsp⟩
    · exact ⟨_, parent, rfl, h, List.Sublist.refl _, id⟩

/-- What is in a slot of a tree refers back to the owner of the slot. -/
theorem In.parent?_of_slot? (h : p.In s parent) (hr : r ∈ p.refs) (hs : s.slot? r slot = some x) :
    s.parent? x = some r := by
  obtain ⟨q, above, hq, hin, -, -⟩ := h.at hr
  rw [hin.slot?_eq hq] at hs
  exact (hin.child hq slot).parent?_eq hs

theorem refs_child_subset (p : Planted κ) (slot : Slot) : (p.child slot).refs ⊆ p.refs := by
  cases p <;> cases slot <;> simp [child, refs]

/-- What is in a slot of a tree is in the tree. -/
theorem In.mem_refs_of_slot? (h : p.In s parent) (hr : r ∈ p.refs) (hs : s.slot? r slot = some x) :
    x ∈ p.refs := by
  obtain ⟨q, above, hq, hin, hsub, -⟩ := h.at hr
  rw [hin.slot?_eq hq] at hs
  exact hsub.subset (refs_child_subset q slot (mem_refs_of_ref? hs))

theorem nodup_refs_child (h : p.refs.Nodup) (slot : Slot) : (p.child slot).refs.Nodup := by
  cases p <;> cases slot <;> simp_all [child, refs, List.nodup_append]

/-- The root is not below itself. -/
theorem notMem_refs_child (h : p.refs.Nodup) (hr : p.ref? = some r) (slot : Slot) :
    r ∉ (p.child slot).refs := by
  have hlast : p.refs = p.refs.dropLast ++ [r] ∧ (p.child slot).refs ⊆ p.refs.dropLast := by
    cases p <;> cases slot <;> simp_all [child, refs]
  rw [hlast.1, List.nodup_append] at h
  exact fun hmem => h.2.2 r (hlast.2 hmem) r List.mem_cons_self rfl

/-- No node is below two slots. -/
theorem slot_eq_of_mem_refs_child {slot slot' : Slot} (h : p.refs.Nodup)
    (hr : r ∈ (p.child slot).refs) (hr' : r ∈ (p.child slot').refs) : slot = slot' := by
  cases p <;> cases slot <;> cases slot' <;> simp_all [child, refs, List.nodup_append] <;> grind

theorem refs_part_subset (way : List Slot) (p : Planted κ) : (part way p).refs ⊆ p.refs := by
  induction way generalizing p with
  | nil => exact fun _ => id
  | cons slot way ih => exact fun x hx => refs_child_subset p slot (ih _ hx)

theorem mem_refs_of_part {way : List Slot} (hr : (part way p).ref? = some r) : r ∈ p.refs :=
  refs_part_subset way p (mem_refs_of_ref? hr)

/-- **A node of a tree is reached by one way.** -/
theorem part_injective {way way' : List Slot} (h : p.refs.Nodup) (hr : (part way p).ref? = some r)
    (hr' : (part way' p).ref? = some r) : way = way' := by
  induction way generalizing p way' with
  | nil =>
    cases way' with
    | nil => rfl
    | cons slot way' => exact absurd (mem_refs_of_part (p := p.child slot) hr') (notMem_refs_child h hr slot)
  | cons slot way ih =>
    cases way' with
    | nil => exact absurd (mem_refs_of_part (p := p.child slot) hr) (notMem_refs_child h hr' slot)
    | cons slot' way' =>
      have hmem : r ∈ (p.child slot).refs := mem_refs_of_part hr
      have hmem' : r ∈ (p.child slot').refs := mem_refs_of_part hr'
      obtain rfl := slot_eq_of_mem_refs_child h hmem hmem'
      rw [ih (nodup_refs_child h slot) hr hr']

end Planted

namespace Store

variable {κ : Type}

/-- The node at the end of a way down. -/
def descend (s : Store κ) : Option Ref → List Slot → Option Ref
  | r, [] => r
  | r, slot :: way => s.descend (r.bind fun x => s.slot? x slot) way

/-- **Strict ownership**: roots have no parent, a child refers back to the node that holds it, a node
is reached from one expression by one way only, and no node is reached and free, or free twice. -/
structure StrictlyOwned (s : Store κ) : Prop where
  root : ∀ {e r}, s.root? e = some r → ∃ c, s.node? r = some ⟨c, none⟩
  child : ∀ {e way r slot x}, s.descend (s.root? e) way = some r → s.slot? r slot = some x →
    ∃ c, s.node? x = some ⟨c, some r⟩
  once : ∀ {e e' way way' r}, s.descend (s.root? e) way = some r →
    s.descend (s.root? e') way' = some r → e = e' ∧ way = way'
  reached : ∀ {e way r}, s.descend (s.root? e) way = some r → r ∉ s.pool.spare
  spare : s.pool.spare.Nodup
  bound : ∀ r ∈ s.pool.spare, r < s.nodes.size

/-- An expression has the same tree in two stores: the same nodes with the same content. -/
structure Untouched (e : Expression) (s t : Store κ) : Prop where
  tree : t.expressionTree e = s.expressionTree e
  ways : ∀ way, t.descend (t.root? e) way = s.descend (s.root? e) way
  nodes : ∀ {way r}, s.descend (s.root? e) way = some r → t.node? r = s.node? r

variable {s t : Store κ} {b b' : Int} {c : Nat} {own own' : Holdings κ} {e : Expression}
  {p : Planted κ} {parent : Option Ref} {r : Ref}

theorem descend_none (s : Store κ) (way : List Slot) : s.descend none way = none := by
  induction way with
  | nil => rfl
  | cons slot way ih => exact ih

theorem descend_append (s : Store κ) (r : Option Ref) (way way' : List Slot) :
    s.descend r (way ++ way') = s.descend (s.descend r way) way' := by
  induction way generalizing r with
  | nil => rfl
  | cons slot way ih => exact ih _

/-- The ways down from the root of a planted tree are the ways of the tree. -/
theorem descend_eq (h : p.In s parent) (way : List Slot) :
    s.descend p.ref? way = (Planted.part way p).ref? := by
  induction way generalizing p parent with
  | nil => rfl
  | cons slot way ih =>
    cases hr : p.ref? with
    | none =>
      obtain rfl := Planted.eq_absent_of_ref? hr
      rw [Planted.part_absent]
      exact s.descend_none _
    | some r =>
      rw [descend, Option.bind_some, h.slot?_eq hr]
      exact ih (h.child hr slot)

/-! ## From holdings to strict ownership -/

/-- An expression that is listed can be listed first. -/
theorem perm_of_mem (he : (e, p) ∈ own) : ∃ rest, own.Perm ((e, p) :: rest) := by
  obtain ⟨l, r, rfl⟩ := List.append_of_mem he
  exact ⟨l ++ r, List.perm_middle⟩

/-- If there are no other expressions, every expression is listed. -/
theorem Holds.exists_mem (h : s.Holds b 0 own) (he : e.place < s.roots.size) : ∃ p, (e, p) ∈ own := by
  have hnd : (own.map fun x => x.1.place).Nodup := by
    have hmap : own.map (fun x => x.1.place) = (own.map (·.1)).map (·.place) := by
      rw [List.map_map]
      rfl
    rw [hmap]
    refine h.distinct.map ?_
    rintro ⟨i⟩ ⟨j⟩ hij
    exact congrArg Expression.mk hij
  have hsub : (own.map fun x => x.1.place) ⊆ List.range s.roots.size := by
    intro i hi
    obtain ⟨x, hx, rfl⟩ := List.mem_map.mp hi
    exact List.mem_range.mpr (h.lt_size (e := x.1) (p := x.2) hx)
  have hperm : (own.map fun x => x.1.place).Perm (List.range s.roots.size) := by
    refine (List.subperm_of_subset hnd hsub).perm_of_length_le ?_
    rw [List.length_range, List.length_map, h.size]
    omega
  obtain ⟨⟨e', p⟩, hx, hp⟩ := List.mem_map.mp (hperm.mem_iff.mpr (List.mem_range.mpr he))
  obtain rfl : e' = e := congrArg Expression.mk hp
  exact ⟨p, hx⟩

/-- What is reached from an expression is in its tree. -/
theorem Holds.reached (h : s.Holds b 0 own) {way : List Slot}
    (hr : s.descend (s.root? e) way = some r) :
    ∃ p, (e, p) ∈ own ∧ (Planted.part way p).ref? = some r := by
  cases hroot : s.root? e with
  | none =>
    rw [hroot, descend_none] at hr
    cases hr
  | some x =>
    obtain ⟨p, hp⟩ := h.exists_mem (lt_size_of_root? hroot)
    refine ⟨p, hp, ?_⟩
    rw [h.root?_eq hp, descend_eq (h.trees _ hp)] at hr
    exact hr

/-- Every part of a tree stands below the node that holds it. -/
theorem exists_in_part (h : p.In s parent) (way : List Slot) :
    ∃ parent', (Planted.part way p).In s parent' := by
  induction way generalizing p parent with
  | nil => exact ⟨parent, h⟩
  | cons slot way ih =>
    cases hr : p.ref? with
    | none =>
      obtain rfl := Planted.eq_absent_of_ref? hr
      rw [Planted.part_absent]
      exact ⟨parent, trivial⟩
    | some r => exact ih (h.child hr slot)

theorem exists_node?_of_in (h : p.In s parent) (hr : p.ref? = some r) :
    ∃ c, s.node? r = some ⟨c, parent⟩ := by
  cases p <;> simp_all [Planted.In]

/-- **A store that holds the trees of all expressions is strictly owned.** -/
theorem Holds.strictlyOwned (h : s.Holds b 0 own) : s.StrictlyOwned where
  root {e r} hr := by
    have hreach : s.descend (s.root? e) [] = some r := hr
    obtain ⟨p, hp, hpr⟩ := h.reached hreach
    exact exists_node?_of_in (h.trees _ hp) hpr
  child {e way r slot x} hr hx := by
    obtain ⟨p, hp, hpr⟩ := h.reached hr
    obtain ⟨parent, hin⟩ := exists_in_part (h.trees _ hp) way
    rw [hin.slot?_eq hpr] at hx
    exact exists_node?_of_in (hin.child hpr slot) hx
  once {e e' way way' r} hr hr' := by
    obtain ⟨p, hp, hpr⟩ := h.reached hr
    obtain ⟨p', hp', hpr'⟩ := h.reached hr'
    have hnd := List.nodup_flatMap.mp h.accounted.nodup_used
    have hsame : (e, p) = (e', p') := by
      by_contra hne
      -- two trees have no node in common
      have : Std.Symm (Function.onFun List.Disjoint fun x : Expression × Planted κ => x.2.refs) :=
        ⟨fun _ _ hd _ hx hy => hd hy hx⟩
      exact hnd.2.forall hp hp' hne (Planted.mem_refs_of_part hpr) (Planted.mem_refs_of_part hpr')
    cases hsame
    exact ⟨rfl, Planted.part_injective (hnd.1 _ hp) hpr hpr'⟩
  reached {e way r} hr hfree := by
    obtain ⟨p, hp, hpr⟩ := h.reached hr
    have hmem : r ∈ own.refs := subset_refs hp (Planted.mem_refs_of_part hpr)
    exact (List.nodup_append.mp h.accounted.nodup).2.2 r hmem r hfree rfl
  spare := (List.nodup_append.mp h.accounted.nodup).2.1
  bound r hr := h.accounted.bound r (List.mem_append_right _ hr)

/-- A tree that stands in two stores has the same nodes in both. -/
theorem node?_eq_of_in (h : p.In s parent) (h' : p.In t parent) (hr : r ∈ p.refs) :
    t.node? r = s.node? r := by
  induction p generalizing parent with
  | absent => cases hr
  | literal x v =>
    rw [List.mem_singleton.mp hr]
    exact Eq.trans h' (Eq.symm h)
  | var x n =>
    rw [List.mem_singleton.mp hr]
    exact Eq.trans h' (Eq.symm h)
  | binary x op p q ihp ihq =>
    simp only [Planted.refs, List.mem_append, List.mem_singleton] at hr
    rcases hr with (hr | hr) | rfl
    · exact ihp h.2.1 h'.2.1 hr
    · exact ihq h.2.2 h'.2.2 hr
    · exact h'.1.trans h.1.symm
  | unary x op p ih =>
    simp only [Planted.refs, List.mem_append, List.mem_singleton] at hr
    rcases hr with hr | rfl
    · exact ih h.2 h'.2 hr
    · exact h'.1.trans h.1.symm

/-- An expression listed with the same tree in two stores is untouched. -/
theorem Holds.untouched (h : s.Holds b c own) (h' : t.Holds b' c own') (he : (e, p) ∈ own)
    (he' : (e, p) ∈ own') : Untouched e s t where
  tree := (h'.expressionTree_eq he').trans (h.expressionTree_eq he).symm
  ways way := by
    rw [h.root?_eq he, h'.root?_eq he', descend_eq (h.trees _ he), descend_eq (h'.trees _ he')]
  nodes {way r} hr := by
    rw [h.root?_eq he, descend_eq (h.trees _ he)] at hr
    exact node?_eq_of_in (h.trees _ he) (h'.trees _ he') (Planted.mem_refs_of_part hr)

/-! ## From strict ownership to holdings -/

/-- The planted tree below a reference, read down to a depth. -/
def plantedTo (s : Store κ) : Nat → Option Ref → Planted κ
  | _, none => .absent
  | 0, some _ => .absent
  | depth + 1, some r =>
    match s.node? r with
    | none => .absent
    | some n =>
      match n.cell with
      | .literal v => .literal r v
      | .var name => .var r name
      | .binary op l r' => .binary r op (s.plantedTo depth l) (s.plantedTo depth r')
      | .unary op x => .unary r op (s.plantedTo depth x)

/-- The slots of a node that is known. -/
theorem slot?_eq {c : Cell κ} (hr : s.node? r = some ⟨c, parent⟩) (slot : Slot) :
    s.slot? r slot = c.slot? slot := by
  unfold slot?
  rw [hr]
  rfl

/-- Read down far enough, the planted tree stands in the store. -/
theorem in_plantedTo {depth : Nat} {root : Option Ref}
    (hends : ∀ way x, s.descend root way = some x → way.length < depth)
    (hroot : ∀ x, root = some x → ∃ c, s.node? x = some ⟨c, parent⟩)
    (hchild : ∀ way x slot y, s.descend root way = some x → s.slot? x slot = some y →
      ∃ c, s.node? y = some ⟨c, some x⟩) :
    (s.plantedTo depth root).ref? = root ∧ (s.plantedTo depth root).In s parent := by
  induction depth generalizing root parent with
  | zero =>
    cases root with
    | none => exact ⟨rfl, trivial⟩
    | some x => exact absurd (hends [] x rfl) (Nat.not_lt_zero _)
  | succ depth ih =>
    cases root with
    | none => exact ⟨rfl, trivial⟩
    | some x =>
      -- what is in a slot of the root is read down to one level less
      have hslot : ∀ slot, (s.plantedTo depth (s.slot? x slot)).ref? = s.slot? x slot ∧
          (s.plantedTo depth (s.slot? x slot)).In s (some x) := by
        intro slot
        refine ih ?_ ?_ ?_
        · intro way y hy
          have hlt := hends (slot :: way) y hy
          rw [List.length_cons] at hlt
          omega
        · exact fun y hy => hchild [] x slot y rfl hy
        · exact fun way y slot' z hy => hchild (slot :: way) y slot' z hy
      obtain ⟨c, hx⟩ := hroot x rfl
      have hs : ∀ slot, s.slot? x slot = c.slot? slot := slot?_eq hx
      cases c with
      | literal v => simp [plantedTo, hx, Planted.In]
      | var n => simp [plantedTo, hx, Planted.In]
      | binary op l r =>
        obtain ⟨hl, hli⟩ := hs .left ▸ hslot .left
        obtain ⟨hr, hri⟩ := hs .right ▸ hslot .right
        simp only [Cell.slot?] at hl hli hr hri
        simp only [plantedTo, hx, Planted.ref?_binary, Planted.In, hl, hr]
        exact ⟨trivial, trivial, hli, hri⟩
      | unary op y =>
        obtain ⟨hy, hyi⟩ := hs .operand ▸ hslot .operand
        simp only [Cell.slot?] at hy hyi
        simp only [plantedTo, hx, Planted.ref?_unary, Planted.In, hy]
        exact ⟨trivial, trivial, hyi⟩

/-- What is read is reached. -/
theorem descend_of_mem_plantedTo {depth : Nat} {root : Option Ref}
    (hr : r ∈ (s.plantedTo depth root).refs) : ∃ way, s.descend root way = some r := by
  induction depth generalizing root with
  | zero => cases root <;> simp [plantedTo, Planted.refs] at hr
  | succ depth ih =>
    cases root with
    | none => simp [plantedTo, Planted.refs] at hr
    | some x =>
      rw [plantedTo] at hr
      cases hx : s.node? x with
      | none => simp [hx, Planted.refs] at hr
      | some n =>
        obtain ⟨c, parent⟩ := n
        have below : ∀ slot, r ∈ (s.plantedTo depth (c.slot? slot)).refs →
            ∃ way, s.descend (some x) way = some r := by
          intro slot hmem
          obtain ⟨way, hway⟩ := ih hmem
          refine ⟨slot :: way, ?_⟩
          rw [descend, Option.bind_some, slot?_eq hx]
          exact hway
        cases c with
        | literal v =>
          simp only [hx, Planted.refs, List.mem_singleton] at hr
          exact ⟨[], congrArg some hr.symm⟩
        | var n =>
          simp only [hx, Planted.refs, List.mem_singleton] at hr
          exact ⟨[], congrArg some hr.symm⟩
        | binary op l r' =>
          simp only [hx, Planted.refs, List.mem_append, List.mem_singleton] at hr
          rcases hr with (hr | hr) | rfl
          · exact below .left hr
          · exact below .right hr
          · exact ⟨[], rfl⟩
        | unary op y =>
          simp only [hx, Planted.refs, List.mem_append, List.mem_singleton] at hr
          rcases hr with hr | rfl
          · exact below .operand hr
          · exact ⟨[], rfl⟩

/-- If every node is reached by one way, no node is read twice. -/
theorem nodup_plantedTo {depth : Nat} {root : Option Ref}
    (honce : ∀ way way' x, s.descend root way = some x → s.descend root way' = some x → way = way') :
    (s.plantedTo depth root).refs.Nodup := by
  induction depth generalizing root with
  | zero => cases root <;> simp [plantedTo, Planted.refs]
  | succ depth ih =>
    cases root with
    | none => simp [plantedTo, Planted.refs]
    | some x =>
      rw [plantedTo]
      cases hx : s.node? x with
      | none => simp [Planted.refs]
      | some n =>
        obtain ⟨c, parent⟩ := n
        have hdown : ∀ slot way, s.descend (c.slot? slot) way = s.descend (some x) (slot :: way) := by
          intro slot way
          rw [descend, Option.bind_some, slot?_eq hx]
        have hnd : ∀ slot, (s.plantedTo depth (c.slot? slot)).refs.Nodup := by
          intro slot
          refine ih fun way way' y hy hy' => ?_
          rw [hdown] at hy hy'
          exact (List.cons.inj (honce _ _ y hy hy')).2
        have hway : ∀ slot y, y ∈ (s.plantedTo depth (c.slot? slot)).refs →
            ∃ way, s.descend (some x) (slot :: way) = some y := by
          intro slot y hy
          obtain ⟨way, hway⟩ := descend_of_mem_plantedTo hy
          exact ⟨way, hdown slot way ▸ hway⟩
        have hroot : ∀ slot, ∀ y ∈ (s.plantedTo depth (c.slot? slot)).refs, y ≠ x := by
          rintro slot y hy rfl
          obtain ⟨way, hway⟩ := hway slot y hy
          cases honce _ [] y hway rfl
        cases c with
        | literal v => simp [Planted.refs]
        | var n => simp [Planted.refs]
        | binary op l r =>
          simp only [Planted.refs, List.nodup_append, List.mem_append, List.mem_singleton]
          refine ⟨⟨hnd .left, hnd .right, ?_⟩, List.nodup_singleton x, ?_⟩
          · rintro y hy _ hy' rfl
            obtain ⟨way, h₁⟩ := hway .left y hy
            obtain ⟨way', h₂⟩ := hway .right y hy'
            cases honce _ _ y h₁ h₂
          · rintro y (hy | hy) _ rfl
            · exact hroot .left y hy
            · exact hroot .right y hy
        | unary op y =>
          simp only [Planted.refs, List.nodup_append, List.mem_singleton]
          refine ⟨hnd .operand, List.nodup_singleton x, ?_⟩
          rintro z hz _ rfl
          exact hroot .operand z hz

/-- What is reached is a node of the store. -/
theorem StrictlyOwned.lt_size (h : s.StrictlyOwned) {way : List Slot}
    (hr : s.descend (s.root? e) way = some r) : r < s.nodes.size := by
  have hnode : ∃ n, s.node? r = some n := by
    rcases List.eq_nil_or_concat way with rfl | ⟨way, slot, rfl⟩
    · obtain ⟨c, hc⟩ := h.root hr
      exact ⟨_, hc⟩
    · rw [List.concat_eq_append, descend_append] at hr
      obtain ⟨x, hx, hslot⟩ := Option.bind_eq_some_iff.mp hr
      obtain ⟨c, hc⟩ := h.child hx hslot
      exact ⟨_, hc⟩
  obtain ⟨n, hn⟩ := hnode
  exact (Array.getElem?_eq_some_iff.mp hn).1

/-- If every node is reached by one way, no way is longer than the number of nodes: the nodes on it
are all different. -/
theorem length_lt_of_once {root : Option Ref} {way : List Slot}
    (honce : ∀ way way' x, s.descend root way = some x → s.descend root way' = some x → way = way')
    (hbound : ∀ way x, s.descend root way = some x → x < s.nodes.size)
    (hr : s.descend root way = some r) : way.length < s.nodes.size := by
  have hstep : ∀ i, ∃ x, s.descend root (way.take i) = some x := by
    intro i
    rw [← List.take_append_drop i way, descend_append] at hr
    cases hx : s.descend root (way.take i) with
    | none =>
      rw [hx, descend_none] at hr
      cases hr
    | some x => exact ⟨x, rfl⟩
  choose node hnode using hstep
  have hnd : ((List.range (way.length + 1)).map node).Nodup := by
    refine List.Nodup.map_on (fun i hi j hj hij => ?_) List.nodup_range
    rw [List.mem_range] at hi hj
    have hsame := honce _ _ _ (hnode i) (hij ▸ hnode j)
    have hlen := congrArg List.length hsame
    rw [List.length_take, List.length_take] at hlen
    omega
  have hsub : (List.range (way.length + 1)).map node ⊆ List.range s.nodes.size := by
    intro x hx
    obtain ⟨i, -, rfl⟩ := List.mem_map.mp hx
    exact List.mem_range.mpr (hbound _ _ (hnode i))
  have hlen := (List.subperm_of_subset hnd hsub).length_le
  rw [List.length_map, List.length_range, List.length_range] at hlen
  omega

theorem StrictlyOwned.length_lt (h : s.StrictlyOwned) {way : List Slot}
    (hr : s.descend (s.root? e) way = some r) : way.length < s.nodes.size :=
  length_lt_of_once (fun _ _ _ hx hx' => (h.once hx hx').2) (fun _ _ hx => h.lt_size hx) hr

/-- **A strictly owned store holds the trees of all expressions.** -/
theorem StrictlyOwned.holds (h : s.StrictlyOwned) : ∃ b own, s.Holds b 0 own := by
  let read : Nat → Expression × Planted κ := fun i =>
    (⟨i⟩, s.plantedTo s.nodes.size (s.root? ⟨i⟩))
  have hin : ∀ i, (read i).2.ref? = s.root? ⟨i⟩ ∧ (read i).2.In s none := fun i =>
    in_plantedTo (fun _ _ => h.length_lt) (fun _ => h.root) fun _ _ _ _ => h.child
  have hreach : ∀ i r, r ∈ (read i).2.refs → ∃ way, s.descend (s.root? ⟨i⟩) way = some r :=
    fun i r => descend_of_mem_plantedTo
  let own : Holdings κ := (List.range s.roots.size).map read
  have hmem : ∀ r ∈ own.refs, ∃ i way, s.descend (s.root? ⟨i⟩) way = some r := by
    intro r hr
    obtain ⟨x, hx, hr⟩ := List.mem_flatMap.mp hr
    obtain ⟨i, -, rfl⟩ := List.mem_map.mp hx
    exact ⟨i, hreach i r hr⟩
  have hrefs : own.refs.Nodup := by
    refine List.nodup_flatMap.mpr ⟨?_, ?_⟩
    · intro x hx
      obtain ⟨i, -, rfl⟩ := List.mem_map.mp hx
      exact nodup_plantedTo fun _ _ _ hr hr' => (h.once hr hr').2
    · refine List.pairwise_map.mpr (List.nodup_range.imp fun {i j} hij r hi hj => ?_)
      obtain ⟨way, hway⟩ := hreach i r hi
      obtain ⟨way', hway'⟩ := hreach j r hj
      exact hij (congrArg Expression.place (h.once hway hway').1)
  have hapart : s.Apart own.refs := by
    refine ⟨List.nodup_append.mpr ⟨hrefs, h.spare, ?_⟩, fun r hr => ?_⟩
    · rintro r hr _ hfree rfl
      obtain ⟨i, way, hway⟩ := hmem r hr
      exact h.reached hway hfree
    · rcases List.mem_append.mp hr with hr | hr
      · obtain ⟨i, way, hway⟩ := hmem r hr
        exact h.lt_size hway
      · exact h.bound r hr
  refine ⟨_, own, ?_, ?_, ?_, hapart.accounted, ?_⟩
  · rw [List.map_map]
    exact List.nodup_range.map fun i j hij => congrArg Expression.place hij
  · intro x hx
    obtain ⟨i, hi, rfl⟩ := List.mem_map.mp hx
    rw [(hin i).1]
    unfold root?
    rw [Array.getElem?_eq_getElem (List.mem_range.mp hi)]
    rfl
  · intro x hx
    obtain ⟨i, -, rfl⟩ := List.mem_map.mp hx
    exact (hin i).2
  · rw [List.length_map, List.length_range, Nat.zero_add]

/-! ## New stores -/

section Stocked

variable [Coefficient κ]

@[simp] theorem size_nodes_stockUp (k : Kind) (n : Nat) (s : Store κ) :
    (stockUp k n s).2.nodes.size = s.nodes.size + n := by
  induction n generalizing s with
  | zero => rfl
  | succ n ih =>
    have hext : (s.extend (Cell.blank k)).2.nodes.size = s.nodes.size + 1 := Array.size_push _
    rw [stockUp, ih, hext]
    omega

@[simp] theorem roots_stockUp (k : Kind) (n : Nat) (s : Store κ) :
    (stockUp k n s).2.roots = s.roots := by
  induction n generalizing s with
  | zero => rfl
  | succ n ih => exact ih _

/-- Stocking up adds new nodes at the end of the store. -/
@[simp] theorem refs_stockUp (k : Kind) (n : Nat) (s : Store κ) :
    (stockUp k n s).1 = List.range' s.nodes.size n := by
  induction n generalizing s with
  | zero => rfl
  | succ n ih =>
    have hext : (s.extend (Cell.blank k)).2.nodes.size = s.nodes.size + 1 := Array.size_push _
    have hrest := ih (s.extend (Cell.blank k)).2
    rw [hext] at hrest
    rw [stockUp, List.range'_succ, ← hrest]
    rfl

/-- Every node of a new store is free once. -/
theorem spare_stocked (initial room : Int) :
    (stocked initial room : Store κ).pool.spare =
      List.range' 0 (stocked initial room : Store κ).nodes.size := by
  have join : ∀ m n, List.range' 0 m ++ List.range' m n = List.range' 0 (m + n) := fun m n => by
    simpa using @List.range'_append_1 0 m n
  have hempty : (bare : Store κ).nodes.size = 0 := rfl
  simp only [stocked, newPool, Pool.spare, refs_stockUp, size_nodes_stockUp, hempty, Nat.zero_add,
    join]

theorem roots_stocked (initial room : Int) : (stocked initial room : Store κ).roots = #[] := by
  simp only [stocked, newPool, roots_stockUp]
  rfl

/-- **A new store is strictly owned.** -/
theorem stocked_strictlyOwned (initial room : Int) : (stocked initial room : Store κ).StrictlyOwned := by
  have hapart : (stocked initial room : Store κ).Apart [] := by
    refine ⟨?_, ?_⟩
    · rw [List.nil_append, spare_stocked]
      exact List.nodup_range' 1
    · intro r hr
      rw [List.nil_append, spare_stocked, List.mem_range'_1, Nat.zero_add] at hr
      exact hr.2
  have hempty : ∃ b, (stocked initial room : Store κ).Holds b 0 [] := by
    refine ⟨_, List.nodup_nil, ?_, ?_, hapart.accounted, ?_⟩
    · exact fun x hx => absurd hx List.not_mem_nil
    · exact fun x hx => absurd hx List.not_mem_nil
    · rw [roots_stocked]
      rfl
  obtain ⟨b, hempty⟩ := hempty
  exact hempty.strictlyOwned

end Stocked

end Store

end Fluxion
