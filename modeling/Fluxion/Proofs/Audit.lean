import Fluxion.Proofs.Expansion
import Fluxion.Scalar.Double
import Fluxion.Store.Audit

/-!
# What a tree must be to be of use

The audit of a tree, its evaluation and its differentiation each have an opinion of what a tree must
be. They agree: the audit of a strict tree finds nothing wrong exactly when the tree has a value, given
values for its variables, and exactly when it has a derivative; if not, the other two meet an operation
or a slot without a meaning. The derivative of such a tree is such a tree again.

* `Tree.complaints` lists what is wrong with the nodes of a tree by themselves.
* `Store.violations_eq` says that the audit of a strict tree finds just that.
* `Tree.value_of_covers` says which trees have a value, and `Tree.mentions_of_derivative` which
  variables a derivative can have.
* `Work.evaluate_and_derive` joins the three.
-/

namespace Fluxion

open Act

/-! ## Values and derivatives of plain trees -/

/-- Whether a fault is that of an operation, or of a slot, without a meaning. -/
def Fault.isUnknown : Fault → Bool
  | unknownOperation _ | unknownNode => true
  | _ => false

namespace Valuation

variable {κ : Type} {ρ : Valuation κ} {op : Operator} {l r x : Tree κ}

/-- A valuation covers a tree if every variable of the tree has a value. -/
def Covers (ρ : Valuation κ) (t : Tree κ) : Prop := ∀ n, t.mentions n = true → (ρ n).isSome = true

theorem Covers.left (h : ρ.Covers (.binary op l r)) : ρ.Covers l :=
  fun n hn => h n (by rw [Tree.mentions, hn, Bool.true_or])

theorem Covers.right (h : ρ.Covers (.binary op l r)) : ρ.Covers r :=
  fun n hn => h n (by rw [Tree.mentions, hn, Bool.or_true])

end Valuation

namespace Recipe

variable {κ ι : Type}

/-- A recipe brings no variable of its own. -/
theorem mentions_fill {q : Recipe κ ι} {u du : ι → Tree κ} {n : Name}
    (h : (q.fill u du).mentions n = true) : ∃ i, (u i).mentions n = true ∨ (du i).mentions n = true := by
  induction q with
  | literal c => cases h
  | operand i => exact ⟨i, .inl h⟩
  | derivative i => exact ⟨i, .inr h⟩
  | binary op a b iha ihb | backward op a b iha ihb =>
    rw [fill, Tree.apply₂, Tree.mentions, Bool.or_eq_true] at h
    exact h.elim iha ihb
  | unary op a ih => exact ih h

end Recipe

namespace Tree

variable {κ : Type} {K : Kernel κ} {ρ : Valuation κ} {t d : Tree κ} {v n : Name}

/-- **Which trees have a value.** With values for all variables an operational tree has a value, and in
any other tree an operation or a slot without a meaning is met. -/
theorem value_of_covers (h : ρ.Covers t) :
    match t.value K ρ with
    | .ok _ => t.isOperational = true
    | .error f => t.isOperational = false ∧ f.isUnknown = true := by
  induction t with
  | absent => exact ⟨rfl, rfl⟩
  | literal c => rfl
  | var n =>
    obtain ⟨c, hc⟩ := Option.isSome_iff_exists.mp (h n (decide_eq_true rfl))
    rw [value, hc]
    rfl
  | binary op l r ihl ihr =>
    have hl := ihl h.left
    have hr := ihr h.right
    rw [value, isOperational]
    revert hl hr
    cases l.value K ρ with
    | error f => exact fun hl _ => ⟨by rw [hl.1, Bool.and_false, Bool.false_and], hl.2⟩
    | ok a =>
      cases r.value K ρ with
      | error f => exact fun _ hr => ⟨by rw [hr.1, Bool.and_false], hr.2⟩
      | ok b =>
        cases op.resolveArity 2 with
        | none => exact fun _ _ => ⟨rfl, rfl⟩
        | some o => exact fun hl hr => Bool.and_eq_true_iff.mpr ⟨hl, hr⟩
  | unary op x ih =>
    have hx := ih h
    rw [value, isOperational]
    revert hx
    cases x.value K ρ with
    | error f => exact fun hx => ⟨by rw [hx.1, Bool.and_false], hx.2⟩
    | ok a =>
      cases op.resolveArity 1 with
      | none => exact fun _ => ⟨rfl, rfl⟩
      | some o => exact id

variable [Coefficient κ]

/-- **A derivative has no other variables** than the tree it came from. -/
theorem mentions_of_derivative (h : t.derivative v = .ok d) (hn : d.mentions n = true) :
    t.mentions n = true := by
  induction t generalizing d with
  | absent => cases h
  | literal c | var m =>
    cases h
    cases hn
  | unary op x ih =>
    rw [derivative] at h
    split at h
    · cases h
    split at h
    · cases h
    rename_i dx hdx
    cases h
    obtain ⟨-, hx | hx⟩ := Recipe.mentions_fill hn
    · exact hx
    · exact ih hdx hx
  | binary op l r ihl ihr =>
    rw [mentions, Bool.or_eq_true]
    rw [derivative] at h
    split at h
    · cases h
    · -- a power with a literal exponent
      split at h
      · cases h
      rename_i dl hdl
      cases h
      obtain ⟨-, hl | hl⟩ := Recipe.mentions_fill hn
      · exact .inl hl
      · exact .inl (ihl hdl hl)
    · -- a power of a literal base
      split at h
      · cases h
      rename_i dr hdr
      cases h
      obtain ⟨-, hr | hr⟩ := Recipe.mentions_fill hn
      · exact .inr hr
      · exact .inr (ihr hdr hr)
    · split at h
      · cases h
      rename_i dl hdl
      split at h
      · cases h
      rename_i dr hdr
      cases h
      obtain ⟨_ | _, hi | hi⟩ := Recipe.mentions_fill hn
      · exact .inl hi
      · exact .inl (ihl hdl hi)
      · exact .inr hi
      · exact .inr (ihr hdr hi)

omit [Coefficient κ]

/-! ## The audit -/

/-- What is wrong with the nodes of a tree by themselves, a node before its operands and the right
operand before the left. -/
def complaints : Tree κ → List String
  | absent => []
  | literal _ => []
  | var n => Store.cellViolations (Cell.var n : Cell κ)
  | binary op l r =>
    Store.operationViolations 2 (!l.isAbsent && !r.isAbsent) op ++ (r.complaints ++ l.complaints)
  | unary op x => Store.operationViolations 1 (!x.isAbsent) op ++ x.complaints

/-- An operation node is in order if its operator means an operation with as many arguments as it has
slots, and all slots are filled. -/
theorem operationViolations_eq_nil {slots : Nat} {filled : Bool} {op : Operator} :
    Store.operationViolations slots filled op = [] ↔
      (op.resolveArity slots).isSome = true ∧ filled = true := by
  unfold Store.operationViolations Operator.resolveArity
  cases op.resolve with
  | none => simp
  | some o => by_cases ho : o.arity = slots <;> cases filled <;> simp [ho]

/-- A tree without complaints is well-formed, unless it is empty. -/
theorem complaints_eq_nil (h : t.isAbsent = false) : t.complaints = [] ↔ t.isWellFormed = true := by
  induction t with
  | absent => cases h
  | literal c => exact ⟨fun _ => rfl, fun _ => rfl⟩
  | var n => simp [complaints, Store.cellViolations, isWellFormed]
  | binary op l r ihl ihr =>
    simp only [complaints, isWellFormed, List.append_eq_nil_iff, operationViolations_eq_nil,
      Bool.and_eq_true, Bool.not_eq_true']
    constructor
    · rintro ⟨⟨hop, hl, hr⟩, hr', hl'⟩
      exact ⟨⟨hop, (ihl hl).mp hl'⟩, (ihr hr).mp hr'⟩
    · rintro ⟨⟨hop, hl⟩, hr⟩
      have hl' := isAbsent_of_isWellFormed hl
      have hr' := isAbsent_of_isWellFormed hr
      exact ⟨⟨hop, hl', hr'⟩, (ihr hr').mpr hr, (ihl hl').mpr hl⟩
  | unary op x ih =>
    simp only [complaints, isWellFormed, List.append_eq_nil_iff, operationViolations_eq_nil,
      Bool.and_eq_true, Bool.not_eq_true']
    constructor
    · rintro ⟨⟨hop, hx⟩, hx'⟩
      exact ⟨hop, (ih hx).mp hx'⟩
    · rintro ⟨hop, hx⟩
      have hx' := isAbsent_of_isWellFormed hx
      exact ⟨⟨hop, hx'⟩, (ih hx').mpr hx⟩

end Tree

namespace Store

variable {κ : Type} [Literal κ] {s : Store κ} {p q : Planted κ} {parent : Option Ref} {r : Ref}
  {a a' a'' : Audit} {depth : Nat}

/-- What an audit has done that went through a tree: it found the complaints of the tree, and saw its
nodes. -/
structure Through (p : Planted κ) (a a' : Audit) : Prop where
  found : a'.found = p.tree.complaints.reverse ++ a.found
  seen : ∀ r, r ∈ a'.seen ↔ r ∈ p.refs ∨ r ∈ a.seen

/-- The audit of what is in a slot. -/
def auditSlot (s : Store κ) (depth : Nat) (slot : Option Ref) (a : Audit) : Audit :=
  slot.toList.foldl (fun a c => s.auditTo depth c a) a

/-- An audit goes through a tree of which it has seen nothing. -/
def Audits (s : Store κ) (depth : Nat) (p : Planted κ) : Prop :=
  ∀ a : Audit, (∀ r ∈ p.refs, r ∉ a.seen) → Through p a (s.auditSlot depth p.ref? a)

/-- The children of a node that stands in a store refer back to it. -/
theorem linkViolations_eq_nil (h : ∀ c ∈ s.children r, s.parent? c = some r) :
    s.linkViolations r = [] := by
  unfold linkViolations
  refine List.filterMap_eq_nil_iff.mpr fun c hc => ?_
  rw [if_pos (h c hc)]

/-- The audit of a node that was not seen yet and whose children refer back to it. -/
theorem auditTo_succ {c : Cell κ} (hr : s.node? r = some ⟨c, parent⟩) (hseen : r ∉ a.seen)
    (hlinks : ∀ x ∈ c.children, s.parent? x = some r) :
    s.auditTo (depth + 1) r a =
      c.children.reverse.foldl (fun a x => s.auditTo depth x a) ((a.report (cellViolations c)).visit r) := by
  have hchildren : s.children r = c.children := Planted.children_eq hr
  have hlinked : s.linkViolations r = [] := linkViolations_eq_nil (hchildren ▸ hlinks)
  rw [auditTo, if_neg (by simpa using hseen), hlinked, hchildren, hr]
  simp only [List.append_nil]

theorem mem_visit {x : Ref} {found : List String} :
    x ∈ ((a.report found).visit r).seen ↔ x = r ∨ x ∈ a.seen := by
  simp only [Audit.visit, Audit.report, Std.HashSet.mem_insert, beq_iff_eq]
  exact or_congr_left eq_comm

omit [Literal κ] in
theorem isSome_ref? (p : Planted κ) : p.ref?.isSome = !p.tree.isAbsent := by
  cases p <;> rfl

omit [Literal κ] in
theorem isAbsent_tree (h : p ≠ .absent) : p.tree.isAbsent = false := by
  cases p with
  | absent => exact absurd rfl h
  | _ => rfl

omit [Literal κ] in
/-- The root of a planted tree refers back to the node above. -/
theorem parent?_of_mem_toList (h : p.In s parent) : ∀ x ∈ p.ref?.toList, s.parent? x = parent :=
  fun _ hx => h.parent?_eq (Option.mem_toList.mp hx)

/-- **The audit goes through every planted tree**, down to its depth. -/
theorem audits_of_in (h : p.In s parent) (hnd : p.refs.Nodup) (hd : p.tree.depth ≤ depth) :
    s.Audits depth p := by
  induction p generalizing parent depth with
  | absent => exact fun a _ => ⟨rfl, by simp [auditSlot, Planted.refs]⟩
  | literal r c | var r n =>
    obtain ⟨d, rfl⟩ := Nat.exists_eq_add_one.mpr hd
    intro a hseen
    rw [auditSlot, Planted.ref?, Option.toList_some, List.foldl_cons, List.foldl_nil,
      auditTo_succ h (hseen r List.mem_cons_self) (List.forall_mem_nil _)]
    refine ⟨rfl, fun x => mem_visit.trans ?_⟩
    rw [Planted.refs, List.mem_singleton]
  | binary r op p q ihp ihq =>
    obtain ⟨d, rfl, hdp, hdq⟩ := Tree.exists_of_depth_binary_le hd
    obtain ⟨hr, hp, hq⟩ := h
    simp only [Planted.refs, List.nodup_append, List.mem_singleton, List.mem_append] at hnd
    obtain ⟨⟨hndp, hndq, hpq⟩, -, hroot⟩ := hnd
    intro a hseen
    simp only [Planted.refs, List.mem_append, List.mem_singleton] at hseen
    have hlinks : ∀ x ∈ (Cell.binary op p.ref? q.ref? : Cell κ).children, s.parent? x = some r :=
      List.forall_mem_append.mpr ⟨parent?_of_mem_toList hp, parent?_of_mem_toList hq⟩
    rw [auditSlot, Planted.ref?, Option.toList_some, List.foldl_cons, List.foldl_nil,
      auditTo_succ hr (hseen r (.inr rfl)) hlinks, reverse_children_binary, List.foldl_append]
    have hunseen : ∀ x, (x ∈ p.refs ∨ x ∈ q.refs) →
        x ∉ ((a.report (cellViolations (Cell.binary op p.ref? q.ref? : Cell κ))).visit r).seen :=
      fun x hx hx' => (mem_visit.mp hx').elim (hroot x hx r rfl) (hseen x (.inl hx))
    -- the right operand is audited first, then the left one
    have hright := ihq hq hndq hdq _ fun x hx => hunseen x (.inr hx)
    have hleft := ihp hp hndp hdp _ fun x hx hx' =>
      ((hright.seen x).mp hx').elim (fun hx'' => hpq x hx x hx'' rfl) (hunseen x (.inl hx))
    refine ⟨?_, fun x => ?_⟩
    · refine hleft.found.trans ?_
      rw [hright.found]
      simp [Audit.visit, Audit.report, Planted.tree, Tree.complaints, cellViolations, isSome_ref?]
    · refine (hleft.seen x).trans ?_
      rw [hright.seen x, mem_visit, Planted.refs]
      simp only [List.mem_append, List.mem_singleton]
      tauto
  | unary r op p ih =>
    obtain ⟨d, rfl, hdp⟩ := Tree.exists_of_depth_unary_le hd
    obtain ⟨hr, hp⟩ := h
    simp only [Planted.refs, List.nodup_append, List.mem_singleton] at hnd
    obtain ⟨hndp, -, hroot⟩ := hnd
    intro a hseen
    simp only [Planted.refs, List.mem_append, List.mem_singleton] at hseen
    rw [auditSlot, Planted.ref?, Option.toList_some, List.foldl_cons, List.foldl_nil,
      auditTo_succ hr (hseen r (.inr rfl)) (parent?_of_mem_toList hp), reverse_children_unary]
    have hbelow := ih hp hndp hdp
      ((a.report (cellViolations (Cell.unary op p.ref? : Cell κ))).visit r) fun x hx hx' =>
        (mem_visit.mp hx').elim (hroot x hx r rfl) (hseen x (.inl hx))
    refine ⟨?_, fun x => ?_⟩
    · refine hbelow.found.trans ?_
      simp [Audit.visit, Audit.report, Planted.tree, Tree.complaints, cellViolations, isSome_ref?]
    · refine (hbelow.seen x).trans ?_
      rw [mem_visit, Planted.refs]
      simp only [List.mem_append, List.mem_singleton]
      tauto

/-- **The audit of a strict tree** finds what is wrong with its nodes by themselves, and no more. -/
theorem violations_eq {used : List Ref} (h : p.Stands s used none) (ha : s.Apart used) :
    s.violations p.ref? = p.tree.complaints := by
  cases hr : p.ref? with
  | none =>
    rw [Planted.eq_absent_of_ref? hr]
    rfl
  | some r =>
    have hdepth : p.tree.depth ≤ s.nodes.size + 1 := Nat.le_succ_of_le (h.depth_le ha)
    have hthrough := audits_of_in h.isIn h.nodup hdepth .start fun _ _ => Std.HashSet.not_mem_empty
    have hfound : (s.auditTo (s.nodes.size + 1) r .start).found = p.tree.complaints.reverse := by
      have := hthrough.found
      rw [hr] at this
      simpa [auditSlot, Audit.start] using this
    rw [violations, h.isIn.parent?_eq hr, Option.isSome_none, if_neg Bool.false_ne_true, List.nil_append,
      Audit.violations, hfound, List.reverse_reverse]

/-- **A strict tree is sound** if it is well-formed, and otherwise only if it is empty. -/
theorem isSound_iff {used : List Ref} (h : p.Stands s used none) (ha : s.Apart used)
    (hne : p ≠ .absent) : s.isSound p.ref? = true ↔ p.tree.isWellFormed = true := by
  rw [isSound, violations_eq h ha, List.isEmpty_iff, Tree.complaints_eq_nil (isAbsent_tree hne)]

/-- Nothing is wrong with a valid tree. -/
theorem isSound_of_valid {used : List Ref} (h : p.Stands s used none) (ha : s.Apart used)
    (hv : p.tree.Valid) : s.isSound p.ref? = true := by
  rw [isSound, violations_eq h ha, List.isEmpty_iff]
  rcases hv with hv | hv
  · rw [hv]
    rfl
  · exact (Tree.complaints_eq_nil (Tree.isAbsent_of_isWellFormed hv)).mpr hv

end Store

/-! ## The three opinions -/

namespace Work

variable {κ : Type} [Scalar κ] [Literal κ] {w : Workspace κ} {p : Planted κ} {used : List Ref}

/-- **Audit, evaluation and differentiation agree** on any strict tree whose names are letters. A tree
that is evaluated with values for all its variables, or differentiated by any variable, is sound; where
that fails, the tree is not sound, and an operation or a slot without a meaning is to blame. A derivative
is sound again and has no other variables. -/
theorem evaluate_and_derive (h : p.Stands w.store used none) (ha : w.store.Apart used) (hne : p ≠ .absent)
    (hs : p.tree.isSpelled = true) :
    (∀ ρ : Valuation κ, ρ.Covers p.tree → (evaluate ρ p.ref?).Ensures w
      (fun _ _ => w.store.isSound p.ref? = true)
      fun f _ => w.store.isSound p.ref? = false ∧ f.isUnknown = true) ∧
    ∀ v : Name, (derive v p.ref?).Ensures w
      (fun d w' => w.store.isSound p.ref? = true ∧ w'.store.isSound d = true ∧
        ∀ n, (w'.store.tree d).mentions n = true → p.tree.mentions n = true)
      fun f _ => w.store.isSound p.ref? = false ∧ ∃ op, f = .unknownOperation op := by
  have hsound : w.store.isSound p.ref? = true ↔ p.tree.isOperational = true := by
    rw [Store.isSound_iff h ha hne, Tree.isWellFormed_iff, and_iff_left hs]
  have hunsound : w.store.isSound p.ref? = false ↔ p.tree.isOperational = false := by
    rw [← Bool.not_eq_true, ← Bool.not_eq_true, hsound]
  refine ⟨fun ρ hρ => ?_, fun v => ?_⟩
  · have hvalue := Tree.value_of_covers (K := .guarded) hρ
    have heval : (w.store.tree p.ref?).evaluate ρ = p.tree.value .guarded ρ := by
      rw [h.tree_eq ha, Tree.evaluate_eq_value _ (Store.isAbsent_tree hne)]
    refine Ensures.mono (evaluate_spec ρ p.ref? w) ?_ ?_
    · rintro a - ⟨ha', -⟩
      rw [← heval, ha'] at hvalue
      exact hsound.mpr hvalue
    · rintro f - ⟨hf, -⟩
      rw [← heval, hf] at hvalue
      exact ⟨hunsound.mpr hvalue.1, hvalue.2⟩
  · refine Ensures.mono (derive_spec h ha.accounted) ?_ ?_
    · rintro _ w' ⟨q, hd, rfl, hq, hm⟩
      obtain ⟨hp, hop⟩ := Tree.isOperational_of_derivative hd
      have hstands := hm.stands.stands hm.accounted.toApart
      have hne' : q ≠ .absent := by
        rintro rfl
        cases hop
      refine ⟨hsound.mpr hp, ?_, fun n hn => ?_⟩
      · exact (Store.isSound_iff hstands hm.accounted.toApart hne').mpr (q.tree.isWellFormed_iff.mpr ⟨hop, hq⟩)
      · rw [hstands.tree_eq hm.accounted.toApart] at hn
        exact Tree.mentions_of_derivative hd hn
    · rintro f w' (⟨hd, -, -⟩ | ⟨hs', -⟩)
      · refine ⟨hunsound.mpr (Bool.eq_false_iff.mpr fun hop => ?_), _, rfl⟩
        obtain ⟨d, hd'⟩ := Tree.exists_derivative v hop
        cases hd.symm.trans hd'
      · rw [hs] at hs'
        cases hs'

/-- The tree of `x / 2` in a new store; its operation is given by its bare code. -/
def halved : Planted Float := .binary 2 (.code 3) (.var 0 (some "x")) (.literal 1 2)

/-- A workspace in which this tree stands. -/
def withHalved : Workspace Float :=
  ⟨((Store.plant halved.tree).perform (.stocked 4 2)).2, .opened .minimal, []⟩

/-- The tree is sound, so it has a value where `x` has one, and a sound derivative. -/
theorem evaluate_and_derive_halved :
    halved.Stands withHalved.store halved.refs none ∧ withHalved.store.Apart halved.refs ∧
      halved ≠ .absent ∧ halved.tree.isSpelled = true ∧
      (derive (some "x") (some 2)).Succeeds withHalved fun d w' => w'.store.isSound d = true := by
  have hstands : halved.Stands withHalved.store halved.refs none :=
    ⟨⟨rfl, rfl, rfl⟩, List.Subset.refl _, by decide⟩
  have hapart : withHalved.store.Apart halved.refs := ⟨by decide +kernel, by decide +kernel⟩
  have hne : halved ≠ .absent := nofun
  have hspelled : halved.tree.isSpelled = true := by decide
  have hsound : withHalved.store.isSound (some 2) = true :=
    (Store.isSound_iff hstands hapart hne).mpr (by decide)
  obtain ⟨-, hderive⟩ := evaluate_and_derive hstands hapart hne hspelled
  refine ⟨hstands, hapart, hne, hspelled, Ensures.mono (hderive (some "x")) (fun _ _ hd => hd.2.1) ?_⟩
  rintro - - ⟨hf, -⟩
  exact nomatch hf.symm.trans hsound

end Work

end Fluxion
