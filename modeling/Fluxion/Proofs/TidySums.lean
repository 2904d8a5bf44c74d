import Fluxion.Proofs.Expansion
import Fluxion.Proofs.WholeDoubles
import Mathlib.Data.List.Induction

/-!
# Sums of Taylor terms, simplified

Folding leaves a sum of terms as it is, since every part of it that is not a literal mentions the variable.
One pass of the identities brings every term into a form that no further pass changes, so the simplified sum
depends on the terms alone: a coefficient that counts as zero is dropped with its term, one that counts as one
is left out, and a point that counts as zero is not subtracted.

An exponent from 171 on has a factorial that is not finite, so a finite coefficient there is a zero.

* `Simplifier.Rests` says that a pass leaves a tree alone.
* `TaylorPlan.tidySum` is the sum after a pass, and `TaylorPlan.isZero_tidySum` tells when nothing is left.
* `TaylorPlan.normalize_sumTree` is the simplified sum.
-/

namespace Fluxion

@[simp] theorem Tree.mentions_apply₂ {κ : Type} (n : Name) (o : Operation) (l r : Tree κ) :
    (apply₂ o l r).mentions n = (l.mentions n || r.mentions n) := rfl

/-! ## What a pass makes of an operation -/

namespace Simplifier

open Fluxion.Tree

variable {κ : Type} [Scalar κ] (σ : Simplifier κ) {o : Operation} {n : Name} {a c : κ} {k : Nat}
  {l r s s' t u u' : Tree κ}

/-- Only a literal counts as zero. -/
theorem isZero_eq_false (h : t.literal? = none) : σ.isZero t = false := by
  cases t with
  | literal v => cases h
  | _ => rfl

/-- Only a literal counts as one. -/
theorem isOne_eq_false (h : t.literal? = none) : σ.isOne t = false := by
  cases t with
  | literal v => cases h
  | _ => rfl

/-- A variable less a literal, after the identities. -/
def shifted (n : Name) (a : κ) : Tree κ :=
  if σ.isZero (literal a) then var n else apply₂ .sub (var n) (literal a)

/-- A power with a whole exponent above zero, after the identities. -/
def raised (s : Tree κ) (k : Nat) : Tree κ :=
  if k = 1 then s else apply₂ .pow s (literal (Coefficient.ofNat k))

/-- A literal times a tree, after the identities. -/
def scaled (c : κ) (u : Tree κ) : Tree κ :=
  if σ.isZero (literal c) then literal Scalar.zero
  else if σ.isOne (literal c) then u
  else apply₂ .mul (literal c) u

/-- A sum, after the identities. -/
def joined (t u : Tree κ) : Tree κ :=
  if σ.isZero u then t
  else if σ.isZero t then u
  else apply₂ .add t u

/-! ### Identities -/

theorem reduce_literal (c : κ) : σ.reduce (literal c) = literal c := rfl

theorem reduce_var (n : Name) : σ.reduce (var n) = var n := rfl

/-- An operation gets the identities of its operands first. -/
theorem reduce_apply₂ (hl : σ.reduce l = s) (hr : σ.reduce r = t) :
    σ.reduce (apply₂ o l r) =
      match σ.identity? o s t with
      | some outcome => outcome.result s t
      | none => apply₂ o s t := by
  have hhere : σ.reduce (apply₂ o l r) = σ.reduceHere (apply₂ o (σ.reduce l) (σ.reduce r)) := rfl
  have hrule : σ.rule? (apply₂ o s t) = σ.identity? o s t := rfl
  rw [hhere, hl, hr]
  unfold reduceHere
  rw [hrule]
  cases σ.identity? o s t with
  | none => rfl
  | some outcome => cases outcome <;> rfl

theorem reduce_sub_literal : σ.reduce (apply₂ .sub (var n) (literal a)) = σ.shifted n a := by
  have hagree : (var n).agrees σ.tolerance (literal a) = false := rfl
  rw [σ.reduce_apply₂ (σ.reduce_var n) (σ.reduce_literal a), identity?, hagree, shifted]
  by_cases ha : σ.isZero (literal a) = true
  · rw [if_pos ha, if_pos ha]
    rfl
  · rw [if_neg ha, if_neg ha]
    rfl

theorem reduce_pow_literal (hs : σ.reduce s = s') (hl : s'.literal? = none)
    (hzero : σ.isZero (literal (Coefficient.ofNat k)) = false)
    (hone : σ.isOne (literal (Coefficient.ofNat k)) = decide (k = 1)) :
    σ.reduce (apply₂ .pow s (literal (Coefficient.ofNat k))) = raised s' k := by
  rw [σ.reduce_apply₂ hs (σ.reduce_literal _), identity?, hzero, hone, σ.isZero_eq_false hl, σ.isOne_eq_false hl,
    raised]
  by_cases hk : k = 1
  · rw [if_pos hk, decide_eq_true hk]
    rfl
  · rw [if_neg hk, decide_eq_false hk]
    rfl

theorem reduce_literal_mul (hu : σ.reduce u = u')
    (hl : σ.isZero (literal c) = false → u'.literal? = none) :
    σ.reduce (apply₂ .mul (literal c) u) = σ.scaled c u' := by
  rw [σ.reduce_apply₂ (σ.reduce_literal c) hu, identity?, scaled]
  cases hc : σ.isZero (literal c) with
  | true => rfl
  | false =>
    rw [σ.isZero_eq_false (hl hc), σ.isOne_eq_false (hl hc)]
    cases hone : σ.isOne (literal c) <;> rfl

theorem reduce_add (ht : σ.reduce t = s) (hu : σ.reduce u = u') :
    σ.reduce (apply₂ .add t u) = σ.joined s u' := by
  rw [σ.reduce_apply₂ ht hu, identity?, joined]
  cases σ.isZero u' with
  | true => rfl
  | false => cases σ.isZero s <;> rfl

/-! ### Folding -/

/-- An operation that mentions the variable is not folded. -/
theorem fold_apply₂ (hl : σ.fold l = l) (hr : σ.fold r = r)
    (h : (apply₂ o l r).mentions σ.argument = true) : σ.fold (apply₂ o l r) = apply₂ o l r := by
  have hfoldable : σ.isFoldable (apply₂ o l r) = false := by
    rw [apply₂] at h ⊢
    rw [isFoldable, h]
    rfl
  have hfolded : σ.folded? (apply₂ o l r) = .ok none := by
    rw [folded?, hfoldable]
    rfl
  have hhere : σ.fold (apply₂ o l r) = σ.foldHere (apply₂ o (σ.fold l) (σ.fold r)) := rfl
  rw [hhere, hl, hr, foldHere, hfolded]

/-! ### What a pass leaves alone -/

/-- Neither folding nor an identity changes the tree. -/
structure Rests (t : Tree κ) : Prop where
  folded : σ.fold t = t
  reduced : σ.reduce t = t

theorem Rests.pass_eq (h : σ.Rests t) : σ.pass t = t := by
  rw [pass, h.folded, h.reduced]

theorem rests_literal (v : κ) : σ.Rests (literal v) := ⟨rfl, rfl⟩

theorem literal?_shifted : (σ.shifted n a).literal? = none := by
  unfold shifted
  split <;> rfl

theorem mentions_shifted : (σ.shifted n a).mentions n = true := by
  unfold shifted
  split <;> simp [Tree.mentions]

theorem rests_shifted : σ.Rests (σ.shifted σ.argument a) := by
  unfold shifted
  split
  · exact ⟨rfl, rfl⟩
  · refine ⟨σ.fold_apply₂ rfl rfl (by simp [Tree.mentions]), ?_⟩
    rw [reduce_sub_literal, shifted, if_neg ‹_›]

theorem literal?_raised (hs : s.literal? = none) : (raised s k).literal? = none := by
  unfold raised
  split
  · exact hs
  · rfl

theorem mentions_raised (hs : s.mentions n = true) : (raised s k).mentions n = true := by
  unfold raised
  split
  · exact hs
  · rw [mentions_apply₂, hs, Bool.true_or]

theorem Rests.raised (h : σ.Rests s) (hl : s.literal? = none) (hs : s.mentions σ.argument = true)
    (hzero : σ.isZero (literal (Coefficient.ofNat k)) = false)
    (hone : σ.isOne (literal (Coefficient.ofNat k)) = decide (k = 1)) : σ.Rests (raised s k) := by
  unfold Simplifier.raised
  split
  · exact h
  · refine ⟨σ.fold_apply₂ h.folded rfl (by rw [mentions_apply₂, hs, Bool.true_or]), ?_⟩
    rw [σ.reduce_pow_literal h.reduced hl hzero hone, Simplifier.raised, if_neg ‹_›]

theorem Rests.scaled (h : σ.isZero (literal c) = false → σ.Rests u)
    (hl : σ.isZero (literal c) = false → u.literal? = none)
    (hu : u.mentions σ.argument = true) : σ.Rests (σ.scaled c u) := by
  cases hc : σ.isZero (literal c) with
  | true =>
    rw [Simplifier.scaled, if_pos hc]
    exact σ.rests_literal _
  | false =>
    have hmul : σ.reduce (apply₂ .mul (literal c) u) = σ.scaled c u :=
      σ.reduce_literal_mul (h hc).reduced hl
    rw [Simplifier.scaled, hc, if_neg Bool.false_ne_true] at hmul ⊢
    cases hone : σ.isOne (literal c) with
    | true => exact h hc
    | false =>
      rw [hone] at hmul
      refine ⟨σ.fold_apply₂ rfl (h hc).folded ?_, hmul⟩
      rw [mentions_apply₂, hu, Bool.or_true]

theorem Rests.joined (ht : σ.Rests t) (hu : σ.Rests u)
    (hm : u.mentions σ.argument = true ∨ σ.isZero u = true) : σ.Rests (σ.joined t u) := by
  have hadd : σ.reduce (apply₂ .add t u) = σ.joined t u := σ.reduce_add ht.reduced hu.reduced
  rw [Simplifier.joined] at hadd ⊢
  by_cases hzero : σ.isZero u = true
  · rw [if_pos hzero]
    exact ht
  · rw [if_neg hzero] at hadd ⊢
    by_cases hzero' : σ.isZero t = true
    · rw [if_pos hzero']
      exact hu
    · rw [if_neg hzero'] at hadd ⊢
      refine ⟨σ.fold_apply₂ ht.folded hu.folded ?_, hadd⟩
      rw [mentions_apply₂, hm.resolve_right hzero, Bool.or_true]

end Simplifier

/-! ## The polynomial after a pass -/

namespace TaylorPlan

open Fluxion.Tree

variable (plan : TaylorPlan Float) {k : Nat} {c : Float} {x first : TaylorTerm Float}
  {terms later : List (TaylorTerm Float)} {ρ : Name → ℝ}

/-! ### Literals that count as zero or one -/

theorem threshold_eq : (Scalar.threshold : Float) = Float.ofBits 4457293557087583675 := by
  decide +kernel

theorem zero_eq : (Scalar.zero : Float) = Float.ofBits 0 := by
  decide +kernel

theorem one_eq : (Scalar.one : Float) = Float.ofBits 4607182418800017408 := by
  decide +kernel

theorem isZero_nought : (Binary64.ofFloat (Scalar.zero : Float)).isZero = true := by
  rw [zero_eq, Binary64.ofFloat_ofBits]
  rfl

/-- Of the exponents, which are above zero, none counts as zero and only one as one. -/
theorem counts_exponent (hk : 0 < k) (h : k ≤ 170) :
    plan.simplifier.isZero (literal (Coefficient.ofNat k)) = false ∧
      plan.simplifier.isOne (literal (Coefficient.ofNat k)) = decide (k = 1) := by
  -- bit patterns and words are cheaper to compute with than numerals
  have hall : ∀ k ≤ 170, 0 < k →
      Scalar.near (Float.ofBits 4457293557087583675) k.toUInt64.toFloat (Float.ofBits 0) = false ∧
      Scalar.near (Float.ofBits 4457293557087583675) k.toUInt64.toFloat
        (Float.ofBits 4607182418800017408) = decide (k = 1) := by
    decide +kernel
  have hk' : (Coefficient.ofNat k : Float) = k.toUInt64.toFloat := Doubles.ofNat_eq_toFloat (by omega)
  have hboth := hall k h hk
  rw [← threshold_eq, ← zero_eq, ← one_eq, ← hk'] at hboth
  exact hboth

/-- Both zeros count as zero. -/
theorem isZero_of_isZero (h : (Binary64.ofFloat c).isZero = true) :
    plan.simplifier.isZero (literal c) = true := by
  rw [← Binary64.beq_zero] at h
  rcases Binary64.eq_zero_of_beq h with rfl | rfl
  · have hnear : Scalar.near Scalar.threshold (0.0 : Float) Scalar.zero = true := by decide +kernel
    exact hnear
  · have hnear : Scalar.near Scalar.threshold (-0.0 : Float) Scalar.zero = true := by decide +kernel
    exact hnear

/-- Whether the coefficient of a term counts as zero. -/
def Vanishes (x : TaylorTerm Float) : Prop :=
  plan.simplifier.isZero (literal x.coefficient) = true

instance : Decidable (plan.Vanishes x) := inferInstanceAs (Decidable (_ = true))

theorem factorial_eq_foldl (h : k < 2 ^ 53) : (factorial k : Float) =
    (List.range k).foldl (fun product i => product * (i + 1).toUInt64.toFloat) Scalar.one := by
  induction k with
  | zero => rfl
  | succ k ih =>
    rw [List.range_succ, List.foldl_append, ← ih (Nat.lt_of_succ_lt h), List.foldl_cons, List.foldl_nil,
      ← Doubles.ofNat_eq_toFloat h]
    rfl

/-- The factorial is not finite from 171 on. -/
theorem isFinite_factorial (h : 171 ≤ k) : (factorial k : Float).isFinite = false := by
  induction k, h using Nat.le_induction with
  | base =>
    rw [factorial_eq_foldl (by decide)]
    decide +kernel
  | succ k _ ih => exact Doubles.isFinite_mul ih _

/-- The terms after the first: their coefficients are zero where the factorial is not finite. -/
def IsLater (x : TaylorTerm Float) : Prop :=
  0 < x.order ∧ (x.order ≤ 170 ∨ (Binary64.ofFloat x.coefficient).isZero = true)

/-- The terms of a build are the constant and later ones. -/
theorem exists_later {n : Nat} (h : TermsBelow (n + 1) terms)
    (hfinite : ∀ x ∈ terms, x.coefficient.isFinite = true) :
    ∃ first later, terms = first :: later ∧ first.order = 0 ∧ ∀ x ∈ later, IsLater x := by
  obtain ⟨horders, hcoefficients⟩ := h
  cases terms with
  | nil => cases (List.range_eq_nil.mp horders.symm)
  | cons first later =>
    rw [List.map_cons, List.range_succ_eq_map, List.cons.injEq] at horders
    refine ⟨first, later, rfl, horders.1, fun x hx => ?_⟩
    have hpos : 0 < x.order := by
      have hmem : x.order ∈ later.map TaylorTerm.order := List.mem_map_of_mem hx
      rw [horders.2] at hmem
      obtain ⟨i, -, hi⟩ := List.mem_map.mp hmem
      exact hi ▸ Nat.succ_pos i
    refine ⟨hpos, ?_⟩
    by_cases hsmall : x.order ≤ 170
    · exact .inl hsmall
    · have hquotient := hcoefficients x (List.mem_cons_of_mem _ hx)
      have hinfinite : (factorial x.order : Float).isFinite = false :=
        isFinite_factorial (Nat.lt_of_not_le hsmall)
      have hx' := hfinite x (List.mem_cons_of_mem _ hx)
      rw [hquotient] at hx'
      refine .inr ?_
      rw [hquotient]
      exact Doubles.isZero_div hinfinite hx'

/-! ### Trees -/

/-- The variable less the point, after the identities. -/
def tidyShift : Tree Float := plan.simplifier.shifted plan.argument plan.point

/-- A term that is no constant, after the identities. -/
def tidyTerm (x : TaylorTerm Float) : Tree Float :=
  plan.simplifier.scaled x.coefficient (Simplifier.raised plan.tidyShift x.order)

/-- The sum of a constant and later terms, after the identities. -/
def tidySum (c : Float) (later : List (TaylorTerm Float)) : Tree Float :=
  later.foldl (fun t x => plan.simplifier.joined t (plan.tidyTerm x)) (literal c)

theorem tidySum_append (c : Float) (later : List (TaylorTerm Float)) (x : TaylorTerm Float) :
    plan.tidySum c (later ++ [x]) = plan.simplifier.joined (plan.tidySum c later) (plan.tidyTerm x) := by
  rw [tidySum, List.foldl_append]
  rfl

variable {plan}

theorem IsLater.order_le (h : IsLater x) (hx : plan.simplifier.isZero (literal x.coefficient) = false) :
    x.order ≤ 170 := by
  refine h.2.resolve_right fun hzero => ?_
  rw [plan.isZero_of_isZero hzero] at hx
  cases hx

theorem literal?_tidyPower : (Simplifier.raised plan.tidyShift k).literal? = none :=
  Simplifier.literal?_raised plan.simplifier.literal?_shifted

theorem mentions_tidyPower :
    (Simplifier.raised plan.tidyShift k).mentions plan.simplifier.argument = true :=
  Simplifier.mentions_raised plan.simplifier.mentions_shifted

theorem IsLater.rests (h : IsLater x) : plan.simplifier.Rests (plan.tidyTerm x) := by
  refine .scaled _ (fun hx => ?_) (fun _ => literal?_tidyPower) mentions_tidyPower
  exact .raised _ plan.simplifier.rests_shifted plan.simplifier.literal?_shifted
    plan.simplifier.mentions_shifted (plan.counts_exponent h.1 (h.order_le hx)).1
    (plan.counts_exponent h.1 (h.order_le hx)).2

theorem not_vanishes_iff :
    ¬plan.Vanishes x ↔ plan.simplifier.isZero (literal x.coefficient) = false := by
  rw [Vanishes, Bool.not_eq_true]

theorem tidyTerm_of_vanishes (h : plan.Vanishes x) : plan.tidyTerm x = literal Scalar.zero :=
  if_pos h

/-- A term whose coefficient counts neither as zero nor as one keeps it. -/
theorem tidyTerm_eq (h : ¬plan.Vanishes x) : plan.tidyTerm x =
    if plan.simplifier.isOne (literal x.coefficient) then Simplifier.raised plan.tidyShift x.order
    else apply₂ .mul (literal x.coefficient) (Simplifier.raised plan.tidyShift x.order) :=
  if_neg h

/-- A later term counts as zero just if its coefficient does. -/
theorem isZero_tidyTerm : plan.simplifier.isZero (plan.tidyTerm x) = true ↔ plan.Vanishes x := by
  by_cases hx : plan.Vanishes x
  · rw [tidyTerm_of_vanishes hx]
    exact iff_of_true (plan.isZero_of_isZero isZero_nought) hx
  · have hpower : plan.simplifier.isZero (Simplifier.raised plan.tidyShift x.order) = false :=
      plan.simplifier.isZero_eq_false literal?_tidyPower
    refine iff_of_false ?_ hx
    rw [tidyTerm_eq hx]
    split
    · rw [hpower]
      exact Bool.false_ne_true
    · exact Bool.false_ne_true

theorem mentions_tidyTerm (hx : ¬plan.Vanishes x) :
    (plan.tidyTerm x).mentions plan.simplifier.argument = true := by
  rw [tidyTerm_eq hx]
  split
  · exact mentions_tidyPower
  · rw [mentions_apply₂, mentions_tidyPower, Bool.or_true]

/-- A sum of tidy terms is at rest. -/
theorem rests_tidySum (h : ∀ x ∈ later, IsLater x) :
    plan.simplifier.Rests (plan.tidySum c later) := by
  induction later using List.reverseRecOn with
  | nil => exact plan.simplifier.rests_literal c
  | append_singleton later x ih =>
    rw [List.forall_mem_append, List.forall_mem_singleton] at h
    rw [tidySum_append]
    refine .joined _ (ih h.1) h.2.rests ?_
    rw [isZero_tidyTerm]
    by_cases hx : plan.Vanishes x
    · exact .inr hx
    · exact .inl (mentions_tidyTerm hx)

/-- The sum of tidy terms counts as zero just if all terms do. -/
theorem isZero_tidySum : plan.simplifier.isZero (plan.tidySum c later) = true ↔
    plan.simplifier.isZero (literal c) = true ∧ ∀ x ∈ later, plan.Vanishes x := by
  induction later using List.reverseRecOn with
  | nil => exact ⟨fun h => ⟨h, List.forall_mem_nil _⟩, And.left⟩
  | append_singleton later x ih =>
    rw [tidySum_append, Simplifier.joined, List.forall_mem_append, List.forall_mem_singleton]
    by_cases hx : plan.Vanishes x
    · rw [if_pos (isZero_tidyTerm.mpr hx), ih]
      tauto
    · have hx' : ¬plan.simplifier.isZero (plan.tidyTerm x) = true := fun h => hx (isZero_tidyTerm.mp h)
      rw [if_neg hx']
      refine iff_of_false ?_ fun h => hx h.2.2
      split
      · exact hx'
      · exact Bool.false_ne_true

/-! ### The first pass -/

theorem sumTree_cons_append (first x : TaylorTerm Float) (later : List (TaylorTerm Float)) :
    plan.sumTree (first :: (later ++ [x])) =
      apply₂ .add (plan.sumTree (first :: later)) (plan.termTree x.order x.coefficient) := by
  have hne : (plan.sumTree (first :: later)).isAbsent = false :=
    plan.isAbsent_sumTree (List.cons_ne_nil _ _)
  rw [← List.cons_append, sumTree_append]
  generalize plan.sumTree (first :: later) = t at hne
  cases t with
  | absent => cases hne
  | _ => rfl

theorem sumTree_singleton (h : first.order = 0) : plan.sumTree [first] = literal first.coefficient := by
  unfold sumTree termTree
  rw [List.foldl_cons, List.foldl_nil, if_pos h]
  rfl

theorem mentions_termTree (hk : 0 < k) : (plan.termTree k c).mentions plan.argument = true := by
  unfold termTree
  rw [if_neg (Nat.ne_of_gt hk)]
  simp [Tree.mentions]

/-- Folding leaves a term alone, since every operation of it mentions the variable. -/
theorem fold_termTree (hk : 0 < k) : plan.simplifier.fold (plan.termTree k c) = plan.termTree k c := by
  have hargument : plan.simplifier.argument = plan.argument := rfl
  unfold termTree
  rw [if_neg (Nat.ne_of_gt hk)]
  refine plan.simplifier.fold_apply₂ rfl (plan.simplifier.fold_apply₂
    (plan.simplifier.fold_apply₂ rfl rfl ?_) rfl ?_) ?_
  all_goals simp [Tree.mentions, hargument]

/-- The identities make a term tidy. -/
theorem IsLater.reduce_termTree (h : IsLater x) :
    plan.simplifier.reduce (plan.termTree x.order x.coefficient) = plan.tidyTerm x := by
  have hshift : plan.simplifier.reduce (apply₂ .sub (var plan.argument) (literal plan.point)) =
      plan.tidyShift := plan.simplifier.reduce_sub_literal
  unfold termTree tidyTerm
  rw [if_neg (Nat.ne_of_gt h.1)]
  by_cases hx : plan.Vanishes x
  · -- whatever becomes of the power, the product counts as zero
    have hscaled : ∀ u, plan.simplifier.scaled x.coefficient u = literal Scalar.zero := fun _ => if_pos hx
    rw [plan.simplifier.reduce_literal_mul rfl fun hzero => absurd hx (not_vanishes_iff.mpr hzero),
      hscaled, hscaled]
  · have horder := h.order_le (not_vanishes_iff.mp hx)
    have hpower := plan.simplifier.reduce_pow_literal hshift plan.simplifier.literal?_shifted
      (plan.counts_exponent h.1 horder).1 (plan.counts_exponent h.1 horder).2
    exact plan.simplifier.reduce_literal_mul hpower fun _ => literal?_tidyPower

/-- **One pass makes a sum of terms tidy.** -/
theorem pass_sumTree (hfirst : first.order = 0) (h : ∀ x ∈ later, IsLater x) :
    plan.simplifier.pass (plan.sumTree (first :: later)) = plan.tidySum first.coefficient later := by
  have hboth : plan.simplifier.fold (plan.sumTree (first :: later)) = plan.sumTree (first :: later) ∧
      plan.simplifier.reduce (plan.sumTree (first :: later)) = plan.tidySum first.coefficient later := by
    induction later using List.reverseRecOn with
    | nil =>
      rw [sumTree_singleton hfirst]
      exact ⟨rfl, rfl⟩
    | append_singleton later x ih =>
      rw [List.forall_mem_append, List.forall_mem_singleton] at h
      obtain ⟨hfold, hreduce⟩ := ih h.1
      rw [sumTree_cons_append, tidySum_append]
      refine ⟨plan.simplifier.fold_apply₂ hfold (fold_termTree h.2.1) ?_,
        plan.simplifier.reduce_add hreduce h.2.reduce_termTree⟩
      have hargument : plan.simplifier.argument = plan.argument := rfl
      rw [mentions_apply₂, hargument, mentions_termTree h.2.1, Bool.or_true]
  rw [Simplifier.pass, hboth.1, hboth.2]

/-- **The simplified sum of terms.** -/
theorem normalize_sumTree (hfirst : first.order = 0) (h : ∀ x ∈ later, IsLater x) :
    plan.simplifier.normalize (plan.sumTree (first :: later)) =
      if plan.maxIterations ≤ 0 then plan.sumTree (first :: later)
      else plan.tidySum first.coefficient later := by
  have hiterations : plan.simplifier.maxIterations = plan.maxIterations := rfl
  unfold Simplifier.normalize
  rw [hiterations]
  split
  · rw [Int.toNat_of_nonpos ‹_›]
    rfl
  · obtain ⟨n, hn⟩ : ∃ n, plan.maxIterations.toNat = n + 1 := ⟨plan.maxIterations.toNat - 1, by omega⟩
    rw [hn]
    exact plan.simplifier.normalizeIn_eq_of_pass (pass_sumTree hfirst h) (rests_tidySum h).pass_eq n

end TaylorPlan

end Fluxion
