import Fluxion.Proofs.Preservation
import Fluxion.Proofs.Runs
import Fluxion.Proofs.TidySums

/-!
# Taylor polynomials are the sums of their terms

In exact arithmetic a Taylor polynomial is the sum of its terms, save where the simplification at the end
takes a number for zero or one. Then a coefficient is dropped or is one, and the point is nought. The constant
is dropped only where another term stays.

* `TaylorPlan.termSum` is the sum of the terms as real numbers, with what the simplification makes of them.
* `TaylorPlan.meaning_tidySum` and `TaylorPlan.meaning_sumTree` are the sums with simplification and without.
* `TaylorPlan.meaning_build` is the polynomial of a build.
-/

namespace Fluxion

namespace Tree

/-- The tree with the real numbers that its literals are. -/
noncomputable def toReal : Tree Float → Tree ℝ
  | absent => absent
  | literal v => literal (Doubles.value v)
  | var n => var n
  | binary op l r => binary op l.toReal r.toReal
  | unary op x => unary op x.toReal

end Tree

namespace TaylorPlan

open Fluxion.Tree

variable {plan : TaylorPlan Float} {k : Nat} {c : Float} {x first : TaylorTerm Float}
  {terms later : List (TaylorTerm Float)} {ρ : Name → ℝ}

/-! ## The meaning of the polynomial -/

variable (plan)

/-- The point as the polynomial has it: a point that counts as zero is zero after the identities. -/
noncomputable def pointValue : ℝ :=
  if 0 < plan.maxIterations ∧ plan.simplifier.isZero (literal plan.point) = true then 0
  else Doubles.value plan.point

/-- The coefficient of a later term as the identities leave it. -/
noncomputable def countedValue (c : Float) : ℝ :=
  if plan.simplifier.isZero (literal c) then 0
  else if plan.simplifier.isOne (literal c) then 1
  else Doubles.value c

/-- The constant as the identities leave it: if it counts as zero, it goes once there is another term. -/
noncomputable def constantValue (c : Float) (later : List (TaylorTerm Float)) : ℝ :=
  if plan.simplifier.isZero (literal c) = true ∧ ∃ x ∈ later, ¬plan.Vanishes x then 0
  else Doubles.value c

/-- The coefficient of a term as the polynomial of the terms has it. -/
noncomputable def coefficientValue (terms : List (TaylorTerm Float)) (x : TaylorTerm Float) : ℝ :=
  if plan.maxIterations ≤ 0 then Doubles.value x.coefficient
  else if x.order = 0 then plan.constantValue x.coefficient terms.tail
  else plan.countedValue x.coefficient

/-- The sum of the terms at a number. -/
noncomputable def termSum (terms : List (TaylorTerm Float)) (v : ℝ) : ℝ :=
  (terms.map fun x => plan.coefficientValue terms x * (v - plan.pointValue) ^ x.order).sum

variable {plan}

theorem meaning_power {t : Tree Float} {a : ℝ} {n : ℕ} (ht : t.toReal.meaning ρ = some a)
    (hc : Doubles.value c = n) : (apply₂ .pow t (literal c)).toReal.meaning ρ = some (a ^ n) := by
  have hdomain : Operation.pow.Domain₂ a n := by
    rcases lt_trichotomy a 0 with h | h | h
    · exact .inr (.inl ⟨h, n, rfl⟩)
    · exact .inr (.inr ⟨h, Nat.cast_nonneg n⟩)
    · exact .inl h
  have hexponent : (literal c).toReal.meaning ρ = some (n : ℝ) := congrArg some hc
  have hpower : Operation.pow.real₂ a n = a ^ n := Real.rpow_natCast a n
  rw [← hpower]
  exact meaning_apply₂ rfl ht hexponent hdomain

theorem meaning_sum {t u : Tree Float} {a b : ℝ} (ht : t.toReal.meaning ρ = some a)
    (hu : u.toReal.meaning ρ = some b) : (apply₂ .add t u).toReal.meaning ρ = some (a + b) :=
  meaning_apply₂ rfl ht hu trivial

theorem meaning_multiple {u : Tree Float} {b : ℝ} (hu : u.toReal.meaning ρ = some b) :
    (apply₂ .mul (literal c) u).toReal.meaning ρ = some (Doubles.value c * b) :=
  meaning_apply₂ rfl rfl hu trivial

theorem meaning_difference (n : Name) (c : Float) :
    (apply₂ .sub (var n) (literal c)).toReal.meaning ρ = some (ρ n - Doubles.value c) :=
  meaning_apply₂ rfl rfl rfl trivial

/-! ### After a pass -/

theorem meaning_tidyShift (hmax : 0 < plan.maxIterations) :
    plan.tidyShift.toReal.meaning ρ = some (ρ plan.argument - plan.pointValue) := by
  unfold tidyShift Simplifier.shifted pointValue
  by_cases hpoint : plan.simplifier.isZero (literal plan.point) = true
  · rw [if_pos hpoint, if_pos ⟨hmax, hpoint⟩, sub_zero]
    rfl
  · rw [if_neg hpoint, if_neg fun h => hpoint h.2]
    exact meaning_difference _ _

theorem meaning_tidyPower (hmax : 0 < plan.maxIterations) (hk : k ≤ 170) :
    (Simplifier.raised plan.tidyShift k).toReal.meaning ρ =
      some ((ρ plan.argument - plan.pointValue) ^ k) := by
  have hshift : plan.tidyShift.toReal.meaning ρ = some (ρ plan.argument - plan.pointValue) :=
    meaning_tidyShift hmax
  unfold Simplifier.raised
  split
  · rw [‹k = 1›, pow_one]
    exact hshift
  · exact meaning_power hshift (Doubles.value_ofNat (by omega))

/-- The coefficient times the power, where a coefficient that counts as zero or one is that. -/
theorem IsLater.meaning_tidyTerm (h : IsLater x) (hmax : 0 < plan.maxIterations) :
    (plan.tidyTerm x).toReal.meaning ρ =
      some (plan.countedValue x.coefficient * (ρ plan.argument - plan.pointValue) ^ x.order) := by
  unfold countedValue
  by_cases hx : plan.simplifier.isZero (literal x.coefficient) = true
  · have hnought : Doubles.value (Scalar.zero : Float) = 0 := Doubles.value_of_isZero isZero_nought
    rw [if_pos hx, zero_mul, tidyTerm_of_vanishes hx, ← hnought]
    rfl
  · have hpower : (Simplifier.raised plan.tidyShift x.order).toReal.meaning ρ =
        some ((ρ plan.argument - plan.pointValue) ^ x.order) :=
      meaning_tidyPower hmax (h.order_le (Bool.eq_false_iff.mpr hx))
    rw [if_neg hx, tidyTerm_eq hx]
    by_cases hone : plan.simplifier.isOne (literal x.coefficient) = true
    · rw [if_pos hone, if_pos hone, one_mul]
      exact hpower
    · rw [if_neg hone, if_neg hone]
      exact meaning_multiple hpower

/-- The later terms have no value if their coefficients count as zero. -/
theorem sum_eq_zero_of_vanishes {v : ℝ} (h : ∀ x ∈ later, plan.Vanishes x) :
    (later.map fun x => plan.countedValue x.coefficient * v ^ x.order).sum = 0 := by
  refine List.sum_eq_zero fun y hy => ?_
  obtain ⟨x, hx, rfl⟩ := List.mem_map.mp hy
  have hzero : plan.countedValue x.coefficient = 0 := if_pos (h x hx)
  rw [hzero, zero_mul]

theorem constantValue_nil : plan.constantValue c [] = Doubles.value c :=
  if_neg fun h => by
    obtain ⟨x, hx, -⟩ := h.2
    cases hx

theorem constantValue_append_of_vanishes (hx : plan.Vanishes x) :
    plan.constantValue c (later ++ [x]) = plan.constantValue c later := by
  have hexists : (∃ y ∈ later ++ [x], ¬plan.Vanishes y) ↔ ∃ y ∈ later, ¬plan.Vanishes y := by
    simp only [List.mem_append, List.mem_singleton, or_and_right, exists_or, exists_eq_left, hx,
      not_true_eq_false, or_false]
  exact if_congr (and_congr_right fun _ => hexists) rfl rfl

theorem constantValue_append_eq_zero (hc : plan.simplifier.isZero (literal c) = true)
    (hx : ¬plan.Vanishes x) : plan.constantValue c (later ++ [x]) = 0 :=
  if_pos ⟨hc, x, List.mem_append_right _ List.mem_cons_self, hx⟩

/-- A sum that does not count as zero has its constant already as it will be. -/
theorem constantValue_append_of_not_isZero (h : ¬plan.simplifier.isZero (plan.tidySum c later) = true) :
    plan.constantValue c (later ++ [x]) = plan.constantValue c later := by
  by_cases hc : plan.simplifier.isZero (literal c) = true
  · have hexists : ∃ y ∈ later, ¬plan.Vanishes y := by
      by_contra hnone
      exact h (isZero_tidySum.mpr ⟨hc, fun y hy => not_not.mp fun hy' => hnone ⟨y, hy, hy'⟩⟩)
    obtain ⟨y, hy, hy'⟩ := hexists
    exact (if_pos ⟨hc, y, List.mem_append_left _ hy, hy'⟩).trans (if_pos ⟨hc, y, hy, hy'⟩).symm
  · exact (if_neg fun h => hc h.1).trans (if_neg fun h => hc h.1).symm

theorem meaning_tidySum (hmax : 0 < plan.maxIterations) (h : ∀ x ∈ later, IsLater x) :
    (plan.tidySum c later).toReal.meaning ρ = some (plan.constantValue c later +
      (later.map fun x => plan.countedValue x.coefficient *
        (ρ plan.argument - plan.pointValue) ^ x.order).sum) := by
  induction later using List.reverseRecOn with
  | nil =>
    rw [constantValue_nil, List.map_nil, List.sum_nil, add_zero]
    rfl
  | append_singleton later x ih =>
    rw [List.forall_mem_append, List.forall_mem_singleton] at h
    have hsum := ih h.1
    have hterm := h.2.meaning_tidyTerm (ρ := ρ) hmax
    rw [tidySum_append, Simplifier.joined, List.map_append, List.sum_append, List.map_singleton,
      List.sum_singleton, ← add_assoc]
    by_cases hx : plan.Vanishes x
    · -- the last term is dropped
      have hzero : plan.countedValue x.coefficient = 0 := if_pos hx
      rw [if_pos (isZero_tidyTerm.mpr hx), hzero, zero_mul, add_zero,
        constantValue_append_of_vanishes hx]
      exact hsum
    · rw [if_neg (isZero_tidyTerm.not.mpr hx)]
      by_cases hall : plan.simplifier.isZero (plan.tidySum c later) = true
      · -- all that came before the last term is dropped
        obtain ⟨hc, hlater⟩ := isZero_tidySum.mp hall
        rw [if_pos hall, constantValue_append_eq_zero hc hx, sum_eq_zero_of_vanishes hlater, zero_add,
          zero_add]
        exact hterm
      · rw [if_neg hall, constantValue_append_of_not_isZero hall]
        exact meaning_sum hsum hterm

/-! ### Without a pass -/

/-- A term means its coefficient times the power. Where the exponent is rounded the coefficient is zero; the
exponent still is whole, so that the power has a value. -/
theorem IsLater.meaning_termTree (h : IsLater x) :
    (plan.termTree x.order x.coefficient).toReal.meaning ρ = some (Doubles.value x.coefficient *
      (ρ plan.argument - Doubles.value plan.point) ^ x.order) := by
  have hterm : ∀ {n : ℕ}, Doubles.value (Coefficient.ofNat x.order) = n →
      (plan.termTree x.order x.coefficient).toReal.meaning ρ = some (Doubles.value x.coefficient *
        (ρ plan.argument - Doubles.value plan.point) ^ n) := by
    intro n hn
    rw [termTree, if_neg (Nat.ne_of_gt h.1)]
    exact meaning_multiple (meaning_power (meaning_difference plan.argument plan.point) hn)
  by_cases hsmall : x.order ≤ 170
  · exact hterm (Doubles.value_ofNat (by omega))
  · obtain ⟨n, hn⟩ := Doubles.exists_value_ofNat x.order
    have hzero := Doubles.value_of_isZero (h.2.resolve_left hsmall)
    rw [hterm hn, hzero, zero_mul, zero_mul]

theorem meaning_sumTree (hfirst : first.order = 0) (h : ∀ x ∈ later, IsLater x) :
    (plan.sumTree (first :: later)).toReal.meaning ρ = some (Doubles.value first.coefficient +
      (later.map fun x => Doubles.value x.coefficient *
        (ρ plan.argument - Doubles.value plan.point) ^ x.order).sum) := by
  induction later using List.reverseRecOn with
  | nil =>
    rw [sumTree_singleton hfirst, List.map_nil, List.sum_nil, add_zero]
    rfl
  | append_singleton later x ih =>
    rw [List.forall_mem_append, List.forall_mem_singleton] at h
    rw [sumTree_cons_append, List.map_append, List.sum_append, List.map_singleton, List.sum_singleton,
      ← add_assoc]
    exact meaning_sum (ih h.1) h.2.meaning_termTree

/-! ### Either way -/

theorem mentions_sumTree {n : Name} (hfirst : first.order = 0)
    (h : (plan.sumTree (first :: later)).mentions n = true) : n = plan.argument := by
  have hterm : ∀ k c, (plan.termTree k c).mentions n = true → n = plan.argument := by
    intro k c hx
    rw [termTree] at hx
    split at hx
    · cases hx
    · simpa [Tree.mentions, eq_comm] using hx
  induction later using List.reverseRecOn with
  | nil =>
    rw [sumTree_singleton hfirst] at h
    cases h
  | append_singleton later x ih =>
    rw [sumTree_cons_append, mentions_apply₂, Bool.or_eq_true] at h
    exact h.elim ih (hterm _ _)

/-- **The value of the simplified sum of terms.** -/
theorem meaning_normalize_sumTree (hfirst : first.order = 0) (h : ∀ x ∈ later, IsLater x) :
    (plan.simplifier.normalize (plan.sumTree (first :: later))).toReal.meaning ρ =
      some (plan.termSum (first :: later) (ρ plan.argument)) := by
  have hne : ∀ x ∈ later, x.order ≠ 0 := fun x hx => Nat.ne_of_gt (h x hx).1
  rw [normalize_sumTree hfirst h, termSum, List.map_cons, List.sum_cons, hfirst, pow_zero, mul_one]
  by_cases hmax : plan.maxIterations ≤ 0
  · have hpoint : plan.pointValue = Doubles.value plan.point := if_neg fun h => by omega
    have hcoefficient : ∀ x, plan.coefficientValue (first :: later) x = Doubles.value x.coefficient :=
      fun x => if_pos hmax
    rw [if_pos hmax, hpoint]
    simp only [hcoefficient]
    exact meaning_sumTree hfirst h
  · have hconstant : plan.coefficientValue (first :: later) first =
        plan.constantValue first.coefficient later := by
      rw [coefficientValue, if_neg hmax, if_pos hfirst, List.tail_cons]
    have hlater : (later.map fun x => plan.coefficientValue (first :: later) x *
        (ρ plan.argument - plan.pointValue) ^ x.order) = later.map fun x =>
          plan.countedValue x.coefficient * (ρ plan.argument - plan.pointValue) ^ x.order := by
      refine List.map_congr_left fun x hx => ?_
      rw [coefficientValue, if_neg hmax, if_neg (hne x hx)]
    rw [if_neg hmax, hconstant, hlater]
    exact meaning_tidySum (Int.not_le.mp hmax) h

/-- **A Taylor polynomial is the sum of its terms** in exact arithmetic, wherever it was built and whether or
not derivatives are simplified on the way. In the simplification at the end coefficients that count as zero
are dropped, those that count as one are one, and a point that counts as zero is zero; the constant is dropped
only where another term stays. The polynomial mentions the variable only. -/
theorem meaning_build {w : Workspace Float} {e : Expression} (hw : w.store.StrictlyOwned)
    (he : e.place < w.store.roots.size) :
    (plan.build e).Succeeds w fun result w' => ∀ polynomial, result.outcome = .ok polynomial →
      (∀ x ∈ result.terms, x.coefficient.isFinite = true) →
        result.terms.map TaylorTerm.order = List.range (plan.order + 1) ∧
        (∀ ρ, (w'.store.expressionTree polynomial).toReal.meaning ρ =
          some (plan.termSum result.terms (ρ plan.argument))) ∧
        ∀ n, (w'.store.expressionTree polynomial).mentions n = true → n = plan.argument := by
  obtain ⟨b, own, hown⟩ := hw.holds
  obtain ⟨p, hp⟩ := hown.exists_mem he
  refine (plan.build_spec hown hp).mono ?_
  rintro result w' ⟨b', new, -, -, hnew, hdone, -⟩ polynomial hpolynomial hfinite
  obtain ⟨hterms, q, extra, rfl, -, hnormal⟩ := hdone polynomial hpolynomial
  obtain ⟨first, later, hsplit, hfirst, hlater⟩ := exists_later hterms hfinite
  rw [hnew.expressionTree_eq List.mem_cons_self, hnormal, hsplit]
  refine ⟨hsplit ▸ hterms.1, fun ρ => meaning_normalize_sumTree hfirst hlater, fun n hn => ?_⟩
  exact mentions_sumTree hfirst (plan.simplifier.mentions_of_normalizeIn _ hn)

/-! ## Two polynomials -/

/-- What a build comes to if the terms are found on plain trees. -/
theorem build_of_expandTree {w : Workspace Float} {e : Expression} {t : Tree Float}
    (hw : w.store.StrictlyOwned) (he : e.place < w.store.roots.size)
    (ht : w.store.expressionTree e = t) (hregular : plan.Regular t)
    (hterms : plan.expandTree (plan.order + 1) 0 t [] = (terms, .ok ())) :
    (plan.build e).Succeeds w fun result w' => result.terms = terms ∧
      ∃ polynomial, result.outcome = .ok polynomial ∧
        w'.store.expressionTree polynomial = plan.simplifier.normalize (plan.sumTree terms) := by
  obtain ⟨b, own, hown⟩ := hw.holds
  obtain ⟨p, hp⟩ := hown.exists_mem he
  rw [hown.expressionTree_eq hp] at ht
  refine (plan.build_spec hown hp).mono ?_
  rintro ⟨terms', outcome⟩ w' ⟨b', new, -, -, hnew, hdone, hfollowed⟩
  rw [ht] at hfollowed
  have hsame := (hfollowed hregular).1
  rw [hterms, Prod.mk.injEq] at hsame
  obtain ⟨rfl, houtcome⟩ := hsame
  cases outcome with
  | error f => cases houtcome
  | ok polynomial =>
    obtain ⟨-, q, extra, rfl, -, hnormal⟩ := hdone polynomial rfl
    exact ⟨rfl, polynomial, rfl, (hnew.expressionTree_eq List.mem_cons_self).trans hnormal⟩

/-- The workspace after a formula was read into a new store. -/
@[irreducible] def reading (text : String) : Workspace Float :=
  (Call.readFormula 100 text).after ⟨.stocked 0 0, .opened .minimal, []⟩

theorem strictlyOwned_reading (text : String) : (reading text).store.StrictlyOwned := by
  unfold reading
  exact Call.strictlyOwned_after _ (Store.stocked_strictlyOwned 0 0) nofun

deriving instance DecidableEq for TaylorTerm

/-- The plan to expand in `x` around a point, without bindings. -/
@[irreducible] def around (point : Float) (order : Nat) : TaylorPlan Float :=
  ⟨some "x", point, order, .empty, true, 100⟩

/-- What the terms of the square at one come to. -/
theorem termSum_square (v : ℝ) :
    (around 1.0 2).termSum [⟨0, 1.0, 1.0⟩, ⟨1, 2.0, 2.0⟩, ⟨2, 2.0, 1.0⟩] v = 1 + 2 * (v - 1) + (v - 1) ^ 2 := by
  have hone : Doubles.value 1.0 = 1 := by
    have hwhole : (1.0 : Float) = Float.ofNat 1 := by decide +kernel
    rw [hwhole, Doubles.value_ofNat (by decide), Nat.cast_one]
  have htwo : Doubles.value 2.0 = 2 := by
    have hwhole : (2.0 : Float) = Float.ofNat 2 := by decide +kernel
    rw [hwhole, Doubles.value_ofNat (by decide), Nat.cast_ofNat]
  have hmax : ¬(around 1.0 2).maxIterations ≤ 0 := by decide +kernel
  have hpoint : (around 1.0 2).pointValue = 1 := by
    have hne : ¬(around 1.0 2).simplifier.isZero (literal (around 1.0 2).point) = true := by decide +kernel
    have hpoint : (around 1.0 2).point = 1.0 := by decide +kernel
    rw [pointValue, if_neg fun h => hne h.2, hpoint, hone]
  have hconstant : ∀ later, (around 1.0 2).constantValue 1.0 later = 1 := by
    have hne : ¬(around 1.0 2).simplifier.isZero (literal 1.0) = true := by decide +kernel
    intro later
    rw [constantValue, if_neg fun h => hne h.1, hone]
  have hfirst : (around 1.0 2).countedValue 2.0 = 2 := by
    rw [countedValue, if_neg (by decide +kernel), if_neg (by decide +kernel), htwo]
  have hsecond : (around 1.0 2).countedValue 1.0 = 1 := by
    rw [countedValue, if_neg (by decide +kernel), if_pos (by decide +kernel)]
  simp [termSum, coefficientValue, hmax, hconstant, hfirst, hsecond, hpoint, add_assoc]

/-- The square at one is `1 + 2 (x - 1) + (x - 1) ^ 2`, and no coefficient counts as zero. -/
theorem meaning_build_square :
    (reading "x*x").store.StrictlyOwned ∧
      ((around 1.0 2).build ⟨0⟩).Succeeds (reading "x*x") fun result w' =>
        ∃ polynomial, result.outcome = .ok polynomial ∧
          ∀ ρ, (w'.store.expressionTree polynomial).toReal.meaning ρ =
            some (1 + 2 * (ρ (some "x") - 1) + (ρ (some "x") - 1) ^ 2) := by
  have howned : (reading "x*x").store.StrictlyOwned := strictlyOwned_reading "x*x"
  have hlive : (0 : Nat) < (reading "x*x").store.roots.size := by decide +kernel
  have htree : (reading "x*x").store.expressionTree ⟨0⟩ =
      .apply₂ .mul (.var (some "x")) (.var (some "x")) := by decide +kernel
  have hregular : (around 1.0 2).Regular (.apply₂ .mul (.var (some "x")) (.var (some "x"))) :=
    ⟨by decide +kernel, by decide +kernel⟩
  have hterms : (around 1.0 2).expandTree ((around 1.0 2).order + 1) 0
      (.apply₂ .mul (.var (some "x")) (.var (some "x"))) [] =
        ([⟨0, 1.0, 1.0⟩, ⟨1, 2.0, 2.0⟩, ⟨2, 2.0, 1.0⟩], .ok ()) := by decide +kernel
  have hrun := build_of_expandTree (e := ⟨0⟩) howned hlive htree hregular hterms
  refine ⟨howned, Act.Succeeds.mono (Act.Succeeds.and hrun (meaning_build (e := ⟨0⟩) howned hlive)) ?_⟩
  rintro result w' ⟨⟨hresult, polynomial, hpolynomial, -⟩, hmeaning⟩
  refine ⟨polynomial, hpolynomial, fun ρ => ?_⟩
  have hfinite : ∀ x ∈ result.terms, x.coefficient.isFinite = true := by
    rw [hresult]
    decide +kernel
  have hargument : (around 1.0 2).argument = some "x" := by decide +kernel
  rw [(hmeaning polynomial hpolynomial hfinite).2.1 ρ, hresult, termSum_square, hargument]

/-- **A small coefficient is lost**: to the first order at zero `x * 10 ^ -11` has the polynomial zero. -/
theorem build_loses_small_coefficient :
    (reading "x*0.00000000001").store.StrictlyOwned ∧
      ((around 0.0 1).build ⟨0⟩).Succeeds (reading "x*0.00000000001") fun result w' =>
        ∃ polynomial, result.outcome = .ok polynomial ∧
          (∀ x ∈ result.terms, x.coefficient.isFinite = true) ∧
          (w'.store.expressionTree polynomial).toReal.meaning (fun _ => 1) ≠
            some (result.terms.map fun x => Doubles.value x.coefficient *
              (1 - Doubles.value (around 0.0 1).point) ^ x.order).sum := by
  have howned : (reading "x*0.00000000001").store.StrictlyOwned := strictlyOwned_reading _
  have hlive : (0 : Nat) < (reading "x*0.00000000001").store.roots.size := by decide +kernel
  have htree : (reading "x*0.00000000001").store.expressionTree ⟨0⟩ =
      .apply₂ .mul (.var (some "x")) (.literal 1e-11) := by decide +kernel
  have hregular : (around 0.0 1).Regular (.apply₂ .mul (.var (some "x")) (.literal 1e-11)) :=
    ⟨by decide +kernel, by decide +kernel⟩
  have hterms : (around 0.0 1).expandTree ((around 0.0 1).order + 1) 0
      (.apply₂ .mul (.var (some "x")) (.literal 1e-11)) [] =
        ([⟨0, 0.0, 0.0⟩, ⟨1, 1e-11, 1e-11⟩], .ok ()) := by decide +kernel
  have hsimplified : (around 0.0 1).simplifier.normalize
      ((around 0.0 1).sumTree [⟨0, 0.0, 0.0⟩, ⟨1, 1e-11, 1e-11⟩]) = .literal 0.0 := by decide +kernel
  have hrun := build_of_expandTree (e := ⟨0⟩) howned hlive htree hregular hterms
  refine ⟨howned, Act.Succeeds.mono hrun ?_⟩
  rintro result w' ⟨hresult, polynomial, hpolynomial, hsum⟩
  have hnought : Doubles.value 0.0 = 0 := Doubles.value_of_isZero (by decide +kernel)
  have hsmall : Doubles.value 1e-11 ≠ 0 := Doubles.value_ne_zero (by decide +kernel) (by decide +kernel)
  have hpoint : (around 0.0 1).point = 0.0 := by decide +kernel
  refine ⟨polynomial, hpolynomial, ?_, ?_⟩
  · rw [hresult]
    decide +kernel
  · rw [hsum, hsimplified, hresult]
    simpa [toReal, meaning, hpoint, hnought] using hsmall.symm

end TaylorPlan

end Fluxion
