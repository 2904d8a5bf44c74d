import Fluxion.Proofs.PartialReal
import Fluxion.Tree.Evaluation

/-!
# Where derivatives pass the guards

Evaluation has guards: a denominator closer to zero than the threshold counts as zero, zero has no
negative power, and logarithms want positive numbers. The rules of differentiation make denominators,
powers and logarithms that the expression itself did not have, so a derivative can be undefined where the
expression has a value. For expressions of the four operations and powers, this says exactly where, by
exact numbers:

* the square of a denominator must not count as zero;
* a base with a literal exponent may be zero only if the exponent is at least one;
* a literal base with another exponent must be positive;
* any other base must be positive and must not count as zero, since it becomes a denominator and the
  argument of a logarithm.

* `Operation.PassesRule` are these conditions, and `Tree.PassesRules` asks for them at every node.
* `Recipe.combine` follows a recipe on values, and `Recipe.value_fill` says that this is the value of the
  tree it makes.
* `Plan.isSome_both` and its two companions give the condition of each rule.
* `Tree.derivative_defined_iff` joins them.
-/

namespace Fluxion

/-! ## Conditions -/

namespace Operation

/-- Where what a rule for powers makes of its operands passes the guards, given the literals that the
operands are, if they are any. -/
def PassesPower (left right : Option PartialReal) (a b : ℝ) : Prop :=
  match right with
  | some _ => a = 0 → 1 ≤ b
  | none =>
    match left with
    | some _ => 0 < a
    | none => PartialReal.leastDenominator ≤ a

/-- Where what the rule for an operation makes of its operands passes the guards. -/
def PassesRule (op : Operation) (left right : Option PartialReal) (a b : ℝ) : Prop :=
  match op with
  | div => PartialReal.leastDenominator ≤ b * b
  | pow => PassesPower left right a b
  | _ => True

end Operation

namespace Tree

/-- The trees of sums, differences, products, quotients and powers. -/
def IsArithmetic {κ : Type} : Tree κ → Prop
  | absent => False
  | literal _ => True
  | var _ => True
  | binary op l r =>
    (∃ o ∈ [Operation.add, .sub, .mul, .div, .pow], op.resolveArity 2 = some o) ∧
      l.IsArithmetic ∧ r.IsArithmetic
  | unary _ _ => False

/-- Whether the rules pass the guards at every node of a tree. -/
def PassesRules (ρ : Valuation PartialReal) : Tree PartialReal → Prop
  | binary op l r =>
    l.PassesRules ρ ∧ r.PassesRules ρ ∧
      ∀ o a b, op.resolveArity 2 = some o → l.value .guarded ρ = .ok (some a) →
        r.value .guarded ρ = .ok (some b) → o.PassesRule l.literal? r.literal? a b
  | _ => True

theorem value_apply₂ {κ : Type} {K : Kernel κ} {ρ : Valuation κ} {o : Operation} {l r : Tree κ} {a b : κ}
    (ho : o.arity = 2) (hl : l.value K ρ = .ok a) (hr : r.value K ρ = .ok b) :
    (apply₂ o l r).value K ρ = .ok (K.binary o a b) := by
  rw [apply₂, value, hl, hr, Operator.resolveArity_known ho]

theorem value_apply₁ {κ : Type} {K : Kernel κ} {ρ : Valuation κ} {o : Operation} {x : Tree κ} {a : κ}
    (ho : o.arity = 1) (hx : x.value K ρ = .ok a) : (apply₁ o x).value K ρ = .ok (K.unary o a) := by
  rw [apply₁, value, hx, Operator.resolveArity_known ho]

end Tree

/-! ## Recipes on values -/

namespace Recipe

variable {κ ι : Type} {K : Kernel κ} {ρ : Valuation κ}

/-- Follows a recipe on values. -/
def combine (K : Kernel κ) (u du : ι → κ) : Recipe κ ι → κ
  | literal c => c
  | operand i => u i
  | derivative i => du i
  | binary op a b => K.binary op (a.combine K u du) (b.combine K u du)
  | backward op a b => K.binary op (a.combine K u du) (b.combine K u du)
  | unary op a => K.unary op (a.combine K u du)

/-- **The value of a tree made by a recipe** is what the recipe makes of the values. -/
theorem value_fill {q : Recipe κ ι} {t dt : ι → Tree κ} {u du : ι → κ} (h : q.isOperational = true)
    (hu : ∀ i, (t i).value K ρ = .ok (u i)) (hdu : ∀ i, (dt i).value K ρ = .ok (du i)) :
    (q.fill t dt).value K ρ = .ok (q.combine K u du) := by
  induction q with
  | literal c => rfl
  | operand i => exact hu i
  | derivative i => exact hdu i
  | binary op a b iha ihb | backward op a b iha ihb =>
    simp only [isOperational, Bool.and_eq_true, decide_eq_true_eq] at h
    exact Tree.value_apply₂ h.1.1 (iha h.1.2) (ihb h.2)
  | unary op a ih =>
    simp only [isOperational, Bool.and_eq_true, decide_eq_true_eq] at h
    exact Tree.value_apply₁ h.1 (ih h.2)

end Recipe

/-! ## Guards -/

namespace Kernel

open PartialReal

variable {x y : PartialReal} {a b : ℝ}

theorem isSome_apply₂ {op : Operation} (h : ∀ a b, op.Domain₂ a b) :
    (PartialReal.apply₂ op x y).isSome = (x.isSome && y.isSome) := by
  cases x with
  | none => rfl
  | some a =>
    cases y with
    | none => rfl
    | some b => rw [PartialReal.apply₂, Operation.apply₂_of_domain (h a b)]; rfl

theorem isSome_add : (guardedBinary .add x y).isSome = (x.isSome && y.isSome) :=
  isSome_apply₂ fun _ _ => trivial

theorem isSome_sub : (guardedBinary .sub x y).isSome = (x.isSome && y.isSome) :=
  isSome_apply₂ fun _ _ => trivial

theorem isSome_mul : (guardedBinary .mul x y).isSome = (x.isSome && y.isSome) :=
  isSome_apply₂ fun _ _ => trivial

theorem mul_some (a b : ℝ) : guardedBinary .mul (some a) (some b) = some (a * b) := by
  have hdomain : Operation.mul.Domain₂ a b := trivial
  exact Operation.apply₂_of_domain hdomain

/-- What an operation that has a value computes. -/
theorem guardedBinary_of_isSome {o : Operation} (h : (guardedBinary o (some a) (some b)).isSome = true) :
    guardedBinary o (some a) (some b) = some (o.real₂ a b) := by
  obtain ⟨c, hc⟩ := Option.isSome_iff_exists.mp h
  obtain ⟨a', b', ha, hb, rfl⟩ := guardedBinary_eq_some hc
  cases ha
  cases hb
  exact hc

/-- A quotient has a value unless the denominator counts as zero. -/
theorem isSome_div :
    (guardedBinary .div x (some b)).isSome = true ↔ x.isSome = true ∧ leastDenominator ≤ |b| := by
  have hguard : Scalar.lt (Scalar.abs (some b)) (Scalar.threshold : PartialReal) = true ↔
      |b| < leastDenominator := lt_some_iff
  rw [guardedBinary, divide]
  split
  · rename_i hlt
    exact iff_of_false Bool.false_ne_true fun h => absurd (hguard.mp hlt) (not_lt.mpr h.2)
  · rename_i hlt
    have hb : leastDenominator ≤ |b| := not_lt.mp fun h => hlt (hguard.mpr h)
    have hne : b ≠ 0 := by
      rintro rfl
      exact absurd leastDenominator_pos (not_lt.mpr (abs_zero (α := ℝ) ▸ hb))
    rw [and_iff_left hb]
    cases x with
    | none => rfl
    | some a =>
      refine iff_of_true ?_ rfl
      have hdomain : Operation.div.Domain₂ a b := hne
      have hdiv : Scalar.div (some a) (some b) = (some (a / b) : PartialReal) :=
        Operation.apply₂_of_domain hdomain
      rw [hdiv, Option.isSome_some]

/-- The guards of a power are the ends of its domain. -/
theorem isSome_pow :
    (guardedBinary .pow (some a) (some b)).isSome = true ↔ Operation.pow.Domain₂ a b := by
  have hneg : Scalar.lt (some a) (Scalar.zero : PartialReal) = true ↔ a < 0 := zero_eq ▸ lt_some_iff
  have hnegative : Scalar.lt (some b) (Scalar.zero : PartialReal) = true ↔ b < 0 :=
    zero_eq ▸ lt_some_iff
  have hzero : Scalar.eq (some a) (Scalar.zero : PartialReal) = true ↔ a = 0 :=
    zero_eq ▸ eq_some_iff
  have hwhole : Scalar.isWhole (some b : PartialReal) = true ↔ IsWhole b := by
    classical exact decide_eq_true_iff
  have hpow : (Scalar.pow (some a) (some b) : PartialReal) = Operation.pow.apply₂ a b := rfl
  have hnan : (Scalar.isNaN (some a : PartialReal) || Scalar.isNaN (some b : PartialReal)) = false :=
    rfl
  rw [guardedBinary, power, hnan, if_neg Bool.false_ne_true, hpow, Operation.apply₂]
  split
  · rename_i h
    rw [Bool.and_eq_true, hneg, Bool.not_eq_true', ← Bool.not_eq_true, hwhole] at h
    refine iff_of_false Bool.false_ne_true ?_
    rintro (hd | ⟨-, hd⟩ | ⟨hd, -⟩)
    · exact lt_asymm h.1 hd
    · exact h.2 hd
    · exact h.1.ne hd
  · split
    · rename_i h
      rw [Bool.and_eq_true, hzero, hnegative] at h
      refine iff_of_false Bool.false_ne_true ?_
      rintro (hd | ⟨hd, -⟩ | ⟨-, hd⟩)
      · exact hd.ne' h.1
      · exact hd.ne h.1
      · exact not_lt.mpr hd h.2
    · split
      · exact iff_of_true rfl ‹_›
      · exact iff_of_false Bool.false_ne_true ‹_›

theorem isSome_ln : (guardedUnary .ln (some a)).isSome = true ↔ 0 < a := by
  have hguard : Scalar.le (some a) (Scalar.zero : PartialReal) = true ↔ a ≤ 0 :=
    zero_eq ▸ le_some_iff
  have hnan : Scalar.isNaN (some a : PartialReal) = false := rfl
  rw [guardedUnary, hnan, if_neg Bool.false_ne_true, guardedFunction, onDomain]
  split
  · rename_i h
    have ha : 0 < a := by
      rw [Bool.not_eq_true', ← Bool.not_eq_true, hguard, not_le] at h
      exact h
    have hdomain : Operation.ln.Domain₁ a := ha
    have hlog : Scalar.log (some a) = (some (Real.log a) : PartialReal) :=
      Operation.apply₁_of_domain hdomain
    rw [hlog]
    exact iff_of_true rfl ha
  · rename_i h
    rw [Bool.not_eq_true', ← Bool.not_eq_true, hguard, not_not] at h
    exact iff_of_false Bool.false_ne_true (not_lt.mpr h)

end Kernel

/-! ## Rules -/

namespace Plan

open Kernel PartialReal

variable {x y : PartialReal} {a b c : ℝ}

/-- The rule for a power with a literal exponent. -/
theorem isSome_powerOfLiteral (h : Operation.pow.Domain₂ a c) :
    ((Recipe.powerOfLiteral (some c)).combine .guarded (fun _ => some a) fun _ => x).isSome = true ↔
      x.isSome = true ∧ (a = 0 → 1 ≤ c) := by
  have hpred : Operation.pow.Domain₂ a (c - 1) ↔ (a = 0 → 1 ≤ c) := by
    rcases h with ha | ⟨ha, n, rfl⟩ | ⟨rfl, -⟩
    · exact iff_of_true (.inl ha) fun h => absurd h ha.ne'
    · exact iff_of_true (.inr (.inl ⟨ha, n - 1, by push_cast; rfl⟩)) fun h => absurd h ha.ne
    · simp [Operation.Domain₂]
  have hcombine : (Recipe.powerOfLiteral (some c)).combine .guarded (fun _ => some a) (fun _ => x) =
      guardedBinary .mul (guardedBinary .mul (some c) (guardedBinary .pow (some a) (some (c - 1)))) x :=
    rfl
  rw [hcombine, isSome_mul, isSome_mul, Bool.and_eq_true, Bool.and_eq_true, isSome_pow, hpred]
  simp only [Option.isSome_some, true_and]
  exact and_comm

/-- The rule for a power of a literal base. -/
theorem isSome_literalToPower (h : Operation.pow.Domain₂ c b) :
    ((Recipe.literalToPower (some c)).combine .guarded (fun _ => some b) fun _ => y).isSome = true ↔
      y.isSome = true ∧ 0 < c := by
  have hcombine : (Recipe.literalToPower (some c)).combine .guarded (fun _ => some b) (fun _ => y) =
      guardedBinary .mul (guardedBinary .mul (guardedBinary .pow (some c) (some b))
        (guardedUnary .ln (some c))) y := rfl
  rw [hcombine, isSome_mul, isSome_mul, Bool.and_eq_true, Bool.and_eq_true, isSome_pow, isSome_ln,
    and_iff_right h]
  exact and_comm

/-- **The rules that take both derivatives.** -/
theorem isSome_both {o : Operation} {left right : Option PartialReal} {q : Recipe PartialReal Side}
    (hq : Plan.ofOperation o left right = some (.both q))
    (ho : o ∈ [Operation.add, .sub, .mul, .div, .pow])
    (h : (guardedBinary o (some a) (some b)).isSome = true) :
    (q.combine .guarded (Side.pick (some a) (some b)) (Side.pick x y)).isSome = true ↔
      (x.isSome = true ∧ y.isSome = true) ∧ o.PassesRule left right a b := by
  cases o with
  | add =>
    cases hq
    have hcombine : (Recipe.binary .add .dl .dr).combine .guarded (Side.pick (some a) (some b))
        (Side.pick x y) = guardedBinary .add x y := rfl
    rw [hcombine, isSome_add]
    simp [Operation.PassesRule]
  | sub =>
    cases hq
    have hcombine : (Recipe.binary .sub .dl .dr).combine .guarded (Side.pick (some a) (some b))
        (Side.pick x y) = guardedBinary .sub x y := rfl
    rw [hcombine, isSome_sub]
    simp [Operation.PassesRule]
  | mul =>
    cases hq
    have hcombine : Recipe.product.combine .guarded (Side.pick (some a) (some b)) (Side.pick x y) =
        guardedBinary .add (guardedBinary .mul x (some b)) (guardedBinary .mul (some a) y) := rfl
    rw [hcombine, isSome_add, isSome_mul, isSome_mul]
    simp [Operation.PassesRule]
  | div =>
    cases hq
    have hcombine : Recipe.quotient.combine .guarded (Side.pick (some a) (some b)) (Side.pick x y) =
        guardedBinary .div (guardedBinary .sub (guardedBinary .mul x (some b))
          (guardedBinary .mul (some a) y)) (guardedBinary .mul (some b) (some b)) := rfl
    rw [hcombine, mul_some, isSome_div, isSome_sub, isSome_mul, isSome_mul, abs_mul_self]
    simp [Operation.PassesRule]
  | pow =>
    cases left with
    | some c => cases right <;> cases hq
    | none =>
      cases right with
      | some c => cases hq
      | none =>
        cases hq
        have hcombine : Recipe.power.combine .guarded (Side.pick (some a) (some b)) (Side.pick x y) =
            guardedBinary .mul (guardedBinary .pow (some a) (some b))
              (guardedBinary .add (guardedBinary .mul y (guardedUnary .ln (some a)))
                (guardedBinary .div (guardedBinary .mul (some b) x) (some a))) := rfl
        have hbase : 0 < a ∧ leastDenominator ≤ |a| ↔ leastDenominator ≤ a := by
          constructor
          · rintro ⟨ha, hle⟩
            rwa [abs_of_pos ha] at hle
          · intro hle
            have ha : 0 < a := lt_of_lt_of_le leastDenominator_pos hle
            exact ⟨ha, (abs_of_pos ha).symm ▸ hle⟩
        rw [hcombine, isSome_mul, h, Bool.true_and, isSome_add, isSome_mul, Bool.and_eq_true,
          Bool.and_eq_true, isSome_ln, isSome_div, isSome_mul]
        simp only [Option.isSome_some, Bool.true_and, Operation.PassesRule, Operation.PassesPower,
          ← hbase]
        tauto
  | _ => simp at ho

end Plan

/-! ## Derivatives -/

namespace Tree

open Kernel

variable {v : Name} {ρ : Valuation PartialReal} {op : Operator} {l r t : Tree PartialReal}

/-- The operands of an operation that has a value have values. -/
theorem value_binary {c : ℝ} (h : (binary op l r).value .guarded ρ = .ok (some c)) :
    ∃ o a b, op.resolveArity 2 = some o ∧ l.value .guarded ρ = .ok (some a) ∧
      r.value .guarded ρ = .ok (some b) ∧ (guardedBinary o (some a) (some b)).isSome = true := by
  rw [value] at h
  split at h
  · cases h
  · rename_i x hl
    split at h
    · cases h
    · rename_i y hr
      split at h
      · rename_i o ho
        have hvalue : guardedBinary o x y = some c := Except.ok.inj h
        obtain ⟨a, b, rfl, rfl, -⟩ := guardedBinary_eq_some hvalue
        exact ⟨o, a, b, ho, hl, hr, hvalue ▸ rfl⟩
      · cases h

/-- **Where a derivative is defined.** Where an expression of the four operations and powers has a value,
its derivative is evaluated without a fault, to a number exactly if the rules pass the guards. -/
theorem derivative_defined_iff (ht : t.IsArithmetic) (v : Name) {c : ℝ}
    (h : t.value .guarded ρ = .ok (some c)) :
    ∃ d z, t.derivative v = .ok d ∧ d.value .guarded ρ = .ok z ∧
      (z.isSome = true ↔ t.PassesRules ρ) := by
  induction t generalizing c with
  | absent => exact ht.elim
  | literal _ => exact ⟨_, _, rfl, rfl, iff_of_true rfl trivial⟩
  | var n => exact ⟨_, _, rfl, rfl, iff_of_true rfl trivial⟩
  | unary _ _ => exact ht.elim
  | binary op l r ihl ihr =>
    obtain ⟨⟨o, ho, hop⟩, hl, hr⟩ := ht
    obtain ⟨o', a, b, hop', ha, hb, hdefined⟩ := value_binary h
    obtain rfl : o = o' := Option.some.inj (hop.symm.trans hop')
    obtain ⟨dl, x, hdl, hx, hl⟩ := ihl hl ha
    obtain ⟨dr, y, hdr, hy, hr⟩ := ihr hr hb
    have hplan : Plan.ofOperator op l.literal? r.literal? =
        Plan.ofOperation o l.literal? r.literal? := by
      rw [Plan.ofOperator, hop, Option.bind_some]
    have hpasses : (binary op l r).PassesRules ρ ↔
        (x.isSome = true ∧ y.isSome = true) ∧ o.PassesRule l.literal? r.literal? a b := by
      rw [hl, hr, PassesRules, and_assoc]
      refine and_congr_right fun _ => and_congr_right fun _ => ⟨fun h => h o a b hop ha hb, ?_⟩
      intro hrule o' a' b' ho' ha' hb'
      obtain rfl : o = o' := Option.some.inj (hop.symm.trans ho')
      obtain rfl : a = a' := Option.some.inj (Except.ok.inj (ha.symm.trans ha'))
      obtain rfl : b = b' := Option.some.inj (Except.ok.inj (hb.symm.trans hb'))
      exact hrule
    rw [hpasses]
    -- a literal operand has a literal derivative, which is a number and is not used
    cases hp : Plan.ofOperation o l.literal? r.literal? with
    | none => exact absurd hp (Plan.ofOperation_ne_none (Operator.arity_of_resolveArity hop) _ _)
    | some plan =>
      cases plan with
      | left q =>
        obtain ⟨e, rfl, hliteral, rfl⟩ := Plan.eq_left hp
        obtain rfl := eq_literal_of_literal? hliteral
        obtain rfl : e = some b := Except.ok.inj hb
        have hnumber : y.isSome = true := hr.mpr trivial
        refine ⟨_, _, by rw [derivative, hplan, hp, hdl],
          Recipe.value_fill rfl (fun _ => ha) fun _ => hx, ?_⟩
        rw [Plan.isSome_powerOfLiteral (isSome_pow.mp hdefined), hnumber]
        simp [Operation.PassesRule, Operation.PassesPower, literal?]
      | right q =>
        obtain ⟨e, rfl, hliteral, hnone, rfl⟩ := Plan.eq_right hp
        obtain rfl := eq_literal_of_literal? hliteral
        obtain rfl : e = some a := Except.ok.inj ha
        have hnumber : x.isSome = true := hl.mpr trivial
        refine ⟨_, _, by rw [derivative, hplan, hp, hdr],
          Recipe.value_fill rfl (fun _ => hb) fun _ => hy, ?_⟩
        rw [Plan.isSome_literalToPower (isSome_pow.mp hdefined), hnumber, hnone]
        simp [Operation.PassesRule, Operation.PassesPower, literal?]
      | both q =>
        have hu : ∀ i, (Side.pick l r i).value .guarded ρ = .ok (Side.pick (some a) (some b) i) := by
          rintro (_ | _)
          · exact ha
          · exact hb
        have hdu : ∀ i, (Side.pick dl dr i).value .guarded ρ = .ok (Side.pick x y i) := by
          rintro (_ | _)
          · exact hx
          · exact hy
        exact ⟨_, _, by rw [derivative, hplan, hp, hdl, hdr],
          Recipe.value_fill (Plan.shape_both hp).2 hu hdu, Plan.isSome_both hp ho hdefined⟩

/-- Where `x` is one half, the derivative of `(1 / x) ^ (1 + 1)` is a number. -/
theorem derivative_defined_square :
    let t : Tree PartialReal := apply₂ .pow (apply₂ .div (literal (some 1)) (var (some "x")))
      (apply₂ .add (literal (some 1)) (literal (some 1)))
    let ρ : Valuation PartialReal := fun _ => some (some (1 / 2))
    t.IsArithmetic ∧ t.value .guarded ρ = .ok (some (2 ^ (2 : ℝ))) ∧
      ∃ d z, t.derivative (some "x") = .ok d ∧ d.value .guarded ρ = .ok (some z) := by
  intro t ρ
  have ht : t.IsArithmetic :=
    ⟨⟨.pow, by decide, rfl⟩, ⟨⟨.div, by decide, rfl⟩, trivial, trivial⟩, ⟨.add, by decide, rfl⟩, trivial,
      trivial⟩
  have hbase : (apply₂ .div (literal (some 1)) (var (some "x"))).value .guarded ρ = .ok (some 2) := by
    have hdefined : (guardedBinary .div (some (1 : ℝ)) (some (1 / 2))).isSome = true :=
      isSome_div.mpr ⟨rfl, by norm_num [PartialReal.leastDenominator]⟩
    refine (value_apply₂ (o := .div) rfl rfl rfl).trans (congrArg Except.ok ?_)
    refine (guardedBinary_of_isSome hdefined).trans (congrArg some ?_)
    norm_num [Operation.real₂]
  have hexponent : (apply₂ .add (literal (some 1)) (literal (some 1))).value .guarded ρ =
      .ok (some 2) := by
    have hdefined : (guardedBinary .add (some (1 : ℝ)) (some 1)).isSome = true := isSome_add
    refine (value_apply₂ (o := .add) rfl rfl rfl).trans (congrArg Except.ok ?_)
    refine (guardedBinary_of_isSome hdefined).trans (congrArg some ?_)
    norm_num [Operation.real₂]
  have hvalue : t.value .guarded ρ = .ok (some (2 ^ (2 : ℝ))) := by
    rw [value_apply₂ (o := .pow) rfl hbase hexponent]
    refine congrArg Except.ok (guardedBinary_of_isSome (isSome_pow.mpr (.inl ?_)))
    norm_num
  have hpasses : t.PassesRules ρ := by
    refine ⟨⟨trivial, trivial, ?_⟩, ⟨trivial, trivial, ?_⟩, ?_⟩
    · rintro o a b ho - hb
      obtain rfl : Operation.div = o := Option.some.inj ho
      obtain rfl : 1 / 2 = b := Option.some.inj (Except.ok.inj hb)
      norm_num [Operation.PassesRule, PartialReal.leastDenominator]
    · rintro o a b ho - -
      obtain rfl : Operation.add = o := Option.some.inj ho
      trivial
    · rintro o a b ho ha -
      obtain rfl : Operation.pow = o := Option.some.inj ho
      obtain rfl : 2 = a := Option.some.inj (Except.ok.inj (hbase.symm.trans ha))
      norm_num [Operation.PassesRule, Operation.PassesPower, PartialReal.leastDenominator, apply₂, literal?]
  obtain ⟨d, z, hd, hz, hdefined⟩ := derivative_defined_iff ht (some "x") hvalue
  obtain ⟨z, rfl⟩ := Option.isSome_iff_exists.mp (hdefined.mpr hpasses)
  exact ⟨ht, hvalue, d, z, hd, hz⟩

/-- The derivative of `1 / x` is undefined where the square of `x` counts as zero, but `x` does not. -/
theorem derivative_undefined_reciprocal :
    let t : Tree PartialReal := apply₂ .div (literal (some 1)) (var (some "x"))
    let ρ : Valuation PartialReal := fun _ => some (some (1 / 2 ^ 20))
    t.IsArithmetic ∧ t.value .guarded ρ = .ok (some (2 ^ 20)) ∧
      ∃ d, t.derivative (some "x") = .ok d ∧ d.value .guarded ρ = .ok none := by
  intro t ρ
  have hdefined : (guardedBinary .div (some (1 : ℝ)) (some (1 / 2 ^ 20))).isSome = true :=
    isSome_div.mpr ⟨rfl, by norm_num [PartialReal.leastDenominator, abs_of_pos]⟩
  have hvalue : t.value .guarded ρ = .ok (some (2 ^ 20)) := by
    refine (value_apply₂ (o := .div) rfl rfl rfl).trans (congrArg Except.ok ?_)
    refine (guardedBinary_of_isSome hdefined).trans (congrArg some ?_)
    norm_num [Operation.real₂]
  -- the operands and their derivatives
  have hu : ∀ i, (Side.pick (literal (some 1)) (var (some "x")) i).value .guarded ρ =
      .ok (Side.pick (some 1) (some (1 / 2 ^ 20)) i) := by
    rintro (_ | _) <;> rfl
  have hdu : ∀ i, (Side.pick (literal (Coefficient.ofNat 0)) (literal (Coefficient.ofNat 1)) i).value
      .guarded ρ = .ok (Side.pick (Coefficient.ofNat 0) (Coefficient.ofNat 1) i) := by
    rintro (_ | _) <;> rfl
  have hplan : Plan.ofOperation .div (some (some (1 : ℝ))) none = some (.both .quotient) := rfl
  refine ⟨⟨⟨.div, by decide, rfl⟩, trivial, trivial⟩, hvalue, _, rfl,
    (Recipe.value_fill rfl hu hdu).trans (congrArg Except.ok ?_)⟩
  rw [← Option.not_isSome_iff_eq_none, Plan.isSome_both hplan (by decide) hdefined]
  rintro ⟨-, hle⟩
  norm_num [Operation.PassesRule, PartialReal.leastDenominator] at hle

end Tree

end Fluxion
