import Fluxion.Proofs.Meaning
import Mathlib

/-!
# Derivatives are correct

At a regular point of a tree, the derivative that the rules make means the derivative of what the tree
means. Regularity asks of every node what the rule of its operation needs: a denominator that is not
zero, an argument inside the open domain of a function, and a base that the rule for powers can deal
with. A power with a literal exponent is also regular at a negative base if the exponent is whole,
and at the base zero if it is whole and at least one; every other power needs a positive base.

The proof goes from the leaves up. `Tree.HasSlope` says that a tree means a differentiable function of
the variable near the point. One lemma per operation gives the slope of the function and one the
meaning of the recipe; the tree of the derivative then means the slope.

* `Tree.HasSlope` is the derivative of the meaning of a tree.
* `Tree.Regular` is regularity.
* `Operation.hasDerivAt_real₁` gives the slopes of the functions of one argument.
* `Tree.derivative_hasSlope` is the correctness of differentiation.
-/

namespace Fluxion

open Filter Topology

/-! ## Regular points -/

namespace Operation

/-- Where the rule for a function of one argument applies. -/
def Regular₁ : Operation → ℝ → Prop
  | ln, x => 0 < x
  | tan, x => Real.cos x ≠ 0
  | cot, x => Real.sin x ≠ 0
  | arcsin, x => -1 < x ∧ x < 1
  | arccos, x => -1 < x ∧ x < 1
  | artanh, x => -1 < x ∧ x < 1
  | arccosh, x => 1 < x
  | _, _ => True

/-- Where the rule for a power applies, given the literal that the exponent is, if it is one. -/
def RegularPower (a : ℝ) : Option ℝ → Prop
  | some c => 0 < a ∨ IsWhole c ∧ a < 0 ∨ IsWhole c ∧ 1 ≤ c ∧ a = 0
  | none => 0 < a

/-- Where the rule for an operation of two arguments applies, given the literal that the right one
is, if it is one. -/
def Regular₂ (op : Operation) (exponent : Option ℝ) (a b : ℝ) : Prop :=
  match op with
  | div => b ≠ 0
  | log => 0 < a ∧ 0 < b ∧ a ≠ 1
  | pow => RegularPower a exponent
  | _ => True

end Operation

namespace Tree

/-- Whether the rules apply at every node of a tree. -/
def Regular (ρ : Name → ℝ) : Tree ℝ → Prop
  | absent => True
  | literal _ => True
  | var _ => True
  | binary op l r =>
    l.Regular ρ ∧ r.Regular ρ ∧
      ∀ o a b, op.resolveArity 2 = some o → l.meaning ρ = some a → r.meaning ρ = some b →
        o.Regular₂ r.literal? a b
  | unary op x =>
    x.Regular ρ ∧ ∀ o a, op.resolveArity 1 = some o → x.meaning ρ = some a → o.Regular₁ a

/-! ## Slopes -/

/-- As `v` varies, the tree means a function with the derivative `slope` where `ρ` puts `v`. -/
def HasSlope (t : Tree ℝ) (v : Name) (ρ : Name → ℝ) (slope : ℝ) : Prop :=
  ∃ f : ℝ → ℝ, (∀ᶠ x in 𝓝 (ρ v), t.meaning (Function.update ρ v x) = some (f x)) ∧
    HasDerivAt f slope (ρ v)

variable {v : Name} {ρ : Name → ℝ}

/-- What a tree means near a point it also means at the point. -/
theorem meaning_of_eventually {t : Tree ℝ} {f : ℝ → ℝ}
    (h : ∀ᶠ x in 𝓝 (ρ v), t.meaning (Function.update ρ v x) = some (f x)) :
    t.meaning ρ = some (f (ρ v)) := by
  have := h.self_of_nhds
  rwa [Function.update_eq_self] at this

theorem HasSlope.meaning {t : Tree ℝ} {y : ℝ} (h : t.HasSlope v ρ y) :
    ∃ a, t.meaning ρ = some a := by
  obtain ⟨f, hf, -⟩ := h
  exact ⟨_, meaning_of_eventually hf⟩

theorem hasSlope_literal (c : ℝ) : (literal c).HasSlope v ρ 0 :=
  ⟨fun _ => c, .of_forall fun _ => rfl, hasDerivAt_const _ _⟩

theorem hasSlope_var_self : (var v).HasSlope v ρ 1 :=
  ⟨fun x => x, .of_forall fun x => by rw [meaning, Function.update_self], hasDerivAt_id' _⟩

theorem hasSlope_var_ne {n : Name} (h : n ≠ v) : (var n).HasSlope v ρ 0 :=
  ⟨fun _ => ρ n, .of_forall fun x => by rw [meaning, Function.update_of_ne h],
    hasDerivAt_const _ _⟩

end Tree

/-! ## Functions of one argument -/

namespace Operation

/-- The derivative of a function of one argument. -/
noncomputable def slope₁ : Operation → ℝ → ℝ
  | ln, x => 1 / x
  | sin, x => Real.cos x
  | cos, x => -Real.sin x
  | tan, x => 1 / Real.cos x ^ 2
  | cot, x => -1 / Real.sin x ^ 2
  | sinh, x => Real.cosh x
  | cosh, x => Real.sinh x
  | arcsin, x => 1 / √(1 - x ^ 2)
  | arccos, x => -1 / √(1 - x ^ 2)
  | arctan, x => 1 / (1 + x ^ 2)
  | arccot, x => -1 / (1 + x ^ 2)
  | arsinh, x => 1 / √(x ^ 2 + 1)
  | arccosh, x => 1 / √(x ^ 2 - 1)
  | artanh, x => 1 / (1 - x ^ 2)
  | _, _ => 0

theorem hasDerivAt_cot {x : ℝ} (h : Real.sin x ≠ 0) :
    HasDerivAt (fun y => Real.cos y / Real.sin y) (-1 / Real.sin x ^ 2) x := by
  refine ((Real.hasDerivAt_cos x).div (Real.hasDerivAt_sin x) h).congr_deriv ?_
  have e : -Real.sin x * Real.sin x - Real.cos x * Real.cos x = -1 := by
    linarith [Real.sin_sq_add_cos_sq x, sq (Real.sin x), sq (Real.cos x)]
  rw [e]

theorem hasDerivAt_artanh {x : ℝ} (h : -1 < x ∧ x < 1) :
    HasDerivAt Real.artanh (1 / (1 - x ^ 2)) x := by
  have hpos : 0 < 1 + x := by linarith [h.1]
  have hneg : 0 < 1 - x := by linarith [h.2]
  have near : ∀ᶠ y in 𝓝 x, Real.artanh y = 1 / 2 * (Real.log (1 + y) - Real.log (1 - y)) := by
    filter_upwards [Ioo_mem_nhds h.1 h.2] with y hy
    have h1 : 1 + y ≠ 0 := by linarith [hy.1]
    have h2 : 1 - y ≠ 0 := by linarith [hy.2]
    rw [Real.artanh_eq_half_log ⟨hy.1.le, hy.2.le⟩, Real.log_div h1 h2]
  have hplus : HasDerivAt (fun y => Real.log (1 + y)) (1 / (1 + x)) x :=
    ((hasDerivAt_id' x).const_add 1).log hpos.ne'
  have hminus : HasDerivAt (fun y => Real.log (1 - y)) (-1 / (1 - x)) x :=
    ((hasDerivAt_id' x).const_sub 1).log hneg.ne'
  refine (((hplus.sub hminus).const_mul (1 / 2)).congr_of_eventuallyEq near).congr_deriv ?_
  have e : 1 - x ^ 2 = (1 + x) * (1 - x) := by ring
  rw [e]
  field_simp
  ring

/-- **The slopes of the functions of one argument** at their regular points. -/
theorem hasDerivAt_real₁ {op : Operation} (ha : op.arity = 1) {x : ℝ} (h : op.Regular₁ x) :
    HasDerivAt op.real₁ (op.slope₁ x) x := by
  cases op with
  | add | sub | mul | div | pow | log => cases ha
  | ln => exact (Real.hasDerivAt_log (ne_of_gt h)).congr_deriv (one_div x).symm
  | sinh => exact Real.hasDerivAt_sinh x
  | cosh => exact Real.hasDerivAt_cosh x
  | sin => exact Real.hasDerivAt_sin x
  | cos => exact Real.hasDerivAt_cos x
  | tan => exact Real.hasDerivAt_tan h
  | cot => exact hasDerivAt_cot h
  | arcsin => exact Real.hasDerivAt_arcsin h.1.ne' h.2.ne
  | arccosh => exact (Real.hasDerivAt_arcosh h).congr_deriv (one_div _).symm
  | arccos => exact (Real.hasDerivAt_arccos h.1.ne' h.2.ne).congr_deriv (neg_div _ _).symm
  | arctan => exact Real.hasDerivAt_arctan x
  | arccot =>
    exact ((Real.hasDerivAt_arctan x).const_sub (Real.pi / 2)).congr_deriv (neg_div _ _).symm
  | arsinh =>
    refine (Real.hasDerivAt_arsinh x).congr_deriv ?_
    rw [slope₁, one_div, add_comm]
  | artanh => exact hasDerivAt_artanh h

/-- A function of one argument has values all around a regular point. -/
theorem eventually_domain₁ {op : Operation} (ha : op.arity = 1) {x : ℝ} (h : op.Regular₁ x) :
    ∀ᶠ y in 𝓝 x, op.Domain₁ y := by
  cases op with
  | add | sub | mul | div | pow | log => cases ha
  | ln => exact eventually_gt_nhds h
  | tan => exact Real.continuous_cos.continuousAt.eventually_ne h
  | cot => exact Real.continuous_sin.continuousAt.eventually_ne h
  | arcsin | arccos =>
    filter_upwards [Ioo_mem_nhds h.1 h.2] with y hy using ⟨hy.1.le, hy.2.le⟩
  | artanh => filter_upwards [Ioo_mem_nhds h.1 h.2] with y hy using hy
  | arccosh => filter_upwards [eventually_gt_nhds h] with y hy using le_of_lt hy
  | sinh | cosh | sin | cos | arctan | arccot | arsinh => exact .of_forall fun _ => trivial

end Operation

namespace Tree

variable {v : Name} {ρ : Name → ℝ}

/-- The chain rule: a function of one argument multiplies the slope of its operand by its own. -/
theorem HasSlope.apply_unary {op : Operator} {o : Operation} {x : Tree ℝ} {a y : ℝ}
    (ho : op.resolveArity 1 = some o) (ha : o.arity = 1) (hx : x.HasSlope v ρ y)
    (hm : x.meaning ρ = some a) (hr : o.Regular₁ a) :
    (unary op x).HasSlope v ρ (o.slope₁ a * y) := by
  obtain ⟨f, hf, hd⟩ := hx
  have hfa : f (ρ v) = a := by
    have := meaning_of_eventually hf
    rw [hm] at this
    exact (Option.some.inj this).symm
  rw [← hfa] at hr ⊢
  refine ⟨fun x => o.real₁ (f x), ?_, (Operation.hasDerivAt_real₁ ha hr).comp _ hd⟩
  have hdom : ∀ᶠ x in 𝓝 (ρ v), o.Domain₁ (f x) :=
    hd.continuousAt.eventually (Operation.eventually_domain₁ ha hr)
  filter_upwards [hf, hdom] with x hx hdx
  rw [meaning_unary ho hx, Operation.apply₁_of_domain hdx]

/-- A function of two operands that has values around the point and a derivative there. -/
theorem HasSlope.apply_binary {op : Operator} {o : Operation} {l r : Tree ℝ} {f g : ℝ → ℝ} {y : ℝ}
    (ho : op.resolveArity 2 = some o)
    (hl : ∀ᶠ x in 𝓝 (ρ v), l.meaning (Function.update ρ v x) = some (f x))
    (hr : ∀ᶠ x in 𝓝 (ρ v), r.meaning (Function.update ρ v x) = some (g x))
    (hdom : ∀ᶠ x in 𝓝 (ρ v), o.Domain₂ (f x) (g x))
    (hd : HasDerivAt (fun x => o.real₂ (f x) (g x)) y (ρ v)) :
    (binary op l r).HasSlope v ρ y := by
  refine ⟨fun x => o.real₂ (f x) (g x), ?_, hd⟩
  filter_upwards [hl, hr, hdom] with x hlx hrx hdx
  rw [meaning_binary ho hlx hrx, Operation.apply₂_of_domain hdx]

end Tree

/-! ## What the parts of a recipe mean -/

namespace Recipe

variable {ι : Type} {u du : ι → Tree ℝ} {ρ : Name → ℝ} {q p : Recipe ℝ ι} {a b : ℝ}

theorem meaning_binary {o : Operation} (ho : o.arity = 2)
    (hq : (q.fill u du).meaning ρ = some a) (hp : (p.fill u du).meaning ρ = some b)
    (hd : o.Domain₂ a b) : ((binary o q p).fill u du).meaning ρ = some (o.real₂ a b) :=
  Tree.meaning_apply₂ ho hq hp hd

theorem meaning_unary {o : Operation} (ho : o.arity = 1)
    (hq : (q.fill u du).meaning ρ = some a) (hd : o.Domain₁ a) :
    ((unary o q).fill u du).meaning ρ = some (o.real₁ a) :=
  Tree.meaning_apply₁ ho hq hd

theorem meaning_add (hq : (q.fill u du).meaning ρ = some a) (hp : (p.fill u du).meaning ρ = some b) :
    ((binary .add q p).fill u du).meaning ρ = some (a + b) :=
  meaning_binary (o := .add) rfl hq hp trivial

theorem meaning_sub (hq : (q.fill u du).meaning ρ = some a) (hp : (p.fill u du).meaning ρ = some b) :
    ((binary .sub q p).fill u du).meaning ρ = some (a - b) :=
  meaning_binary (o := .sub) rfl hq hp trivial

theorem meaning_mul (hq : (q.fill u du).meaning ρ = some a) (hp : (p.fill u du).meaning ρ = some b) :
    ((binary .mul q p).fill u du).meaning ρ = some (a * b) :=
  meaning_binary (o := .mul) rfl hq hp trivial

theorem meaning_div (hq : (q.fill u du).meaning ρ = some a) (hp : (p.fill u du).meaning ρ = some b)
    (hb : b ≠ 0) : ((binary .div q p).fill u du).meaning ρ = some (a / b) :=
  meaning_binary (o := .div) rfl hq hp hb

theorem meaning_ln (hq : (q.fill u du).meaning ρ = some a) (ha : 0 < a) :
    ((unary .ln q).fill u du).meaning ρ = some (Real.log a) :=
  meaning_unary (o := .ln) rfl hq ha

theorem meaning_one : ((whole 1 : Recipe ℝ ι).fill u du).meaning ρ = some 1 :=
  congrArg some Nat.cast_one

theorem meaning_square (hq : (q.fill u du).meaning ρ = some a) :
    ((square q).fill u du).meaning ρ = some (a ^ 2) := by
  have htwo : ((whole 2 : Recipe ℝ ι).fill u du).meaning ρ = some 2 := congrArg some Nat.cast_ofNat
  rw [square, meaning_binary (o := .pow) rfl hq htwo (Operation.domain_square a), Operation.real₂,
    Real.rpow_two]

theorem meaning_root (hq : (q.fill u du).meaning ρ = some a) (ha : 0 < a) :
    ((root q).fill u du).meaning ρ = some (√a) := by
  have hhalf : ((literal (1 / 2) : Recipe ℝ ι).fill u du).meaning ρ = some (1 / 2) := rfl
  rw [Real.sqrt_eq_rpow]
  exact meaning_binary (o := .pow) rfl hq hhalf (.inl ha)

theorem meaning_negated (hq : (q.fill u du).meaning ρ = some a) :
    ((negated q).fill u du).meaning ρ = some (-a) := by
  rw [← neg_one_mul]
  exact Tree.meaning_apply₂ (o := .mul) (l := .literal (-1)) rfl rfl hq trivial

/-- A slope that is one over something, times the slope of the argument. -/
theorem meaning_over (hq : (q.fill u du).meaning ρ = some a) (hp : (p.fill u du).meaning ρ = some b)
    (hb : b ≠ 0) : ((binary .div q p).fill u du).meaning ρ = some (1 / b * a) := by
  rw [meaning_div hq hp hb, one_div_mul_eq_div]

/-- The same with the opposite sign. -/
theorem meaning_negated_over (hq : (q.fill u du).meaning ρ = some a)
    (hp : (p.fill u du).meaning ρ = some b) (hb : b ≠ 0) :
    ((binary .div (negated q) p).fill u du).meaning ρ = some (-1 / b * a) := by
  rw [meaning_div (meaning_negated hq) hp hb, div_mul_eq_mul_div, neg_one_mul]

/-- **The rules for functions of one argument** mean the slope of the function times that of its
argument. -/
theorem meaning_ofFunction {o : Operation} {r : Recipe ℝ Unit} (hr : ofFunction o = some r)
    {x dx : Tree ℝ} {y : ℝ} (hx : x.meaning ρ = some a) (hdx : dx.meaning ρ = some y)
    (h : o.Regular₁ a) :
    (r.fill (fun _ => x) (fun _ => dx)).meaning ρ = some (o.slope₁ a * y) := by
  have hin : ((inner : Recipe ℝ Unit).fill (fun _ => x) (fun _ => dx)).meaning ρ = some y := hdx
  have harg : ((argument : Recipe ℝ Unit).fill (fun _ => x) (fun _ => dx)).meaning ρ = some a := hx
  cases o with
  | add | sub | mul | div | pow | log => cases hr
  | ln =>
    cases hr
    exact meaning_over hin harg (ne_of_gt h)
  | sin =>
    cases hr
    exact meaning_mul (meaning_unary (o := .cos) rfl harg trivial) hin
  | cos =>
    cases hr
    exact meaning_mul (meaning_negated (meaning_unary (o := .sin) rfl harg trivial)) hin
  | tan =>
    cases hr
    exact meaning_over hin (meaning_square (meaning_unary (o := .cos) rfl harg trivial))
      (pow_ne_zero 2 h)
  | cot =>
    cases hr
    exact meaning_negated_over hin (meaning_square (meaning_unary (o := .sin) rfl harg trivial))
      (pow_ne_zero 2 h)
  | sinh =>
    cases hr
    exact meaning_mul (meaning_unary (o := .cosh) rfl harg trivial) hin
  | cosh =>
    cases hr
    exact meaning_mul (meaning_unary (o := .sinh) rfl harg trivial) hin
  | arcsin =>
    cases hr
    have hpos : 0 < 1 - a ^ 2 := by nlinarith [h.1, h.2]
    exact meaning_over hin (meaning_root (meaning_sub meaning_one (meaning_square harg)) hpos)
      (Real.sqrt_pos.mpr hpos).ne'
  | arccos =>
    cases hr
    have hpos : 0 < 1 - a ^ 2 := by nlinarith [h.1, h.2]
    exact meaning_negated_over hin
      (meaning_root (meaning_sub meaning_one (meaning_square harg)) hpos)
      (Real.sqrt_pos.mpr hpos).ne'
  | arctan =>
    cases hr
    have hpos : 0 < 1 + a ^ 2 := by positivity
    exact meaning_over hin (meaning_add meaning_one (meaning_square harg)) hpos.ne'
  | arccot =>
    cases hr
    have hpos : 0 < 1 + a ^ 2 := by positivity
    exact meaning_negated_over hin (meaning_add meaning_one (meaning_square harg)) hpos.ne'
  | arsinh =>
    cases hr
    have hpos : 0 < a ^ 2 + 1 := by positivity
    exact meaning_over hin (meaning_root (meaning_add (meaning_square harg) meaning_one) hpos)
      (Real.sqrt_pos.mpr hpos).ne'
  | arccosh =>
    cases hr
    have hone : 1 < a := h
    have hpos : 0 < a ^ 2 - 1 := by nlinarith
    exact meaning_over hin (meaning_root (meaning_sub (meaning_square harg) meaning_one) hpos)
      (Real.sqrt_pos.mpr hpos).ne'
  | artanh =>
    cases hr
    have hpos : 0 < 1 - a ^ 2 := by nlinarith [h.1, h.2]
    exact meaning_over hin (meaning_sub meaning_one (meaning_square harg)) hpos.ne'

end Recipe

/-! ## Operations of two arguments -/

namespace Tree

variable {v : Name} {ρ : Name → ℝ} {op : Operator} {l r dl dr : Tree ℝ} {y z : ℝ}

section Calculus

variable {f g : ℝ → ℝ}
  (hf : ∀ᶠ x in 𝓝 (ρ v), l.meaning (Function.update ρ v x) = some (f x))
  (hg : ∀ᶠ x in 𝓝 (ρ v), r.meaning (Function.update ρ v x) = some (g x))
  (hfd : HasDerivAt f y (ρ v)) (hgd : HasDerivAt g z (ρ v))

include hf hg hfd hgd

theorem hasSlope_quotient (ho : op.resolveArity 2 = some .div) (hne : g (ρ v) ≠ 0) :
    (binary op l r).HasSlope v ρ
      ((y * g (ρ v) - f (ρ v) * z) / (g (ρ v) * g (ρ v))) := by
  refine .apply_binary ho hf hg (hgd.continuousAt.eventually_ne hne) ?_
  refine (hfd.div hgd hne).congr_deriv ?_
  rw [sq]

/-- A logarithm is a quotient of two natural ones. -/
theorem hasSlope_logarithm (ho : op.resolveArity 2 = some .log) (hapos : 0 < f (ρ v))
    (hbpos : 0 < g (ρ v)) (hane : f (ρ v) ≠ 1) :
    (binary op l r).HasSlope v ρ
      ((z / g (ρ v) * Real.log (f (ρ v)) - Real.log (g (ρ v)) * (y / f (ρ v))) /
        (Real.log (f (ρ v)) * Real.log (f (ρ v)))) := by
  have hlog : Real.log (f (ρ v)) ≠ 0 := Real.log_ne_zero_of_pos_of_ne_one hapos hane
  refine .apply_binary ho hf hg ?_ ?_
  · filter_upwards [hfd.continuousAt.eventually_const_lt hapos,
      hfd.continuousAt.eventually_ne hane, hgd.continuousAt.eventually_const_lt hbpos]
      with x h1 h2 h3 using ⟨h1, h2, h3⟩
  · refine ((hgd.log hbpos.ne').div (hfd.log hapos.ne') hlog).congr_deriv ?_
    rw [sq]

/-- Where both the base and the exponent vary. -/
theorem hasSlope_power (ho : op.resolveArity 2 = some .pow) (hapos : 0 < f (ρ v)) :
    (binary op l r).HasSlope v ρ
      (f (ρ v) ^ g (ρ v) * (z * Real.log (f (ρ v)) + g (ρ v) * y / f (ρ v))) := by
  refine .apply_binary ho hf hg ?_ ?_
  · filter_upwards [hfd.continuousAt.eventually_const_lt hapos] with x hx using .inl hx
  · refine (hfd.rpow hgd hapos).congr_deriv ?_
    rw [Real.rpow_sub_one hapos.ne']
    field_simp
    ring

end Calculus

/-- The rules that need the derivatives of both operands. -/
theorem slope_both {o : Operation} {q : Recipe ℝ Side} (ho : op.resolveArity 2 = some o)
    (hq : Plan.ofOperation o l.literal? r.literal? = some (.both q))
    (hl : l.HasSlope v ρ y) (hr : r.HasSlope v ρ z)
    (hdl : dl.meaning ρ = some y) (hdr : dr.meaning ρ = some z)
    (hreg : ∀ a b, l.meaning ρ = some a → r.meaning ρ = some b → o.Regular₂ r.literal? a b) :
    ∃ slope, (q.fill (Side.pick l r) (Side.pick dl dr)).meaning ρ = some slope ∧
      (binary op l r).HasSlope v ρ slope := by
  obtain ⟨f, hf, hfd⟩ := hl
  obtain ⟨g, hg, hgd⟩ := hr
  have ha := meaning_of_eventually hf
  have hb := meaning_of_eventually hg
  have hreg := hreg _ _ ha hb
  have hrl : ((Recipe.l : Recipe ℝ Side).fill (Side.pick l r) (Side.pick dl dr)).meaning ρ =
      some (f (ρ v)) := ha
  have hrr : ((Recipe.r : Recipe ℝ Side).fill (Side.pick l r) (Side.pick dl dr)).meaning ρ =
      some (g (ρ v)) := hb
  have hrdl : ((Recipe.dl : Recipe ℝ Side).fill (Side.pick l r) (Side.pick dl dr)).meaning ρ =
      some y := hdl
  have hrdr : ((Recipe.dr : Recipe ℝ Side).fill (Side.pick l r) (Side.pick dl dr)).meaning ρ =
      some z := hdr
  have anywhere : ∀ {o : Operation}, (∀ a b, o.Domain₂ a b) →
      ∀ᶠ x in 𝓝 (ρ v), o.Domain₂ (f x) (g x) := fun h => .of_forall fun x => h _ _
  cases o with
  | add =>
    cases hq
    exact ⟨_, Recipe.meaning_add hrdl hrdr,
      .apply_binary ho hf hg (anywhere fun _ _ => trivial) (hfd.add hgd)⟩
  | sub =>
    cases hq
    exact ⟨_, Recipe.meaning_sub hrdl hrdr,
      .apply_binary ho hf hg (anywhere fun _ _ => trivial) (hfd.sub hgd)⟩
  | mul =>
    cases hq
    exact ⟨_, Recipe.meaning_add (Recipe.meaning_mul hrdl hrr) (Recipe.meaning_mul hrl hrdr),
      .apply_binary ho hf hg (anywhere fun _ _ => trivial) (hfd.mul hgd)⟩
  | div =>
    cases hq
    have hne : g (ρ v) ≠ 0 := hreg
    refine ⟨_, ?_, hasSlope_quotient hf hg hfd hgd ho hne⟩
    exact Recipe.meaning_div
      (Recipe.meaning_sub (Recipe.meaning_mul hrdl hrr) (Recipe.meaning_mul hrl hrdr))
      (Recipe.meaning_mul hrr hrr) (mul_ne_zero hne hne)
  | log =>
    cases hq
    obtain ⟨hapos, hbpos, hane⟩ : 0 < f (ρ v) ∧ 0 < g (ρ v) ∧ f (ρ v) ≠ 1 := hreg
    have hlog : Real.log (f (ρ v)) ≠ 0 := Real.log_ne_zero_of_pos_of_ne_one hapos hane
    have hlnl := Recipe.meaning_ln hrl hapos
    refine ⟨_, ?_, hasSlope_logarithm hf hg hfd hgd ho hapos hbpos hane⟩
    exact Recipe.meaning_div
      (Recipe.meaning_sub
        (Recipe.meaning_mul (Recipe.meaning_div hrdr hrr hbpos.ne') hlnl)
        (Recipe.meaning_mul (Recipe.meaning_ln hrr hbpos) (Recipe.meaning_div hrdl hrl hapos.ne')))
      (Recipe.meaning_mul hlnl hlnl) (mul_ne_zero hlog hlog)
  | pow =>
    -- the rule for both is chosen only if neither operand is a literal
    cases hlit : r.literal? with
    | some c => rw [hlit] at hq; cases hl' : l.literal? <;> rw [hl'] at hq <;> cases hq
    | none =>
      rw [hlit] at hq hreg
      have hapos : 0 < f (ρ v) := hreg
      cases hlit' : l.literal? with
      | some c => rw [hlit'] at hq; cases hq
      | none =>
        rw [hlit'] at hq
        cases hq
        have hpow : ((Recipe.binary .pow .l .r : Recipe ℝ Side).fill (Side.pick l r)
            (Side.pick dl dr)).meaning ρ = some (f (ρ v) ^ g (ρ v)) :=
          Recipe.meaning_binary (o := .pow) rfl hrl hrr (.inl hapos)
        refine ⟨_, ?_, hasSlope_power hf hg hfd hgd ho hapos⟩
        exact meaning_apply₂ (o := .mul) rfl hpow (Recipe.meaning_add
          (Recipe.meaning_mul hrdr (Recipe.meaning_ln hrl hapos))
          (Recipe.meaning_div (Recipe.meaning_mul hrr hrdl) hrl hapos.ne')) trivial
  | _ => cases hq

/-- The rule for a power with a literal exponent. -/
theorem slope_powerOfLiteral {c : ℝ} (ho : op.resolveArity 2 = some .pow) (hl : l.HasSlope v ρ y)
    (hdl : dl.meaning ρ = some y)
    (hreg : ∀ a, l.meaning ρ = some a → Operation.RegularPower a (some c)) :
    ∃ slope, ((Recipe.powerOfLiteral c).fill (fun _ => l) (fun _ => dl)).meaning ρ = some slope ∧
      (binary op l (literal c)).HasSlope v ρ slope := by
  obtain ⟨f, hf, hfd⟩ := hl
  have ha := meaning_of_eventually hf
  have hreg := hreg _ ha
  have hside : f (ρ v) ≠ 0 ∨ 1 ≤ c := by
    rcases hreg with h | ⟨-, h⟩ | ⟨-, h, -⟩
    · exact .inl h.ne'
    · exact .inl h.ne
    · exact .inr h
  have hdom : Operation.pow.Domain₂ (f (ρ v)) (c - 1) := by
    rcases hreg with h | ⟨⟨n, hn⟩, h⟩ | ⟨-, hc, h⟩
    · exact .inl h
    · exact .inr (.inl ⟨h, n - 1, by rw [hn]; push_cast; rfl⟩)
    · exact .inr (.inr ⟨h, by linarith⟩)
  have hnear : ∀ᶠ x in 𝓝 (ρ v), Operation.pow.Domain₂ (f x) c := by
    rcases hreg with h | ⟨hw, h⟩ | ⟨hw, hc, -⟩
    · filter_upwards [hfd.continuousAt.eventually_const_lt h] with x hx using .inl hx
    · filter_upwards [hfd.continuousAt.eventually_lt_const h] with x hx using .inr (.inl ⟨hx, hw⟩)
    · refine .of_forall fun x => ?_
      rcases lt_trichotomy (f x) 0 with h | h | h
      · exact .inr (.inl ⟨h, hw⟩)
      · exact .inr (.inr ⟨h, by linarith⟩)
      · exact .inl h
  have hpow : ((Recipe.binary .pow .argument (.literal (Coefficient.pred c)) :
      Recipe ℝ Unit).fill (fun _ => l) (fun _ => dl)).meaning ρ = some (f (ρ v) ^ (c - 1)) :=
    Recipe.meaning_binary (o := .pow) rfl ha rfl hdom
  refine ⟨_, Recipe.meaning_mul (meaning_apply₂ (o := .mul) (l := literal c) rfl rfl hpow trivial)
    hdl, ?_⟩
  refine .apply_binary (g := fun _ => c) ho hf (.of_forall fun _ => rfl) hnear ?_
  refine (hfd.rpow_const hside).congr_deriv ?_
  rw [Operation.real₂]
  ring

/-- The rule for a power of a literal base. -/
theorem slope_literalToPower {c : ℝ} (ho : op.resolveArity 2 = some .pow) (hr : r.HasSlope v ρ z)
    (hdr : dr.meaning ρ = some z) (hc : 0 < c) :
    ∃ slope, ((Recipe.literalToPower c).fill (fun _ => r) (fun _ => dr)).meaning ρ = some slope ∧
      (binary op (literal c) r).HasSlope v ρ slope := by
  obtain ⟨g, hg, hgd⟩ := hr
  have hb := meaning_of_eventually hg
  have hlit : ((Recipe.literal c : Recipe ℝ Unit).fill (fun _ => r) (fun _ => dr)).meaning ρ =
      some c := rfl
  have hpow : ((Recipe.binary .pow (.literal c) .argument : Recipe ℝ Unit).fill (fun _ => r)
      (fun _ => dr)).meaning ρ = some (c ^ g (ρ v)) :=
    Recipe.meaning_binary (o := .pow) rfl hlit hb (.inl hc)
  refine ⟨_, Recipe.meaning_mul (Recipe.meaning_mul hpow (Recipe.meaning_ln hlit hc)) hdr, ?_⟩
  refine .apply_binary (f := fun _ => c) ho (.of_forall fun _ => rfl) hg
    (.of_forall fun _ => .inl hc) ?_
  refine (hgd.const_rpow hc).congr_deriv ?_
  ring

/-! ## Correctness -/

/-- **Differentiation is correct.** At a regular point a tree built from operations has a derivative,
the tree of the derivative means a number there, and near the point the tree means a function of the
variable with that number as its derivative. -/
theorem derivative_hasSlope {t : Tree ℝ} (ht : t.isOperational = true) (v : Name) (ρ : Name → ℝ)
    (h : t.Regular ρ) :
    ∃ d slope, t.derivative v = .ok d ∧ d.meaning ρ = some slope ∧ t.HasSlope v ρ slope := by
  induction t with
  | absent => cases ht
  | literal c => exact ⟨_, 0, rfl, congrArg some Nat.cast_zero, hasSlope_literal c⟩
  | var n =>
    by_cases hn : n = v
    · subst hn
      refine ⟨literal 1, 1, ?_, rfl, hasSlope_var_self⟩
      rw [derivative, if_pos rfl]
      exact congrArg (Except.ok ∘ literal) Nat.cast_one
    · refine ⟨literal 0, 0, ?_, rfl, hasSlope_var_ne hn⟩
      rw [derivative, if_neg hn]
      exact congrArg (Except.ok ∘ literal) Nat.cast_zero
  | unary op x ih =>
    simp only [isOperational, Bool.and_eq_true] at ht
    obtain ⟨hres, hx⟩ := ht
    obtain ⟨o, ho⟩ := Option.isSome_iff_exists.mp hres
    obtain ⟨dx, y, hdx, hm, hs⟩ := ih hx h.1
    obtain ⟨a, ha⟩ := hs.meaning
    obtain ⟨q, hq⟩ := Recipe.ofFunction_of_arity (κ := ℝ) (Operator.arity_of_resolveArity ho)
    have hreg := h.2 o a ho ha
    refine ⟨_, _, ?_, Recipe.meaning_ofFunction hq ha hm hreg,
      hs.apply_unary ho (Operator.arity_of_resolveArity ho) ha hreg⟩
    rw [derivative, Recipe.ofOperator, ho, Option.bind_some, hq, hdx]
  | binary op l r ihl ihr =>
    simp only [isOperational, Bool.and_eq_true] at ht
    obtain ⟨⟨hres, hl⟩, hr⟩ := ht
    obtain ⟨o, ho⟩ := Option.isSome_iff_exists.mp hres
    obtain ⟨dl, y, hdl, hml, hsl⟩ := ihl hl h.1
    obtain ⟨dr, z, hdr, hmr, hsr⟩ := ihr hr h.2.1
    have hreg : ∀ a b, l.meaning ρ = some a → r.meaning ρ = some b →
        o.Regular₂ r.literal? a b := fun a b => h.2.2 o a b ho
    obtain ⟨b, hb⟩ := hsr.meaning
    have hplan : Plan.ofOperator op l.literal? r.literal? =
        Plan.ofOperation o l.literal? r.literal? := by
      rw [Plan.ofOperator, ho, Option.bind_some]
    -- the plan decides which operands are differentiated: it is `left` or `right` for powers only
    cases hp : Plan.ofOperation o l.literal? r.literal? with
    | none => exact absurd hp (Plan.ofOperation_ne_none (Operator.arity_of_resolveArity ho) _ _)
    | some plan =>
      cases plan with
      | left q =>
        obtain ⟨c, rfl, hc, rfl⟩ := Plan.eq_left hp
        have hrc := eq_literal_of_literal? hc
        subst hrc
        obtain ⟨slope, hq, hs⟩ := slope_powerOfLiteral ho hsl hml fun a ha => hreg a c ha rfl
        exact ⟨_, slope, by rw [derivative, hplan, hp, hdl], hq, hs⟩
      | right q =>
        obtain ⟨c, rfl, hc, hn, rfl⟩ := Plan.eq_right hp
        have hlc := eq_literal_of_literal? hc
        subst hlc
        have hpos : 0 < c := by
          have := hreg c b rfl hb
          rwa [hn] at this
        obtain ⟨slope, hq, hs⟩ := slope_literalToPower ho hsr hmr hpos
        exact ⟨_, slope, by rw [derivative, hplan, hp, hdr], hq, hs⟩
      | both q =>
        obtain ⟨slope, hq, hs⟩ := slope_both ho hp hsl hsr hml hmr hreg
        exact ⟨_, slope, by rw [derivative, hplan, hp, hdl, hdr], hq, hs⟩

/-- The derivative of `x ^ 3 / ln y` by `x` where `x` is zero: the base of the power is zero and its
exponent a whole number above one. -/
theorem derivative_hasSlope_cube_over_ln :
    let t := apply₂ .div (apply₂ .pow (var (some "x")) (literal 3)) (apply₁ .ln (var (some "y")))
    let ρ : Name → ℝ := fun n => if n = some "x" then 0 else 2
    t.isOperational = true ∧ t.Regular ρ ∧
      ∃ d slope, t.derivative (some "x") = .ok d ∧ d.meaning ρ = some slope ∧
        t.HasSlope (some "x") ρ slope := by
  intro t ρ
  have ht : t.isOperational = true := rfl
  have hx : (var (some "x")).meaning ρ = some 0 := rfl
  have hy : (var (some "y")).meaning ρ = some 2 := by
    rw [meaning, show ρ (some "y") = 2 from if_neg (by decide)]
  have hln : (apply₁ .ln (var (some "y"))).meaning ρ = some (Real.log 2) :=
    meaning_apply₁ (o := .ln) rfl hy (by norm_num [Operation.Domain₁])
  have hr : t.Regular ρ := by
    refine ⟨⟨trivial, trivial, fun o a b ho ha _ => ?_⟩, ⟨trivial, fun o a ho ha => ?_⟩,
      fun o a b ho _ hb => ?_⟩
    · obtain rfl : Operation.pow = o := Option.some.inj ho
      obtain rfl : 0 = a := Option.some.inj (hx.symm.trans ha)
      exact .inr (.inr ⟨⟨3, by norm_num⟩, by norm_num, rfl⟩)
    · obtain rfl : Operation.ln = o := Option.some.inj ho
      obtain rfl : 2 = a := Option.some.inj (hy.symm.trans ha)
      norm_num [Operation.Regular₁]
    · obtain rfl : Operation.div = o := Option.some.inj ho
      obtain rfl : Real.log 2 = b := Option.some.inj (hln.symm.trans hb)
      exact (Real.log_pos one_lt_two).ne'
  exact ⟨ht, hr, derivative_hasSlope ht (some "x") ρ hr⟩

end Tree

end Fluxion
