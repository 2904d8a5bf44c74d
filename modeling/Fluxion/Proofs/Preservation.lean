import Fluxion.Proofs.Ownership
import Fluxion.Proofs.PartialReal
import Fluxion.Proofs.Respelling
import Fluxion.Proofs.Simplification

/-!
# Simplification preserves the value

Where a tree has a value under a valuation, all its subtrees have one, since no operation has a value
at an undefined argument. So an identity may drop an operand: it was defined. A fold puts the value
under the bindings of the simplifier in place of an operation without the argument, and any valuation
that agrees with the bindings gives the operation the same value.

The identities test literals within a tolerance, and hold only where the tests that pass are exact. The
tests of an operation are made in order, up to the first that passes; so a run is exact when at every
operation it comes to this one is.

* `Simplifier.Exact` says that the tests of a run are exact.
* `Simplifier.identity?_hasValue` is the soundness of the identities, and
  `Simplifier.foldHere_hasValue` that of folding.
* `Simplifier.run_preserves_value` goes from the steps to the whole simplification in place.
-/

namespace Fluxion

open Act

/-! ## Exact tests -/

/-- Whether the literals at the same places of two trees are the same. -/
def Tree.SameLiterals {κ : Type} : Tree κ → Tree κ → Prop
  | literal a, literal b => a = b
  | binary _ l r, binary _ l' r' => l.SameLiterals l' ∧ r.SameLiterals r'
  | unary _ x, unary _ x' => x.SameLiterals x'
  | _, _ => True

/-- A test that the identities make of literals: whether a tree counts as zero or as one, or whether
two trees match. -/
inductive LiteralTest (κ : Type) where
  | zero (t : Tree κ)
  | one (t : Tree κ)
  | equal (l r : Tree κ)

namespace LiteralTest

variable {κ : Type} [Scalar κ]

/-- Whether a test passes. -/
def passes (σ : Simplifier κ) : LiteralTest κ → Bool
  | zero t => σ.isZero t
  | one t => σ.isOne t
  | equal l r => l.agrees σ.tolerance r

@[simp] theorem passes_zero (σ : Simplifier κ) (t : Tree κ) : (zero t).passes σ = σ.isZero t := rfl

@[simp] theorem passes_one (σ : Simplifier κ) (t : Tree κ) : (one t).passes σ = σ.isOne t := rfl

@[simp] theorem passes_equal (σ : Simplifier κ) (l r : Tree κ) :
    (equal l r).passes σ = l.agrees σ.tolerance r := rfl

/-- Whether a test is met exactly. -/
def Exact : LiteralTest κ → Prop
  | zero t => t = .literal Scalar.zero
  | one t => t = .literal Scalar.one
  | equal l r => l.SameLiterals r

/-- The tests of the identities of an operation, in order. (Where the numerator of a quotient is zero
the denominator is tested as well, but that test only keeps an identity from being used.) -/
def list : Operation → Tree κ → Tree κ → List (LiteralTest κ)
  | .add, l, r => [zero r, zero l]
  | .sub, l, r => [zero r, equal l r]
  | .mul, l, r => [zero l, zero r, one l, one r]
  | .div, l, r => [one r, zero l]
  | .pow, l, r => [zero r, one r, one l, zero l]
  | _, _, _ => []

end LiteralTest

namespace Simplifier

section Exactness

variable {κ : Type} [Scalar κ] (σ : Simplifier κ)

/-- The first test that passes at an operation is met exactly. -/
def ExactAt (o : Operation) (l r : Tree κ) : Prop :=
  ∀ test, (LiteralTest.list o l r).find? (·.passes σ) = some test → test.Exact

/-- The tests of one pass of identities are exact. -/
def ExactPass : Tree κ → Prop
  | .binary op l r => ExactPass l ∧ ExactPass r ∧
      ∀ o, op.resolve = some o → σ.ExactAt o (σ.reduce l) (σ.reduce r)
  | .unary _ x => ExactPass x
  | _ => True

/-- The tests of all passes are exact, up to the last one that is made. -/
def ExactIn : Nat → Tree κ → Prop
  | 0, _ => True
  | rounds + 1, t =>
    σ.ExactPass (σ.fold t) ∧ ((σ.pass t).operations ≠ t.operations → ExactIn rounds (σ.pass t))

/-- The tests of a whole simplification are exact. -/
def Exact (t : Tree κ) : Prop := σ.ExactIn σ.maxIterations.toNat t

/-- A valuation agrees with the bindings of a simplifier, but for the argument. -/
def Respects (ρ : Valuation κ) : Prop :=
  ∀ n v, n ≠ σ.argument → σ.bindings n = some v → ρ n = some v

end Exactness

end Simplifier

namespace Operator

theorem resolveArity_eq_of_same {o p : Operator} (h : o.same p = true) (n : Nat) :
    o.resolveArity n = p.resolveArity n := by
  have hc : o.canonical = p.canonical := of_decide_eq_true h
  have hr : o.resolve = p.resolve := by rw [← o.resolve_canonical, hc, p.resolve_canonical]
  unfold resolveArity
  rw [hr]

end Operator

/-! ## Values -/

namespace Tree

/-- A tree has a defined value under a valuation. -/
def HasValue (ρ : Valuation PartialReal) (t : Tree PartialReal) (c : ℝ) : Prop :=
  t.value .guarded ρ = .ok (some c)

variable {ρ : Valuation PartialReal} {t t' l r l' r' x x' : Tree PartialReal} {op : Operator}
  {c a : ℝ}

theorem hasValue_literal {v : PartialReal} : (literal v).HasValue ρ c ↔ v = some c := by
  unfold HasValue value
  exact ⟨fun h => Except.ok.inj h, fun h => congrArg Except.ok h⟩

/-- **The operands of an operation with a value have values.** -/
theorem hasValue_binary :
    (binary op l r).HasValue ρ c ↔ ∃ o a b, op.resolveArity 2 = some o ∧ l.HasValue ρ a ∧
      r.HasValue ρ b ∧ Kernel.guardedBinary o (some a) (some b) = some c := by
  unfold HasValue
  constructor
  · intro h
    rw [value] at h
    cases hl : l.value .guarded ρ with
    | error f => simp [hl] at h
    | ok u =>
      cases hr : r.value .guarded ρ with
      | error f => simp [hl, hr] at h
      | ok v =>
        cases ho : op.resolveArity 2 with
        | none => simp [hl, hr, ho] at h
        | some o =>
          simp only [hl, hr, ho, Except.ok.injEq] at h
          obtain ⟨a, b, rfl, rfl, -⟩ := Kernel.guardedBinary_eq_some h
          exact ⟨o, a, b, rfl, rfl, rfl, h⟩
  · rintro ⟨o, a, b, ho, hl, hr, h⟩
    rw [value, hl, hr, ho]
    exact congrArg Except.ok h

theorem hasValue_unary :
    (unary op x).HasValue ρ c ↔ ∃ o a, op.resolveArity 1 = some o ∧ x.HasValue ρ a ∧
      Kernel.guardedUnary o (some a) = some c := by
  unfold HasValue
  constructor
  · intro h
    rw [value] at h
    cases hx : x.value .guarded ρ with
    | error f => simp [hx] at h
    | ok u =>
      cases ho : op.resolveArity 1 with
      | none => simp [hx, ho] at h
      | some o =>
        simp only [hx, ho, Except.ok.injEq] at h
        obtain ⟨a, rfl⟩ := Kernel.guardedUnary_eq_some h
        exact ⟨o, a, rfl, rfl, h⟩
  · rintro ⟨o, a, ho, hx, h⟩
    rw [value, hx, ho]
    exact congrArg Except.ok h

/-- A value is kept when the operands keep theirs. -/
theorem HasValue.binary_congr (h : (binary op l r).HasValue ρ c)
    (hl : ∀ a, l.HasValue ρ a → l'.HasValue ρ a) (hr : ∀ a, r.HasValue ρ a → r'.HasValue ρ a) :
    (binary op l' r').HasValue ρ c := by
  obtain ⟨o, a, b, ho, ha, hb, hk⟩ := hasValue_binary.mp h
  exact hasValue_binary.mpr ⟨o, a, b, ho, hl a ha, hr b hb, hk⟩

theorem HasValue.unary_congr (h : (unary op x).HasValue ρ c)
    (hx : ∀ a, x.HasValue ρ a → x'.HasValue ρ a) : (unary op x').HasValue ρ c := by
  obtain ⟨o, a, ho, ha, hk⟩ := hasValue_unary.mp h
  exact hasValue_unary.mpr ⟨o, a, ho, hx a ha, hk⟩

theorem HasValue.unique (h : t.HasValue ρ a) (h' : t.HasValue ρ c) : a = c := by
  unfold HasValue at h h'
  rw [h] at h'
  exact Option.some.inj (Except.ok.inj h')

/-- Trees that match have the same value if their literals are the same. -/
theorem HasValue.of_agrees {tolerance : PartialReal} (h : t.HasValue ρ c)
    (ht : t.agrees tolerance t' = true) (hs : t.SameLiterals t') : t'.HasValue ρ c := by
  induction t generalizing t' c with
  | absent => cases h
  | literal v =>
    cases t' <;> simp only [agrees, Bool.false_eq_true] at ht
    exact hs ▸ h
  | var n =>
    cases t' <;> simp only [agrees, Bool.false_eq_true, decide_eq_true_eq] at ht
    exact ht ▸ h
  | binary op l r ihl ihr =>
    cases t' <;> simp only [agrees, Bool.false_eq_true, Bool.and_eq_true] at ht
    obtain ⟨⟨hop, hl⟩, hr⟩ := ht
    obtain ⟨o, a, b, ho, ha, hb, hk⟩ := hasValue_binary.mp h
    rw [Operator.resolveArity_eq_of_same hop] at ho
    exact hasValue_binary.mpr ⟨o, a, b, ho, ihl ha hl hs.1, ihr hb hr hs.2, hk⟩
  | unary op x ih =>
    cases t' <;> simp only [agrees, Bool.false_eq_true, Bool.and_eq_true] at ht
    obtain ⟨hop, hx⟩ := ht
    obtain ⟨o, a, ho, ha, hk⟩ := hasValue_unary.mp h
    rw [Operator.resolveArity_eq_of_same hop] at ho
    exact hasValue_unary.mpr ⟨o, a, ho, ih ha hx hs, hk⟩

/-- What a function applied from the leaves up mentions was mentioned before, if this is so at every
node. -/
theorem mentions_of_bottomUp {κ : Type} {n : Name} {here : Tree κ → Tree κ}
    (hh : ∀ t, (here t).mentions n = true → t.mentions n = true) {t : Tree κ}
    (h : (t.bottomUp here).mentions n = true) : t.mentions n = true := by
  induction t with
  | absent => exact h
  | literal v => exact hh _ h
  | var m => exact hh _ h
  | binary op l r ihl ihr =>
    have hb := hh _ h
    simp only [mentions, Bool.or_eq_true] at hb ⊢
    exact hb.imp ihl ihr
  | unary op x ih =>
    have hx : (x.bottomUp here).mentions n = true := hh (.unary op (x.bottomUp here)) h
    exact ih hx

end Tree

namespace Simplifier

variable (σ : Simplifier PartialReal) {ρ : Valuation PartialReal} {t l r : Tree PartialReal} {c : ℝ}

/-! ## Folding -/

/-- A value under some bindings is the value under any valuation that agrees on the names that
occur. -/
theorem value_eq_of_agree {κ : Type} {K : Kernel κ} {B ρ : Valuation κ} {t : Tree κ} {v : κ}
    (h : t.value K B = .ok v)
    (hn : ∀ n y, t.mentions n = true → B n = some y → ρ n = some y) : t.value K ρ = .ok v := by
  induction t generalizing v with
  | absent => exact h
  | literal u => exact h
  | var n =>
    rw [Tree.value] at h ⊢
    cases hb : B n with
    | none => simp [hb] at h
    | some y =>
      rw [hb] at h
      rw [hn n y (by simp [Tree.mentions]) hb]
      exact h
  | binary op l r ihl ihr =>
    rw [Tree.value] at h ⊢
    have hnl : ∀ n y, l.mentions n = true → B n = some y → ρ n = some y := fun n y hm =>
      hn n y (by simp [Tree.mentions, hm])
    have hnr : ∀ n y, r.mentions n = true → B n = some y → ρ n = some y := fun n y hm =>
      hn n y (by simp [Tree.mentions, hm])
    cases hl : l.value K B with
    | error f => simp [hl] at h
    | ok a =>
      cases hr : r.value K B with
      | error f => simp [hl, hr] at h
      | ok b =>
        rw [hl, hr] at h
        rw [ihl hl hnl, ihr hr hnr]
        exact h
  | unary op x ih =>
    rw [Tree.value] at h ⊢
    cases hx : x.value K B with
    | error f => simp [hx] at h
    | ok a =>
      rw [hx] at h
      rw [ih hx fun n y hm => hn n y (by simpa [Tree.mentions] using hm)]
      exact h

/-- What folds does not mention the argument, and folds into its value. -/
theorem folded?_eq_some {κ : Type} [Scalar κ] {σ : Simplifier κ} {t : Tree κ} {v : κ}
    (h : σ.folded? t = .ok (some v)) :
    t.mentions σ.argument = false ∧ t.value .guarded σ.bindings = .ok v := by
  rw [folded?_eq] at h
  cases hf : σ.isFoldable t with
  | false => simp [hf] at h
  | true =>
    have hm : t.mentions σ.argument = false := by
      cases t <;> simp_all [isFoldable]
    rw [hf, if_pos rfl] at h
    cases hv : t.value .guarded σ.bindings with
    | error f => simp [hv] at h
    | ok u =>
      rw [hv] at h
      have hu := Except.ok.inj h
      split at hu
      · exact ⟨hm, congrArg Except.ok (Option.some.inj hu)⟩
      · cases hu

/-- **Folding preserves the value.** -/
theorem foldHere_hasValue (hρ : σ.Respects ρ) (h : t.HasValue ρ c) :
    (σ.foldHere t).HasValue ρ c := by
  unfold foldHere
  split
  · rename_i v hv
    obtain ⟨hm, hval⟩ := folded?_eq_some hv
    have hsame : t.value .guarded ρ = .ok v := by
      refine value_eq_of_agree hval fun n y hn hy => hρ n y ?_ hy
      rintro rfl
      rw [hm] at hn
      cases hn
    exact Tree.hasValue_literal.mpr (Except.ok.inj (hsame.symm.trans h))
  · exact h

theorem fold_hasValue (hρ : σ.Respects ρ) (h : t.HasValue ρ c) : (σ.fold t).HasValue ρ c := by
  induction t generalizing c with
  | binary op l r ihl ihr =>
    exact σ.foldHere_hasValue hρ (h.binary_congr (fun _ => ihl) fun _ => ihr)
  | unary op x ih => exact σ.foldHere_hasValue hρ (h.unary_congr fun _ => ih)
  | _ => exact h

/-! ## Identities -/

theorem hasValue_zero : (Tree.literal (Scalar.zero : PartialReal)).HasValue ρ 0 :=
  Tree.hasValue_literal.mpr PartialReal.zero_eq

theorem hasValue_one : (Tree.literal (Scalar.one : PartialReal)).HasValue ρ 1 :=
  Tree.hasValue_literal.mpr PartialReal.one_eq

section Identities

variable {o : Operation} {outcome : Outcome PartialReal} {a b : ℝ}

/-- A tree that is exactly zero has the value zero. -/
theorem eq_zero_of_exact (h : (LiteralTest.zero t).Exact) (ht : t.HasValue ρ a) : a = 0 := by
  cases (show t = _ from h)
  exact ht.unique hasValue_zero

theorem eq_one_of_exact (h : (LiteralTest.one t).Exact) (ht : t.HasValue ρ a) : a = 1 := by
  cases (show t = _ from h)
  exact ht.unique hasValue_one

/-- A literal above zero has a value above zero. -/
theorem pos_of_isPositive {t : Tree PartialReal} (h : isPositive t = true) (ht : t.HasValue ρ c) :
    0 < c := by
  cases t with
  | literal v =>
    obtain rfl := Tree.hasValue_literal.mp ht
    simp only [isPositive, PartialReal.zero_eq] at h
    exact of_decide_eq_true h
  | _ => cases h

variable (ha : l.HasValue ρ a) (hb : r.HasValue ρ b)

include ha hb

theorem add_hasValue (h : σ.identity? .add l r = some outcome) (he : σ.ExactAt .add l r) :
    (outcome.result l r).HasValue ρ (a + b) := by
  simp only [identity?] at h
  split_ifs at h with hr hl
  · cases h
    have hb0 := eq_zero_of_exact (he (.zero r) (by simp [LiteralTest.list, hr])) hb
    rw [hb0, add_zero]
    exact ha
  · cases h
    have ha0 :=
      eq_zero_of_exact (he (.zero l) (by simp [LiteralTest.list, hr, hl])) ha
    rw [ha0, zero_add]
    exact hb

theorem sub_hasValue (h : σ.identity? .sub l r = some outcome) (he : σ.ExactAt .sub l r) :
    (outcome.result l r).HasValue ρ (a - b) := by
  simp only [identity?] at h
  split_ifs at h with hr hlr
  · cases h
    have hb0 := eq_zero_of_exact (he (.zero r) (by simp [LiteralTest.list, hr])) hb
    rw [hb0, sub_zero]
    exact ha
  · cases h
    have hsame : l.SameLiterals r :=
      he (.equal l r) (by simp [LiteralTest.list, hr, hlr])
    rw [(ha.of_agrees hlr hsame).unique hb, sub_self]
    exact hasValue_zero

theorem mul_hasValue (h : σ.identity? .mul l r = some outcome) (he : σ.ExactAt .mul l r) :
    (outcome.result l r).HasValue ρ (a * b) := by
  simp only [identity?, Bool.or_eq_true] at h
  split_ifs at h with hz hl hr
  · cases h
    have hzero : a * b = 0 := by
      by_cases hl0 : σ.isZero l = true
      · rw [eq_zero_of_exact (he (.zero l) (by simp [LiteralTest.list, hl0])) ha, zero_mul]
      · have hr0 := hz.resolve_left hl0
        rw [eq_zero_of_exact (he (.zero r) (by simp [LiteralTest.list, hl0, hr0])) hb, mul_zero]
    rw [hzero]
    exact hasValue_zero
  · cases h
    rw [not_or] at hz
    rw [eq_one_of_exact (he (.one l) (by simp [LiteralTest.list, hz, hl])) ha, one_mul]
    exact hb
  · cases h
    rw [not_or] at hz
    rw [eq_one_of_exact (he (.one r) (by simp [LiteralTest.list, hz, hl, hr])) hb, mul_one]
    exact ha

theorem div_hasValue (h : σ.identity? .div l r = some outcome) (he : σ.ExactAt .div l r) :
    (outcome.result l r).HasValue ρ (a / b) := by
  simp only [identity?, Bool.and_eq_true] at h
  split_ifs at h with hr hl
  · cases h
    rw [eq_one_of_exact (he (.one r) (by simp [LiteralTest.list, hr])) hb, div_one]
    exact ha
  · cases h
    rw [eq_zero_of_exact (he (.zero l) (by simp [LiteralTest.list, hr, hl.1.1])) ha, zero_div]
    exact hasValue_zero

theorem pow_hasValue (h : σ.identity? .pow l r = some outcome) (he : σ.ExactAt .pow l r) :
    (outcome.result l r).HasValue ρ (a ^ b) := by
  simp only [identity?, Bool.and_eq_true] at h
  split_ifs at h with hr0 hr1 hl1 hl0
  · cases h
    rw [eq_zero_of_exact (he (.zero r) (by simp [LiteralTest.list, hr0])) hb, Real.rpow_zero]
    exact hasValue_one
  · cases h
    rw [eq_one_of_exact (he (.one r) (by simp [LiteralTest.list, hr0, hr1])) hb, Real.rpow_one]
    exact ha
  · cases h
    rw [eq_one_of_exact (he (.one l) (by simp [LiteralTest.list, hr0, hr1, hl1])) ha, Real.one_rpow]
    exact hasValue_one
  · cases h
    have hpos := pos_of_isPositive hl0.2 hb
    have hz : a = 0 :=
      eq_zero_of_exact (he (.zero l) (by simp [LiteralTest.list, hr0, hr1, hl1, hl0.1])) ha
    rw [hz, Real.zero_rpow hpos.ne']
    exact hasValue_zero

/-- **The identities preserve the value** of an operation wherever it has one. -/
theorem identity?_hasValue (h : σ.identity? o l r = some outcome) (he : σ.ExactAt o l r)
    (hk : Kernel.guardedBinary o (some a) (some b) = some c) :
    (outcome.result l r).HasValue ρ c := by
  obtain ⟨a', b', ha', hb', rfl⟩ := Kernel.guardedBinary_eq_some hk
  cases ha'
  cases hb'
  cases o with
  | add => exact σ.add_hasValue ha hb h he
  | sub => exact σ.sub_hasValue ha hb h he
  | mul => exact σ.mul_hasValue ha hb h he
  | div => exact σ.div_hasValue ha hb h he
  | pow => exact σ.pow_hasValue ha hb h he
  | _ => cases h

end Identities

theorem reduceHere_hasValue {op : Operator} (h : (Tree.binary op l r).HasValue ρ c)
    (he : ∀ o, op.resolve = some o → σ.ExactAt o l r) :
    (σ.reduceHere (.binary op l r)).HasValue ρ c := by
  cases hr : σ.rule? (.binary op l r) with
  | none =>
    unfold reduceHere
    rw [hr]
    exact h
  | some outcome =>
    obtain ⟨_, _, _, heq, ho⟩ := σ.rule?_cases hr
    cases heq
    rw [ho]
    obtain ⟨o, a, b, hop, ha, hb, hk⟩ := Tree.hasValue_binary.mp h
    have hres := Operator.resolve_of_resolveArity hop
    rw [rule?, hres] at hr
    exact σ.identity?_hasValue ha hb hr (he o hres) hk

theorem reduce_hasValue (he : σ.ExactPass t) (h : t.HasValue ρ c) : (σ.reduce t).HasValue ρ c := by
  induction t generalizing c with
  | binary op l r ihl ihr =>
    obtain ⟨hl, hr, hhere⟩ := he
    exact σ.reduceHere_hasValue (h.binary_congr (fun _ => ihl hl) fun _ => ihr hr) hhere
  | unary op x ih => exact h.unary_congr fun _ => ih he
  | _ => exact h

/-! ## Iterations -/

/-- Any number of iterations preserves the value. -/
theorem normalizeIn_hasValue (hρ : σ.Respects ρ) (rounds : Nat) (he : σ.ExactIn rounds t)
    (h : t.HasValue ρ c) : (σ.normalizeIn rounds t).HasValue ρ c := by
  induction rounds generalizing t with
  | zero => exact h
  | succ rounds ih =>
    obtain ⟨hpass, hrest⟩ := he
    have hnext : (σ.pass t).HasValue ρ c := σ.reduce_hasValue hpass (σ.fold_hasValue hρ h)
    rw [normalizeIn]
    by_cases hops : (σ.pass t).operations = t.operations
    · rw [if_pos hops]
      exact h
    · rw [if_neg hops]
      exact ih (hrest hops) hnext

section Mentions

variable {κ : Type} [Scalar κ] (σ : Simplifier κ) {n : Name}

theorem mentions_of_foldHere {t : Tree κ} (h : (σ.foldHere t).mentions n = true) :
    t.mentions n = true := by
  unfold foldHere at h
  split at h
  · cases h
  · exact h

theorem mentions_of_reduceHere {t : Tree κ} (h : (σ.reduceHere t).mentions n = true) :
    t.mentions n = true := by
  cases hr : σ.rule? t with
  | none =>
    unfold reduceHere at h
    rw [hr] at h
    exact h
  | some outcome =>
    obtain ⟨op, l, r, rfl, ho⟩ := σ.rule?_cases hr
    rw [ho] at h
    rw [Tree.mentions, Bool.or_eq_true]
    cases outcome with
    | literal v => cases h
    | left => exact .inl h
    | right => exact .inr h

/-- **Simplifying brings no variable in.** -/
theorem mentions_of_normalizeIn (rounds : Nat) {t : Tree κ}
    (h : (σ.normalizeIn rounds t).mentions n = true) : t.mentions n = true := by
  induction rounds generalizing t with
  | zero => exact h
  | succ rounds ih =>
    rw [normalizeIn] at h
    by_cases hops : (σ.pass t).operations = t.operations
    · rw [if_pos hops] at h
      exact h
    · rw [if_neg hops] at h
      have hpass := ih h
      rw [pass, reduce_eq] at hpass
      have hfold := Tree.mentions_of_bottomUp (fun _ => σ.mentions_of_reduceHere) hpass
      rw [fold_eq] at hfold
      exact Tree.mentions_of_bottomUp (fun _ => σ.mentions_of_foldHere) hfold

end Mentions

/-! ## The whole simplification -/

theorem evaluate_eq_ok : t.evaluate ρ = .ok (some c) ↔ t.HasValue ρ c := by
  cases t with
  | absent => exact ⟨fun h => (by cases h), fun h => (by cases h)⟩
  | _ =>
    rw [Tree.evaluate_eq_value _ rfl]
    exact Iff.rfl

/-- **Simplifying in place preserves the value.** An expression with a valid tree, in any strictly
owned store, gets another tree. If the tests of literals are exact, then whatever defined value the
tree had under a valuation that agrees with the bindings, the new one has too, whether or not the
iterations came to an end; and no variable comes in. -/
theorem run_preserves_value [Literal PartialReal] {w : Workspace PartialReal} {e : Expression}
    (h : w.store.StrictlyOwned) (he : e.place < w.store.roots.size)
    (hv : (w.store.expressionTree e).Valid) :
    (σ.run e).Succeeds w fun _ w' =>
      (σ.Exact (w.store.expressionTree e) → ∀ ρ, σ.Respects ρ → ∀ c,
        (w.store.expressionTree e).evaluate ρ = .ok (some c) →
          (w'.store.expressionTree e).evaluate ρ = .ok (some c)) ∧
      ∀ n, (w'.store.expressionTree e).mentions n = true →
        (w.store.expressionTree e).mentions n = true := by
  obtain ⟨b, own, hown⟩ := h.holds
  obtain ⟨p, hp⟩ := hown.exists_mem he
  obtain ⟨rest, hperm⟩ := Store.perm_of_mem hp
  rw [hown.expressionTree_eq hp] at hv ⊢
  refine (σ.run_spec (hown.perm hperm.symm) (hv.imp_left Planted.eq_absent_of_tree)).mono ?_
  rintro - w' ⟨q, hq, hnormal⟩
  rw [hq.expressionTree_eq List.mem_cons_self]
  rcases hnormal with ⟨rfl, rfl⟩ | ⟨-, hnormal⟩
  · exact ⟨fun _ _ _ _ => id, fun _ => id⟩
  · rw [hnormal]
    refine ⟨fun hexact ρ hρ c hc => ?_, fun n => σ.mentions_of_normalizeIn _⟩
    rw [evaluate_eq_ok] at hc ⊢
    exact σ.normalizeIn_hasValue hρ _ hexact hc

/-- A workspace with the expression `x * 1`. -/
@[irreducible] noncomputable def timesOne : Workspace PartialReal :=
  ⟨⟨#[⟨.var (some "x"), some 2⟩, ⟨.literal Scalar.one, some 2⟩,
      ⟨.binary (.known .mul) (some 0) (some 1), none⟩], #[some 2], ⟨[], [], [], [], 0, 0, ⟨1, 1, 1, 0⟩⟩⟩,
    .opened .minimal, []⟩

theorem holds_timesOne : timesOne.store.Holds 0 0
    [(⟨0⟩, .binary 2 (.known .mul) (.var 0 (some "x")) (.literal 1 Scalar.one))] := by
  unfold timesOne
  refine ⟨List.nodup_singleton _, ?_, ?_, ⟨⟨by decide, by decide⟩, rfl⟩, rfl⟩
  · exact List.forall_mem_singleton.mpr rfl
  · exact List.forall_mem_singleton.mpr ⟨rfl, rfl, rfl⟩

theorem tree_timesOne : timesOne.store.expressionTree ⟨0⟩ =
    .binary (.known .mul) (.var (some "x")) (.literal Scalar.one) :=
  holds_timesOne.expressionTree_eq List.mem_cons_self

/-- The tests made of `x * 1` are exact: its literal is not close to zero, and is one. -/
theorem exact_timesOne : (standard (some "x") .empty 1 : Simplifier PartialReal).Exact
    (.binary (.known .mul) (.var (some "x")) (.literal Scalar.one)) := by
  have hzero : ¬Scalar.near (Scalar.threshold : PartialReal) Scalar.one Scalar.zero = true := by
    rw [PartialReal.one_eq, PartialReal.zero_eq]
    refine PartialReal.near_iff.not.mpr ?_
    norm_num
  refine ⟨⟨trivial, trivial, ?_⟩, fun _ => trivial⟩
  rintro o ⟨⟩ test htest
  have hpass := List.find?_some htest
  have hmem := List.mem_of_find?_eq_some htest
  simp only [LiteralTest.list, List.mem_cons, List.not_mem_nil, or_false] at hmem
  rcases hmem with rfl | rfl | rfl | rfl
  · cases hpass
  · exact absurd hpass hzero
  · cases hpass
  · rfl

/-- After one iteration, the limit, `x * 1` has the value of `x`; numbers are written down by no
numeral. -/
theorem run_preserves_timesOne :
    letI : Literal PartialReal := ⟨fun _ => .nan, fun _ => none, fun _ => .nan⟩
    ((standard (some "x") .empty 1 : Simplifier PartialReal).run ⟨0⟩).Succeeds timesOne fun _ w' =>
      (w'.store.expressionTree ⟨0⟩).evaluate (fun _ => some (some 3)) = .ok (some 3) := by
  let _ : Literal PartialReal := ⟨fun _ => .nan, fun _ => none, fun _ => .nan⟩
  have hvalid : (timesOne.store.expressionTree ⟨0⟩).Valid := by
    rw [tree_timesOne]
    exact .inr rfl
  have hvalue : (timesOne.store.expressionTree ⟨0⟩).evaluate (fun _ => some (some 3)) =
      .ok (some 3) := by
    rw [tree_timesOne, evaluate_eq_ok, Tree.hasValue_binary]
    refine ⟨.mul, 3, 1, rfl, rfl, hasValue_one, ?_⟩
    have hmul : Operation.mul.apply₂ 3 1 = some (3 * 1) := Operation.apply₂_of_domain trivial
    exact hmul.trans (congrArg some (mul_one 3))
  have hlive : (0 : Nat) < timesOne.store.roots.size := holds_timesOne.lt_size List.mem_cons_self
  have hrun := run_preserves_value (standard (some "x") .empty 1) holds_timesOne.strictlyOwned hlive
    hvalid
  refine hrun.mono fun _ w' h => h.1 ?_ _ ?_ 3 hvalue
  · rw [tree_timesOne]
    exact exact_timesOne
  · intro n v _ hn
    cases hn

end Simplifier

end Fluxion
