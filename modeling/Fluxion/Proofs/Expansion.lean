import Fluxion.Proofs.Differentiation
import Fluxion.Proofs.Evaluation
import Fluxion.Taylor

/-!
# Taylor polynomials in a store

While a Taylor polynomial is built, the store holds the derivative at hand, the polynomial as far as it
has come, and empty expressions where earlier derivatives were. This stays so however far the build
gets; in the end the derivative is given back, and what is new is the polynomial and empty expressions.
Nodes are lost only where a name is not a letter; if that is the name of the variable, one node is lost
and the polynomial stays behind as the constant.

The polynomial is the sum of the terms that were recorded, one for each order, until it is simplified in
the end.

* `TaylorPlan.expandTree` finds the terms on plain trees, and `TaylorPlan.sumTree` is their sum.
* `TaylorPlan.addTerm_spec` adds a term.
* `TaylorPlan.expand_spec` finds the terms one after the other.
* `TaylorPlan.Broken` says how the search for terms breaks off, `TaylorPlan.Leaves` what a build leaves then.
* `TaylorPlan.build_outcome` and `TaylorPlan.build_spec` are the whole build.
-/

namespace Fluxion

open Act

namespace Tree

variable {κ : Type} {K : Kernel κ} {ρ : Valuation κ} {t : Tree κ} {f : Fault}

/-- A tree whose operations have their operands fails to have a value only for want of a binding. -/
theorem unbound_of_value (h : t.isOperational = true) (hf : t.value K ρ = .error f) :
    ∃ n, f = .unbound n := by
  induction t generalizing f with
  | absent => cases h
  | literal v => cases hf
  | var n =>
    rw [value] at hf
    cases hn : ρ n with
    | some v =>
      rw [hn] at hf
      cases hf
    | none =>
      rw [hn] at hf
      cases hf
      exact ⟨n, rfl⟩
  | binary op l r ihl ihr =>
    simp only [isOperational, Bool.and_eq_true] at h
    obtain ⟨o, ho⟩ := Option.isSome_iff_exists.mp h.1.1
    rw [value, ho] at hf
    cases hl : l.value K ρ with
    | error f' =>
      rw [hl] at hf
      cases hf
      exact ihl h.1.2 hl
    | ok a =>
      cases hr : r.value K ρ with
      | error f' =>
        rw [hl, hr] at hf
        cases hf
        exact ihr h.2 hr
      | ok b' =>
        rw [hl, hr] at hf
        cases hf
  | unary op x ih =>
    simp only [isOperational, Bool.and_eq_true] at h
    obtain ⟨o, ho⟩ := Option.isSome_iff_exists.mp h.1
    rw [value, ho] at hf
    cases hx : x.value K ρ with
    | error f' =>
      rw [hx] at hf
      cases hf
      exact ih h.2 hx
    | ok a =>
      rw [hx] at hf
      cases hf

theorem unbound_of_evaluate [Scalar κ] (h : t.isWellFormed = true) (hf : t.evaluate ρ = .error f) :
    ∃ n, f = .unbound n := by
  rw [evaluate_eq_value _ (isAbsent_of_isWellFormed h)] at hf
  exact unbound_of_value (t.isWellFormed_iff.mp h).1 hf

/-- A tree to start from: it is not empty, and all its names are letters. Its operators may be any. -/
def Expandable (t : Tree κ) : Prop := t.isAbsent = false ∧ t.isSpelled = true

theorem expandable_of_isWellFormed (h : t.isWellFormed = true) : t.Expandable :=
  ⟨isAbsent_of_isWellFormed h, (t.isWellFormed_iff.mp h).2⟩

/-- A tree that is not empty has no value only for a fault of its own. -/
theorem concernsExpression_of_evaluate [Scalar κ] (h : t.isAbsent = false) (hf : t.evaluate ρ = .error f) :
    f.concernsExpression = true := by
  rw [evaluate_eq_value _ h] at hf
  exact concernsExpression_of_value hf

end Tree

namespace TaylorPlan

open Store Work

/-- A sum with one more summand; the empty tree is the empty sum. -/
def plus {κ : Type} : Tree κ → Tree κ → Tree κ
  | .absent, t => t
  | s, t => .apply₂ .add s t

variable {κ : Type} (plan : TaylorPlan κ) {s : Store κ} {w : Workspace κ} {b : Int} {c : Nat}
  {own : Holdings κ} {used : List Ref} {e d poly : Expression} {p q : Planted κ} {x t : Tree κ}

/-! ## A build under way -/

/-- A build is under way: the derivative at hand is the tree `x`, the polynomial is the valid tree `t` as
far as it has come, and all else that is new is empty. -/
def Underway (b : Int) (c : Nat) (own : Holdings κ) (d poly : Expression) (x t : Tree κ)
    (w : Workspace κ) : Prop :=
  ∃ (p q : Planted κ) (extra : Holdings κ), p.tree = x ∧ q.tree = t ∧ t.Valid ∧ Emptied extra ∧
    w.store.Holds b c ((d, p) :: (poly, q) :: (extra ++ own))

theorem Underway.of_store {w' : Workspace κ} (h : Underway b c own d poly x t w)
    (hs : w'.store = w.store) : Underway b c own d poly x t w' := by
  unfold Underway
  rw [hs]
  exact h

theorem Underway.valid (h : Underway b c own d poly x t w) : t.Valid := by
  obtain ⟨-, -, -, -, -, ht, -⟩ := h
  exact ht

/-- Nodes are lost only at a name that is not a letter. -/
def Lost (b b' : Int) (outcome : Except Fault α) : Prop :=
  b' = b ∨ ∃ n, outcome = .error (.invalidName n)

theorem Lost.of_error {b b' : Int} {α β : Type} {f : Fault} (h : Lost (α := α) b b' (.error f)) :
    Lost (α := β) b b' (.error f) := by
  rcases h with h | ⟨n, h⟩
  · exact .inl h
  · cases h
    exact .inr ⟨n, rfl⟩

theorem Lost.eq_of_ok {b b' : Int} {α : Type} {a : α} (h : Lost b b' (.ok a)) : b' = b := by
  rcases h with h | ⟨n, h⟩
  · exact h
  · cases h

/-- Giving the derivative at hand back at the end of a build. -/
theorem releaseDerivative_spec (h : Underway b c own d poly x t w) :
    (onStore (releaseExpression d)).Succeeds w fun _ w' =>
      ∃ (q : Planted κ) (extra : Holdings κ), q.tree = t ∧ t.Valid ∧ Emptied extra ∧
        w'.store.Holds b c ((poly, q) :: (extra ++ own)) := by
  obtain ⟨p, q, extra, -, hq, ht, hextra, h⟩ := h
  refine (succeeds_onStore (releaseExpression_spec h)).mono fun _ w' h' => ?_
  exact ⟨q, (d, .absent) :: extra, hq, ht, List.forall_mem_cons.mpr ⟨rfl, hextra⟩,
    h'.perm (.swap _ _ _)⟩

/-- Giving up the polynomial of a build. -/
theorem releasePolynomial_spec (h : Underway b c own d poly x t w) :
    (onStore (releaseExpression poly)).Succeeds w fun _ w' => Underway b c own d poly x .absent w' := by
  obtain ⟨p, q, extra, hp, -, -, hextra, h⟩ := h
  have hswap : w.store.Holds b c ((poly, q) :: (d, p) :: (extra ++ own)) := h.perm (.swap _ _ _)
  refine (succeeds_onStore (releaseExpression_spec hswap)).mono fun _ w' h' => ?_
  exact ⟨p, .absent, extra, hp, rfl, .inl rfl, hextra, h'.perm (.swap _ _ _)⟩

variable [Scalar κ]

/-! ## Terms -/

/-- The tree of the term of order `k`: a literal, or the coefficient times a power of the shifted
variable. -/
def termTree (k : Nat) (coefficient : κ) : Tree κ :=
  if k = 0 then .literal coefficient
  else
    .apply₂ .mul (.literal coefficient)
      (.apply₂ .pow (.apply₂ .sub (.var plan.argument) (.literal plan.point))
        (.literal (Coefficient.ofNat k)))

/-- The sum of terms. -/
def sumTree (terms : List (TaylorTerm κ)) : Tree κ :=
  terms.foldl (fun s term => plus s (plan.termTree term.order term.coefficient)) .absent

theorem sumTree_append (terms : List (TaylorTerm κ)) (term : TaylorTerm κ) :
    plan.sumTree (terms ++ [term]) =
      plus (plan.sumTree terms) (plan.termTree term.order term.coefficient) := by
  rw [sumTree, List.foldl_append]
  rfl

/-- A sum of terms is not empty. -/
theorem isAbsent_sumTree {terms : List (TaylorTerm κ)} (h : terms ≠ []) :
    (plan.sumTree terms).isAbsent = false := by
  have hterm : ∀ k c, (plan.termTree k c).isAbsent = false := by
    intro k c
    unfold termTree
    split <;> rfl
  have hplus : ∀ s t : Tree κ, t.isAbsent = false → (plus s t).isAbsent = false := by
    intro s t ht
    cases s with
    | absent => exact ht
    | _ => rfl
  obtain ⟨init, last, rfl⟩ := List.eq_nil_or_concat terms |>.resolve_left h
  rw [List.concat_eq_append, sumTree_append]
  exact hplus _ _ (hterm _ _)

/-- The factorial as the running product makes it. -/
def factorial : Nat → κ
  | 0 => Scalar.one
  | k + 1 => Scalar.mul (factorial k) (Coefficient.ofNat (k + 1))

/-- The terms of the orders below `n`, each with the coefficient that its value has. -/
def TermsBelow (n : Nat) (terms : List (TaylorTerm κ)) : Prop :=
  terms.map TaylorTerm.order = List.range n ∧
    ∀ term ∈ terms, term.coefficient = Scalar.div term.value (factorial term.order)

theorem termsBelow_nil : TermsBelow 0 ([] : List (TaylorTerm κ)) :=
  ⟨rfl, List.forall_mem_nil _⟩

theorem TermsBelow.ne_nil {n : Nat} {terms : List (TaylorTerm κ)} (h : TermsBelow n terms) (hn : n ≠ 0) :
    terms ≠ [] := by
  rintro rfl
  exact hn (List.range_eq_nil.mp h.1.symm)

theorem TermsBelow.append {n : Nat} {terms : List (TaylorTerm κ)} (h : TermsBelow n terms) (value : κ) :
    TermsBelow (n + 1) (terms ++ [⟨n, value, Scalar.div value (factorial n)⟩]) := by
  constructor
  · rw [List.map_append, h.1, List.range_succ]
    rfl
  · rw [List.forall_mem_append, List.forall_mem_singleton]
    exact ⟨h.2, rfl⟩

theorem TermsBelow.order_last {n : Nat} {init : List (TaylorTerm κ)} {last : TaylorTerm κ}
    (h : TermsBelow n (init ++ [last])) : last.order = init.length := by
  have hn : n = init.length + 1 := by
    simpa using (congrArg List.length h.1).symm
  have hlast := congrArg (fun orders => orders[init.length]?) h.1
  simpa [hn] using hlast

/-- Making a term. -/
theorem newTerm_spec (h : s.Accounted b used) (k : Nat) (coefficient : κ) :
    (plan.newTerm k coefficient).Ensures s
      (fun r t => ∃ q : Planted κ, q.tree = plan.termTree k coefficient ∧
        q.tree.isWellFormed = true ∧ q.ref? = some r ∧ Made b used s q t)
      fun f t => plan.argument.isLetter = false ∧ k ≠ 0 ∧ f = .invalidName plan.argument ∧
        t.Accounted (b + 1) used ∧ Kept used s t := by
  unfold newTerm termTree
  split
  · refine (newLiteral_spec h coefficient).ensures.mono ?_ fun _ _ => False.elim
    rintro r t ⟨hm, -⟩
    exact ⟨.literal r coefficient, rfl, rfl, rfl, hm⟩
  · refine ((newVar_spec h plan.argument).mono (fun _ _ => id) ?_).bind ?_
    · rintro f t ⟨hf, hn, ha, hk⟩
      exact ⟨hn, ‹_›, hf, ha, hk⟩
    rintro v t₁ ⟨hletter, hm₁, -⟩
    refine (newLiteral_spec hm₁.accounted plan.point).bind ?_
    rintro a t₂ ⟨hm₂, -⟩
    refine (newBinary_after (.known .sub) hm₁ hm₂).bind ?_
    rintro shift t₃ ⟨hm₃, -⟩
    refine (newLiteral_spec hm₃.accounted (Coefficient.ofNat k)).bind ?_
    rintro exponent t₄ ⟨hm₄, -⟩
    refine (newBinary_after (.known .pow) hm₃ hm₄).bind ?_
    rintro power t₅ ⟨hm₅, -⟩
    refine (newLiteral_spec hm₅.accounted coefficient).bind ?_
    rintro x t₆ ⟨hm₆, -⟩
    refine (newBinary_before (.known .mul) hm₅ hm₆).ensures.mono ?_ fun _ _ => id
    rintro term t₇ ⟨hm₇, -⟩
    refine ⟨_, rfl, ?_, rfl, hm₇⟩
    simp [Planted.tree, Tree.isWellFormed, hletter, Operator.resolveArity, Operator.resolve,
      Operation.arity]

/-- **Adding a term** to a polynomial. -/
theorem addTerm_spec (h : s.Holds b c ((poly, p) :: own)) (hp : p.tree.Valid) (k : Nat)
    (coefficient : κ) :
    (plan.addTerm poly k coefficient).Ensures s
      (fun _ t => ∃ q : Planted κ, q.tree = plus p.tree (plan.termTree k coefficient) ∧
        q.tree.Valid ∧ t.Holds b c ((poly, q) :: own))
      fun f t => plan.argument.isLetter = false ∧ k ≠ 0 ∧ f = .invalidName plan.argument ∧
        t.Holds (b + 1) c ((poly, p) :: own) := by
  have hmem : (poly, p) ∈ (poly, p) :: own := List.mem_cons_self
  unfold addTerm
  refine ((plan.newTerm_spec h.accounted k coefficient).mono (fun _ _ => id) ?_).bind ?_
  · rintro f t ⟨hn, hk, hf, ha, hkept⟩
    exact ⟨hn, hk, hf, h.kept hkept ha⟩
  rintro r t ⟨q, hq, hwq, hr, hm⟩
  rw [← hq]
  have ht : t.root? poly = p.ref? := by
    unfold root?
    rw [hm.kept.roots]
    exact h.root?_eq hmem
  refine ensures_get ?_
  rw [ht, ← hr]
  have hk : ∀ x ∈ own.refs, t.node? x = s.node? x := fun x hx =>
    hm.kept.nodes x (List.mem_append_right _ hx)
  cases hroot : p.ref? with
  | none =>
    obtain rfl := Planted.eq_absent_of_ref? hroot
    refine (setRoot_spec hm.stands poly).ensures.mono ?_ fun _ _ => False.elim
    rintro - _ rfl
    refine ⟨q, rfl, .inr hwq, h.reroot ?_ hk (hm.stands.congr fun _ _ => rfl) ?_⟩
    · simp only [writeRoot, hm.kept.roots]
    · exact ⟨⟨hm.accounted.nodup, hm.accounted.bound⟩, hm.accounted.balance⟩
  | some total =>
    have hwp := Planted.isWellFormed_of_valid hp hroot
    -- the polynomial lets go of its tree before the sum takes it
    refine (setRoot_spec (q := .absent) trivial poly).bind ?_
    rintro - _ rfl
    simp only [Planted.ref?]
    have hpi : p.In (t.writeRoot poly none) none :=
      ((h.trees _ hmem).kept hm.kept (List.subset_append_left _ _)).congr fun _ _ => rfl
    have hqi : q.In (t.writeRoot poly none) none := hm.stands.congr fun _ _ => rfl
    have ha : (t.writeRoot poly none).Accounted b (p.refs ++ q.refs ++ own.refs) := by
      have hall : t.Accounted b (p.refs ++ q.refs ++ own.refs) :=
        hm.accounted.perm (List.perm_iff_count.mpr fun x => by
          simp only [refs_cons, List.count_append]
          omega)
      exact ⟨⟨hall.nodup, hall.bound⟩, hall.balance⟩
    have hsum := newBinary_spec (.known .add) hpi hqi ha
    rw [hroot] at hsum
    refine hsum.bind ?_
    rintro sum t₂ ⟨hm₂, -⟩
    refine (setRoot_spec hm₂.stands poly).ensures.mono ?_ fun _ _ => False.elim
    rintro - _ rfl
    refine ⟨.binary sum (.known .add) p q, ?_, ?_, ?_⟩
    · cases p with
      | absent => cases hroot
      | _ => rfl
    · refine .inr ?_
      simp [Planted.tree, Tree.isWellFormed, hwp, hwq, Operator.resolveArity, Operator.resolve,
        Operation.arity]
    · refine h.reroot ?_ (fun x hx => ?_) (hm₂.stands.congr fun _ _ => rfl) ?_
      · simp only [writeRoot, hm₂.kept.roots, hm.kept.roots, Array.setIfInBounds_setIfInBounds]
      · exact (hm₂.kept.nodes x hx).trans (hk x hx)
      · exact ⟨⟨hm₂.accounted.nodup, hm₂.accounted.bound⟩, hm₂.accounted.balance⟩

/-! ## Building -/

/-- A term added to the polynomial of a build. -/
theorem addTerm_underway (h : Underway b c own d poly x t w) (k : Nat) (coefficient : κ) :
    (onStore (plan.addTerm poly k coefficient)).Ensures w
      (fun _ w' => Underway b c own d poly x (plus t (plan.termTree k coefficient)) w')
      fun f w' => plan.argument.isLetter = false ∧ k ≠ 0 ∧ f = .invalidName plan.argument ∧
        Underway (b + 1) c own d poly x t w' := by
  obtain ⟨p, q, extra, hp, rfl, hq, hextra, h⟩ := h
  have hswap : w.store.Holds b c ((poly, q) :: (d, p) :: (extra ++ own)) := h.perm (.swap _ _ _)
  refine (ensures_onStore (plan.addTerm_spec hswap hq k coefficient)).mono ?_ ?_
  · rintro - w' ⟨q', hsum, hq', h'⟩
    exact ⟨p, q', extra, hp, hsum, hsum ▸ hq', hextra, h'.perm (.swap _ _ _)⟩
  · rintro f w' ⟨hn, hk, hf, h'⟩
    exact ⟨hn, hk, hf, p, q, extra, hp, rfl, hq, hextra, h'.perm (.swap _ _ _)⟩

/-- Where the variable has no name of a letter, only the constant is ever added. -/
theorem eq_literal_of_not_isLetter {k : Nat} {terms : List (TaylorTerm κ)} (h : TermsBelow k terms)
    (hk : k ≠ 0) (hn : plan.argument.isLetter = false) (hv : (plan.sumTree terms).Valid) :
    ∃ a, plan.sumTree terms = .literal a := by
  obtain ⟨init, last, rfl⟩ := (List.eq_nil_or_concat terms).resolve_left (h.ne_nil hk)
  rw [List.concat_eq_append] at h hv ⊢
  rw [sumTree_append] at hv ⊢
  have horder : last.order = init.length := h.order_last
  by_cases hlast : last.order = 0
  · obtain rfl : init = [] := List.eq_nil_of_length_eq_zero (horder.symm.trans hlast)
    rw [termTree, if_pos hlast]
    exact ⟨_, rfl⟩
  · -- a later term is spelled with the variable
    have hterm : (plan.termTree last.order last.coefficient).isSpelled = false := by
      rw [termTree, if_neg hlast]
      simp [Tree.apply₂, Tree.isSpelled, hn]
    have hspelled : (plus (plan.sumTree init) (plan.termTree last.order last.coefficient)).isSpelled =
        false := by
      cases plan.sumTree init with
      | absent => exact hterm
      | _ => simp only [plus, Tree.apply₂, Tree.isSpelled, hterm, Bool.and_false]
    cases hspelled.symm.trans hv.isSpelled

/-- The derivative of order `k` on plain trees, from the one before. -/
def derivativeTree (k : Nat) (t : Tree κ) : Except Operator (Tree κ) :=
  if k = 0 then .ok t
  else t.nextDerivative plan.argument (if plan.simplifies then some plan.simplifier else none)

/-- The terms that are found on plain trees, `rounds` of them from order `k` on, and whether a fault
stopped it. -/
def expandTree : Nat → Nat → Tree κ → List (TaylorTerm κ) → List (TaylorTerm κ) × Except Fault Unit
  | 0, _, _, terms => (terms, .ok ())
  | rounds + 1, k, t, terms =>
    match plan.derivativeTree k t with
    | .error op => (terms, .error (.unknownOperation op))
    | .ok d =>
      match d.evaluate (plan.bindings.bind plan.argument plan.point) with
      | .error f => (terms, .error f)
      | .ok value =>
        expandTree rounds (k + 1) d (terms ++ [⟨k, value, Scalar.div value (factorial k)⟩])

/-- How the search for the terms below the order `top` breaks off. A fault of the expression loses no node.
The name of the variable, if it is not a letter, is refused when the first term after the constant is made,
and the node that was to carry it is lost. A tree that is `odd` may lose nodes at its own names. -/
inductive Broken (b : Int) (c : Nat) (own : Holdings κ) (d poly : Expression) (top : Nat) (odd : Prop) :
    Fault → Workspace κ → Prop
  | expression {f : Fault} {w : Workspace κ} {x t : Tree κ} (hf : f.concernsExpression = true)
      (h : Underway b c own d poly x t w) : Broken b c own d poly top odd f w
  | argument {w : Workspace κ} {x : Tree κ} {a : κ} (hn : plan.argument.isLetter = false) (htop : 1 < top)
      (h : Underway (b + 1) c own d poly x (.literal a) w) :
      Broken b c own d poly top odd (.invalidName plan.argument) w
  | odd {f : Fault} {b' : Int} {w : Workspace κ} {x t : Tree κ} (hodd : odd)
      (hlost : Lost (α := Unit) b b' (.error f)) (h : Underway b' c own d poly x t w) :
      Broken b c own d poly top odd f w

omit [Scalar κ] in
variable {plan} in
theorem Broken.mono {top : Nat} {odd odd' : Prop} {f : Fault} (h : plan.Broken b c own d poly top odd f w)
    (ho : odd → odd') : plan.Broken b c own d poly top odd' f w := by
  cases h with
  | expression hf h => exact .expression hf h
  | argument hn htop h => exact .argument hn htop h
  | odd hodd hlost h => exact .odd (ho hodd) hlost h

/-- What is built goes as on plain trees: the tree has names that are letters, and so has the plan. -/
def Regular (t : Tree κ) : Prop := t.isWellFormed = true ∧ plan.argument.isLetter = true

variable [Literal κ]

/-- **The next derivative** takes the place of the one at hand. A well-formed tree always has one. -/
theorem advance_spec (h : Underway b c own d poly x t w) (k : Nat) :
    (plan.advance k d).Ensures w
      (fun d' w' => ∃ x', x.nextDerivative plan.argument
          (if plan.simplifies then some plan.simplifier else none) = .ok x' ∧
        x'.isWellFormed = true ∧ Underway b c own d' poly x' t w')
      fun f w' => x.isWellFormed = false ∧ ∀ top, plan.Broken b c own d poly top (¬x.Expandable) f w' := by
  obtain ⟨p, q, extra, rfl, hq, ht, hextra, h⟩ := h
  unfold advance
  refine ((deriveExpression_spec h List.mem_cons_self).mono (fun _ _ => id) ?_).bind ?_
  · intro f w' hf
    refine ⟨hf.isWellFormed, fun top => ?_⟩
    cases hf with
    | noRule _ h' => exact .expression rfl ⟨p, q, extra, rfl, hq, ht, hextra, h'⟩
    | stopped hs h' =>
      refine .odd (fun hx => ?_) (.inr ⟨_, rfl⟩) ⟨p, q, extra, rfl, hq, ht, hextra, h'⟩
      cases hs.symm.trans hx.2
  rintro d' w₁ ⟨p', hnext, hwf, h₁⟩
  have hswap : w₁.store.Holds b c ((d, p) :: (d', p') :: (poly, q) :: (extra ++ own)) :=
    h₁.perm (.swap _ _ _)
  refine (succeeds_onStore (releaseExpression_spec hswap)).bind fun _ w₂ h₂ => ?_
  refine ensures_look ?_
  refine (succeeds_note _ w₂).bind fun _ w₃ hs => ?_
  refine ensures_pure ⟨p'.tree, hnext, hwf, p', q, (d, .absent) :: extra, rfl, hq, ht, ?_, ?_⟩
  · exact List.forall_mem_cons.mpr ⟨rfl, hextra⟩
  · rw [hs]
    -- the empty expression moves behind the two in use
    exact h₂.perm (((List.Perm.swap _ _ _).cons _).trans (.swap _ _ _))

theorem derivativeOf_spec (h : Underway b c own d poly x t w) (k : Nat) :
    (plan.derivativeOf k d).Ensures w
      (fun d' w' => ∃ x', plan.derivativeTree k x = .ok x' ∧
        (x.isWellFormed = true → x'.isWellFormed = true) ∧ (x.Expandable → x'.Expandable) ∧
        Underway b c own d' poly x' t w')
      fun f w' => x.isWellFormed = false ∧ ∀ top, plan.Broken b c own d poly top (¬x.Expandable) f w' := by
  unfold derivativeOf derivativeTree
  split
  · exact ensures_pure ⟨x, rfl, id, id, h⟩
  · refine (plan.advance_spec h k).mono ?_ fun _ _ => id
    rintro d' w' ⟨x', hnext, hwf, h'⟩
    exact ⟨x', hnext, fun _ => hwf, fun _ => Tree.expandable_of_isWellFormed hwf, h'⟩

omit [Literal κ] in
/-- The running product takes one more factor for every order but the first. -/
theorem factorial_step (k : Nat) :
    (if k = 0 then factorial (k - 1) else Scalar.mul (factorial (k - 1)) (Coefficient.ofNat k) : κ) =
      factorial k := by
  cases k <;> rfl

/-- **Finding the terms** keeps a build under way, whether it gets to the end or breaks off. At the end the
polynomial is the sum of the terms. The terms are those that are found on plain trees. -/
theorem expand_spec (rounds : Nat) {k : Nat} {terms : List (TaylorTerm κ)} (hterms : TermsBelow k terms)
    (h : Underway b c own d poly x (plan.sumTree terms) w) :
    (plan.expand poly rounds k (factorial (k - 1)) d terms).Succeeds w fun progress w' =>
      (progress.outcome = .ok () → TermsBelow (k + rounds) progress.terms ∧
        ∃ x', Underway b c own progress.derivative poly x' (plan.sumTree progress.terms) w') ∧
      (∀ f, progress.outcome = .error f →
        plan.Broken b c own progress.derivative poly (k + rounds) (¬x.Expandable) f w') ∧
      (plan.Regular x → (progress.terms, progress.outcome) = plan.expandTree rounds k x terms ∧
        ∀ f, progress.outcome = .error f → ∃ n, f = .unbound n) := by
  induction rounds generalizing k d x terms w with
  | zero => exact ensures_pure ⟨fun _ => ⟨hterms, x, h⟩, nofun, fun _ => ⟨rfl, nofun⟩⟩
  | succ rounds ih =>
    unfold expand expandTree
    refine (plan.derivativeOf_spec h k).attempt.bind ?_
    rintro (f | d') w₁ hd
    · obtain ⟨hwf, hbroken⟩ := hd
      refine ensures_pure ⟨nofun, ?_, fun hregular => ?_⟩
      · rintro _ ⟨⟩
        exact hbroken _
      · cases hwf.symm.trans hregular.1
    obtain ⟨x', hx', hwf, hexpandable, h₁⟩ := hd
    simp only [hx']
    refine ensures_look ?_
    have hx : w₁.store.tree (w₁.store.root? d') = x' := by
      obtain ⟨p, q, extra, rfl, -, -, -, h₁⟩ := h₁
      exact h₁.expressionTree_eq List.mem_cons_self
    refine (evaluate_spec _ _ w₁).attempt.bind ?_
    rw [hx]
    rintro (f | value) w₂ ⟨hvalue, hs⟩
    · rw [hvalue]
      refine ensures_pure ⟨nofun, ?_, fun hregular => ⟨rfl, ?_⟩⟩
      · rintro _ ⟨⟩
        by_cases hodd : x.Expandable
        · have hf := Tree.concernsExpression_of_evaluate (hexpandable hodd).1 hvalue
          exact .expression hf (h₁.of_store hs)
        · exact .odd hodd (.inl rfl) (h₁.of_store hs)
      · rintro _ ⟨⟩
        exact Tree.unbound_of_evaluate (hwf hregular.1) hvalue
    rw [hvalue]
    dsimp only
    rw [factorial_step]
    -- the term is added whether or not its value was noted as undefined
    refine ensures_noteIf fun w₃ hs₃ => ?_
    refine (plan.addTerm_underway ((h₁.of_store hs).of_store hs₃) k _).attempt.bind ?_
    rintro (f | _) w₄ hadd
    · obtain ⟨hn, hk, rfl, h₄⟩ := hadd
      refine ensures_pure ⟨nofun, ?_, fun hregular => ?_⟩
      · rintro _ ⟨⟩
        obtain ⟨a, ha⟩ := plan.eq_literal_of_not_isLetter hterms hk hn h₄.valid
        exact .argument hn (by omega) (ha ▸ h₄)
      · cases hn.symm.trans hregular.2
    · rw [← plan.sumTree_append terms ⟨k, value, Scalar.div value (factorial k)⟩] at hadd
      rw [Nat.add_comm rounds 1, ← Nat.add_assoc]
      refine (ih (hterms.append value) hadd).mono ?_
      rintro progress w' ⟨hend, hbroken, hsame⟩
      exact ⟨hend, fun f hf => (hbroken f hf).mono (mt hexpandable),
        fun hregular => hsame ⟨hwf hregular.1, hregular.2⟩⟩

/-- Finishing a polynomial never fails. -/
theorem finish_spec (h : w.store.Holds b c ((poly, p) :: own)) (hp : p.tree.Valid) :
    (plan.finish poly).Succeeds w fun e w' => e = poly ∧
      ∃ q : Planted κ, q.tree.Valid ∧ w'.store.Holds b c ((poly, q) :: own) ∧
        (p.tree.isWellFormed = true → q.tree = plan.simplifier.normalize p.tree) := by
  have hp' : p = .absent ∨ p.tree.isWellFormed = true :=
    hp.imp_left Planted.eq_absent_of_tree
  unfold finish
  refine (Succeeds.discard (plan.simplifier.run_spec h hp')).bind ?_
  rintro - w₁ ⟨-, q, h₁, hq⟩
  refine ensures_look ?_
  refine (succeeds_note _ w₁).bind fun _ w₂ hs => ?_
  refine ensures_pure ⟨rfl, q, ?_, hs ▸ h₁, ?_⟩
  · rcases hq with ⟨rfl, -⟩ | ⟨hq, -⟩
    · exact .inl rfl
    · exact .inr hq
  · intro hwf
    rcases hq with ⟨-, rfl⟩ | ⟨-, hq⟩
    · cases hwf
    · exact hq

/-- A polynomial that was built is the sum of the terms, simplified, and all else that is new is empty. -/
def Completed (result : TaylorResult κ) (new : Holdings κ) : Prop :=
  ∀ e, result.outcome = .ok e → TermsBelow (plan.order + 1) result.terms ∧
    ∃ (q : Planted κ) (extra : Holdings κ), new = (e, q) :: extra ∧ Emptied extra ∧
      q.tree = plan.simplifier.normalize (plan.sumTree result.terms)

/-- A build goes as on plain trees; if it fails, then for want of a binding, and leaves nothing behind. -/
def Followed (t : Tree κ) (result : TaylorResult κ) (new : Holdings κ) : Prop :=
  (result.terms, result.outcome.map fun _ => ()) = plan.expandTree (plan.order + 1) 0 t [] ∧
    ∀ f, result.outcome = .error f → (∃ n, f = .unbound n) ∧ Emptied new

/-- A build from the tree `t` is over: what is new is valid. -/
def Built (b : Int) (c : Nat) (own : Holdings κ) (t : Tree κ) (result : TaylorResult κ)
    (w : Workspace κ) : Prop :=
  ∃ (b' : Int) (new : Holdings κ), Lost b b' result.outcome ∧ (∀ x ∈ new, x.2.tree.Valid) ∧
    w.store.Holds b' c (new ++ own) ∧ plan.Completed result new ∧
    (plan.Regular t → plan.Followed t result new)

omit [Scalar κ] [Literal κ] in
theorem valid_of_emptied {extra : Holdings κ} (h : Emptied extra) : ∀ x ∈ extra, x.2.tree.Valid := by
  intro x hx
  rw [h x hx]
  exact .inl rfl

omit [Literal κ] in
theorem completed_error {terms : List (TaylorTerm κ)} {f : Fault} {new : Holdings κ} :
    plan.Completed ⟨terms, .error f⟩ new := nofun

/-- What a build from the tree `t` leaves when it is refused: nothing but empty expressions, or, where the
name of the variable is refused, the constant, and one node is lost. -/
inductive Leaves (b : Int) (c : Nat) (own : Holdings κ) (t : Tree κ) : Fault → Workspace κ → Prop
  | nothing {f : Fault} {w : Workspace κ} {extra : Holdings κ} (hf : ∀ n, f ≠ .invalidName n)
      (hextra : Emptied extra) (h : w.store.Holds b c (extra ++ own)) : Leaves b c own t f w
  | constant {w : Workspace κ} {poly : Expression} {q : Planted κ} {a : κ} {extra : Holdings κ}
      (hn : plan.argument.isLetter = false) (horder : 0 < plan.order) (hq : q.tree = .literal a)
      (hextra : Emptied extra) (h : w.store.Holds (b + 1) c ((poly, q) :: (extra ++ own))) :
      Leaves b c own t (.invalidName plan.argument) w
  | misspelled {f : Fault} {w : Workspace κ} (ht : t.isSpelled = false) : Leaves b c own t f w

omit [Scalar κ] [Literal κ] in
variable {plan} in
/-- However a build broke off, it is under way, and leaves what it leaves once the derivative is given back,
and the polynomial with it if the fault is one of the expression. -/
theorem Broken.exists_leaves {f : Fault}
    (h : plan.Broken b c own d poly (plan.order + 1) (¬x.Expandable) f w) (hx : x.isAbsent = false) :
    ∃ b' x' t, Lost (α := Unit) b b' (.error f) ∧ Underway b' c own d poly x' t w ∧
      ∀ (q : Planted κ) (extra : Holdings κ) (w' : Workspace κ),
        q.tree = (if f.concernsExpression then .absent else t) → Emptied extra →
          w'.store.Holds b' c ((poly, q) :: (extra ++ own)) → plan.Leaves b c own x f w' := by
  cases h with
  | expression hf h =>
    refine ⟨b, _, _, .inl rfl, h, fun q extra w' hq hextra h' => ?_⟩
    rw [if_pos hf] at hq
    refine .nothing ?_ (List.forall_mem_cons.mpr ⟨Planted.eq_absent_of_tree hq, hextra⟩) h'
    rintro n rfl
    cases hf
  | argument hn htop h =>
    exact ⟨b + 1, _, _, .inr ⟨_, rfl⟩, h, fun q extra w' hq hextra h' =>
      .constant hn (Nat.lt_of_succ_lt_succ htop) hq hextra h'⟩
  | odd hodd hlost h =>
    exact ⟨_, _, _, hlost, h, fun _ _ _ _ _ _ => .misspelled (Bool.eq_false_iff.mpr fun hs => hodd ⟨hx, hs⟩)⟩

/-- **A build** leaves valid expressions behind, and loses nodes only where a name is not a letter. -/
theorem build_outcome (h : w.store.Holds b c own) (he : (e, p) ∈ own) :
    (plan.build e).Succeeds w fun result w' => plan.Built b c own p.tree result w' ∧
      ∀ f, result.outcome = .error f → plan.Leaves b c own p.tree f w' := by
  unfold build
  refine ensures_look ?_
  rw [h.root?_eq he]
  cases hr : p.ref? with
  | none =>
    obtain rfl := Planted.eq_absent_of_ref? hr
    refine ensures_pure ⟨⟨b, [], .inl rfl, by simp, h, plan.completed_error, nofun⟩, ?_⟩
    rintro _ ⟨⟩
    exact .nothing nofun emptied_nil h
  | some r =>
    refine (ensures_onStore (copyExpression_spec h he)).attempt.bind ?_
    rintro (f | d) w₁ hc
    · obtain ⟨hsp, ⟨n, rfl⟩, b', h₁⟩ := hc
      refine ensures_pure ⟨⟨b', [], .inr ⟨n, rfl⟩, by simp, h₁, plan.completed_error, fun hregular => ?_⟩,
        fun _ _ => .misspelled hsp⟩
      cases hsp.symm.trans (p.tree.isWellFormed_iff.mp hregular.1).2
    obtain ⟨-, q, hq, h₁⟩ := hc
    have hm : Made b (Holdings.refs ((d, q) :: own)) w₁.store .absent w₁.store :=
      ⟨trivial, h₁.accounted, .refl _ _⟩
    refine (succeeds_onStore (newExpression_spec h₁ hm)).bind fun poly w₂ h₂ => ?_
    have hstart : Underway b c own d poly p.tree (plan.sumTree []) w₂ :=
      ⟨q, .absent, [], hq, rfl, .inl rfl, emptied_nil, h₂.perm (.swap _ _ _)⟩
    refine (plan.expand_spec (plan.order + 1) termsBelow_nil hstart).bind ?_
    rintro progress w₃ ⟨hdone, hbroken, hsame⟩
    cases ho : progress.outcome <;> rw [ho] at hsame
    case error f =>
      have hne : p.tree.isAbsent = false := by
        cases p with
        | absent => cases hr
        | _ => rfl
      have hbroken₃ := hbroken f ho
      rw [Nat.zero_add] at hbroken₃
      obtain ⟨b', x, t, hlost, h₃, hleaves⟩ := hbroken₃.exists_leaves hne
      -- giving the derivative back is the last step, after the polynomial was given back or not
      have hend : ∀ {w : Workspace κ},
          Underway b' c own progress.derivative poly x (if f.concernsExpression then .absent else t) w →
          Succeeds (do
            onStore (releaseExpression progress.derivative)
            pure (⟨progress.terms, .error f⟩ : TaylorResult κ)) w fun result w' =>
              plan.Built b c own p.tree result w' ∧
                ∀ f, result.outcome = .error f → plan.Leaves b c own p.tree f w' := by
        intro w h
        refine (releaseDerivative_spec h).bind ?_
        rintro - w' ⟨q, extra, hq, hvalid, hextra, h'⟩
        have hv : ∀ x ∈ (poly, q) :: extra, x.2.tree.Valid :=
          List.forall_mem_cons.mpr ⟨hq ▸ hvalid, valid_of_emptied hextra⟩
        refine ensures_pure ⟨⟨b', (poly, q) :: extra, hlost.of_error, hv, h', plan.completed_error, ?_⟩, ?_⟩
        · refine fun hregular => ⟨(hsame hregular).1, ?_⟩
          rintro _ ⟨⟩
          obtain ⟨n, rfl⟩ := (hsame hregular).2 f rfl
          exact ⟨⟨n, rfl⟩, List.forall_mem_cons.mpr ⟨Planted.eq_absent_of_tree hq, hextra⟩⟩
        · rintro _ ⟨⟩
          exact hleaves q extra w' hq hextra h'
      by_cases hf : f.concernsExpression = true
      · simp only [if_pos hf] at hend ⊢
        exact (releasePolynomial_spec h₃).bind fun _ w₄ h₄ => hend h₄
      · simp only [if_neg hf] at hend ⊢
        exact hend h₃
    case ok =>
      obtain ⟨hterms, x, h₃⟩ := hdone ho
      refine (releaseDerivative_spec h₃).bind ?_
      rintro - w₄ ⟨q', extra, hq, hq', hextra, h₄⟩
      refine (Ensures.attempt (plan.finish_spec h₄ (hq ▸ hq'))).bind ?_
      rintro (f | poly') w₅ hfin
      · exact hfin.elim
      obtain ⟨hpoly, q'', hq'', h₅, hsum⟩ := hfin
      have hv : ∀ x ∈ (poly, q'') :: extra, x.2.tree.Valid :=
        List.forall_mem_cons.mpr ⟨hq'', valid_of_emptied hextra⟩
      refine ensures_pure ⟨⟨b, (poly, q'') :: extra, .inl rfl, hv, h₅, ?_, ?_⟩, nofun⟩
      · rintro _ ⟨⟩
        rw [Nat.zero_add] at hterms
        rw [hq] at hsum
        rw [hpoly]
        exact ⟨hterms, q'', extra, rfl, hextra,
          hsum (hq'.isWellFormed (plan.isAbsent_sumTree (hterms.ne_nil (Nat.succ_ne_zero _))))⟩
      · exact fun hregular => ⟨(hsame hregular).1, nofun⟩

theorem build_spec (h : w.store.Holds b c own) (he : (e, p) ∈ own) :
    (plan.build e).Succeeds w (plan.Built b c own p.tree) :=
  (plan.build_outcome h he).mono fun _ _ => And.left

end TaylorPlan

end Fluxion
