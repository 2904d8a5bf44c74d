import Fluxion.Proofs.TaylorSum

/-!
# Taylor terms are made afresh

A build makes each derivative from the one before and multiplies up the factorial on the way. The terms it
records are nevertheless those that come out if every derivative is made afresh from the expression and
evaluated at the point, and a build fails exactly where one of these evaluations does.

* `TaylorPlan.valueAfresh` is the value of the derivative of an order, made afresh.
* `TaylorPlan.Found` says that terms are those of the orders below a number, for given values.
* `TaylorPlan.expandTree_found` goes through the orders on plain trees.
* `TaylorPlan.build_afresh` is the statement on builds.
-/

namespace Fluxion

open Act Store

/-- The result of an act that ensures it. -/
theorem Act.Ensures.result_eq {σ α : Type} {act : Act σ α} {s : σ} {r : Except Fault α}
    (h : act.Ensures s (fun a _ => r = .ok a) fun f _ => r = .error f) : (act.perform s).1 = r := by
  unfold Act.Ensures at h
  split at h
  · rename_i heq
    rw [heq, h]
  · rename_i heq
    rw [heq, h]

namespace Tree

variable {κ : Type} [Scalar κ] {v : Name} {simplifier : Option (Simplifier κ)}

/-- The derivative of the next order is the next derivative. -/
theorem nextDerivative_of_higherDerivative {k : Nat} {t d d' : Tree κ}
    (h : t.higherDerivative v simplifier k = .ok d) (h' : t.higherDerivative v simplifier (k + 1) = .ok d') :
    d.nextDerivative v simplifier = .ok d' := by
  induction k generalizing t with
  | zero =>
    cases h
    unfold higherDerivative at h'
    split at h'
    · cases h'
    · rename_i d₁ hnext
      rw [hnext]
      exact h'
  | succ k ih =>
    unfold higherDerivative at h h'
    split at h
    · cases h
    · rename_i hnext
      rw [hnext] at h'
      exact ih h h'

end Tree

namespace TaylorPlan

variable {κ : Type} [Scalar κ] {plan : TaylorPlan κ} {value : Nat → Except Fault κ} {n k : Nat}
  {terms : List (TaylorTerm κ)}

/-! ## Terms for given values -/

/-- The terms are those of the orders below `n`: each order has its value, and its coefficient is the value
over the factorial. -/
def Found (value : Nat → Except Fault κ) (n : Nat) (terms : List (TaylorTerm κ)) : Prop :=
  terms.length = n ∧
    ∀ k < n, ∃ a, value k = .ok a ∧ terms[k]? = some ⟨k, a, Scalar.div a (factorial k)⟩

theorem found_nil : Found value 0 [] := ⟨rfl, nofun⟩

theorem Found.append (h : Found value n terms) {a : κ} (ha : value n = .ok a) :
    Found value (n + 1) (terms ++ [⟨n, a, Scalar.div a (factorial n)⟩]) := by
  refine ⟨by rw [List.length_append, h.1, List.length_singleton], fun k hk => ?_⟩
  rcases Nat.lt_succ_iff_lt_or_eq.mp hk with hlt | rfl
  · obtain ⟨b, hb, hterm⟩ := h.2 k hlt
    exact ⟨b, hb, by rw [List.getElem?_append_left (h.1.symm ▸ hlt), hterm]⟩
  · exact ⟨a, ha, by rw [← h.1, List.getElem?_concat_length]⟩

/-- An order that has its term has a value. -/
theorem Found.exists_value (h : Found value n terms) (hk : k < n) : ∃ a, value k = .ok a :=
  (h.2 k hk).imp fun _ => And.left

/-- The terms of all orders below `n` were found, or those below the first order without a value. -/
inductive Ends (value : Nat → Except Fault κ) (n : Nat) : List (TaylorTerm κ) × Except Fault Unit → Prop
  | found {terms : List (TaylorTerm κ)} (h : Found value n terms) : Ends value n (terms, .ok ())
  | stopped {m : Nat} {terms : List (TaylorTerm κ)} {f : Fault} (hm : m < n) (h : Found value m terms)
      (hf : value m = .error f) : Ends value n (terms, .error f)

/-- **Going through the orders.** If each derivative comes from the one before, the terms are those of the
derivatives' values. -/
theorem expandTree_found {D : Nat → Tree κ} (hD : ∀ k, plan.derivativeTree k (D (k - 1)) = .ok (D k))
    (rounds : Nat)
    (h : Found (fun j => (D j).evaluate (plan.bindings.bind plan.argument plan.point)) k terms) :
    Ends (fun j => (D j).evaluate (plan.bindings.bind plan.argument plan.point)) (k + rounds)
      (plan.expandTree rounds k (D (k - 1)) terms) := by
  induction rounds generalizing k terms with
  | zero => exact .found h
  | succ rounds ih =>
    unfold expandTree
    simp only [hD]
    cases hvalue : (D k).evaluate (plan.bindings.bind plan.argument plan.point) with
    | error f => exact .stopped (Nat.lt_add_of_pos_right (Nat.succ_pos rounds)) h hvalue
    | ok a =>
      rw [Nat.add_comm rounds 1, ← Nat.add_assoc]
      exact ih (h.append hvalue)

/-! ## Derivatives made afresh -/

variable [Literal κ] (plan)

/-- How derivatives are simplified, if they are. -/
def stepSimplifier : Option (Simplifier κ) := if plan.simplifies then some plan.simplifier else none

/-- Makes the derivative of an order afresh and evaluates it at the point. -/
def deriveAfresh (e : Expression) (k : Nat) : Work κ κ := do
  let d ← Work.differentiate e plan.argument k plan.stepSimplifier
  let root ← Work.look (·.root? d)
  Work.evaluate (plan.bindings.bind plan.argument plan.point) root

/-- The value of the derivative of an order at the point, or the fault of finding it. -/
def valueAfresh (w : Workspace κ) (e : Expression) (k : Nat) : Except Fault κ :=
  ((plan.deriveAfresh e k).perform w).1

variable {plan} {w : Workspace κ} {e : Expression} {b : Int} {c : Nat} {own : Holdings κ} {p : Planted κ}

/-- A well-formed tree has a derivative of every order, and what it evaluates to is found afresh. -/
theorem exists_valueAfresh (plan : TaylorPlan κ) (h : w.store.Holds b c own) (he : (e, p) ∈ own)
    (hw : p.tree.isWellFormed = true) (k : Nat) :
    ∃ d : Tree κ, p.tree.higherDerivative plan.argument plan.stepSimplifier k = .ok d ∧
      d.isWellFormed = true ∧
      plan.valueAfresh w e k = d.evaluate (plan.bindings.bind plan.argument plan.point) := by
  have hderive : (Work.differentiate e plan.argument k plan.stepSimplifier).Succeeds w _ :=
    Work.differentiate_of_isWellFormed h he hw (Int.natCast_nonneg k)
  obtain ⟨e', w', -, q, extra, -, hq, hd, h'⟩ := hderive.exists
  refine ⟨q.tree, hd, hq, Act.Ensures.result_eq (hderive.bind ?_)⟩
  rintro e' w' ⟨q', extra, -, -, hd', h'⟩
  have hsame : q'.tree = q.tree := Except.ok.inj (hd'.symm.trans hd)
  have htree : w'.store.tree (w'.store.root? e') = q.tree :=
    (h'.expressionTree_eq List.mem_cons_self).trans hsame
  refine Work.ensures_look ?_
  refine (Work.evaluate_spec _ _ w').mono ?_ ?_
  · rintro a - ⟨ha, -⟩
    rw [← htree, ha]
  · rintro f - ⟨hf, -⟩
    rw [← htree, hf]

/-- What a build finds, the terms made afresh. -/
theorem build_ends (h : w.store.Holds b c own) (he : (e, p) ∈ own) (hw : p.tree.isWellFormed = true)
    (hv : plan.argument.isLetter = true) :
    (plan.build e).Succeeds w fun result _ =>
      Ends (plan.valueAfresh w e) (plan.order + 1) (result.terms, result.outcome.map fun _ => ()) ∧
        ∀ f, result.outcome = .error f → ∃ n, f = .unbound n := by
  choose D hD hwf hvalue using exists_valueAfresh plan h he hw
  have hstart : D 0 = p.tree := (Except.ok.inj (hD 0)).symm
  have hnext : ∀ k, plan.derivativeTree k (D (k - 1)) = .ok (D k) := by
    intro k
    cases k with
    | zero => rfl
    | succ k => exact Tree.nextDerivative_of_higherDerivative (hD k) (hD (k + 1))
  have hends : Ends (plan.valueAfresh w e) (plan.order + 1)
      (plan.expandTree (plan.order + 1) 0 p.tree []) := by
    have h₀ := expandTree_found hnext (plan.order + 1) found_nil
    rwa [Nat.zero_add, Nat.zero_sub, hstart, ← funext hvalue] at h₀
  refine (plan.build_spec h he).mono ?_
  rintro result w' ⟨_, _, -, -, -, -, hfollowed⟩
  obtain ⟨hsame, hfault⟩ := hfollowed ⟨hw, hv⟩
  exact ⟨hsame ▸ hends, fun f hf => (hfault f hf).1⟩

/-- **A build finds what is found afresh.** On a well-formed expression a build yields a polynomial or is
refused for want of a binding. A polynomial has the terms of all orders, each with the value of the
derivative made afresh. A build is refused just when one of these values is, for the same variable, and it
has then recorded the terms of the orders before the first one that is refused. -/
theorem build_afresh (hw : w.store.StrictlyOwned) (he : e.place < w.store.roots.size)
    (ht : (w.store.expressionTree e).isWellFormed = true) (hv : plan.argument.isLetter = true) :
    (plan.build e).Succeeds w fun result _ =>
      (∀ polynomial, result.outcome = .ok polynomial →
        Found (plan.valueAfresh w e) (plan.order + 1) result.terms) ∧
      (∀ f, result.outcome = .error f → ∃ m ≤ plan.order, ∃ n, f = .unbound n ∧
        plan.valueAfresh w e m = .error (.unbound n) ∧ Found (plan.valueAfresh w e) m result.terms) ∧
      ((∃ n, result.outcome = .error (.unbound n)) ↔
        ∃ k ≤ plan.order, ∃ n, plan.valueAfresh w e k = .error (.unbound n)) := by
  obtain ⟨b, own, hown⟩ := hw.holds
  obtain ⟨p, hp⟩ := hown.exists_mem he
  rw [hown.expressionTree_eq hp] at ht
  refine (build_ends hown hp ht hv).mono ?_
  rintro ⟨terms, outcome⟩ - ⟨hends, hunbound⟩
  cases outcome with
  | ok polynomial =>
    cases hends with
    | found hfound =>
      refine ⟨fun _ _ => hfound, nofun, nofun, ?_⟩
      rintro ⟨k, hk, n, hn⟩
      obtain ⟨a, ha⟩ := hfound.exists_value (Nat.lt_succ_iff.mpr hk)
      cases ha.symm.trans hn
  | error f =>
    cases hends with
    | stopped hm hfound hf =>
      obtain ⟨n, rfl⟩ := hunbound f rfl
      have hm' := Nat.lt_succ_iff.mp hm
      refine ⟨nofun, ?_, fun _ => ⟨_, hm', n, hf⟩, fun _ => ⟨n, rfl⟩⟩
      rintro _ ⟨⟩
      exact ⟨_, hm', n, rfl, hf, hfound⟩

/-- The plan to expand in `x` at three, with two for `a`. -/
@[irreducible] def scaled : TaylorPlan Float :=
  ⟨some "x", 3.0, 1, Valuation.empty.bind (some "a") 2.0, true, 100⟩

/-- The derivative of `a * x` made afresh is `a`, and its value is the one recorded. -/
theorem build_afresh_scaled :
    (reading "a*x").store.StrictlyOwned ∧ 0 < (reading "a*x").store.roots.size ∧
      ((reading "a*x").store.expressionTree ⟨0⟩).isWellFormed = true ∧ scaled.argument.isLetter = true ∧
      (scaled.build ⟨0⟩).Succeeds (reading "a*x") fun result _ =>
        result.terms = [⟨0, 6.0, 6.0⟩, ⟨1, 2.0, 2.0⟩] ∧
          scaled.valueAfresh (reading "a*x") ⟨0⟩ 1 = .ok 2.0 := by
  have howned : (reading "a*x").store.StrictlyOwned := strictlyOwned_reading "a*x"
  have hlive : (0 : Nat) < (reading "a*x").store.roots.size := by decide +kernel
  have htree : (reading "a*x").store.expressionTree ⟨0⟩ =
      .apply₂ .mul (.var (some "a")) (.var (some "x")) := by decide +kernel
  have hregular : scaled.Regular (.apply₂ .mul (.var (some "a")) (.var (some "x"))) :=
    ⟨by decide +kernel, by decide +kernel⟩
  have hwf : ((reading "a*x").store.expressionTree ⟨0⟩).isWellFormed = true := htree ▸ hregular.1
  have hterms : scaled.expandTree (scaled.order + 1) 0
      (.apply₂ .mul (.var (some "a")) (.var (some "x"))) [] =
        ([⟨0, 6.0, 6.0⟩, ⟨1, 2.0, 2.0⟩], .ok ()) := by decide +kernel
  have horder : 1 < scaled.order + 1 := by decide +kernel
  have hrun := build_of_expandTree (e := ⟨0⟩) howned hlive htree hregular hterms
  have hafresh := build_afresh (e := ⟨0⟩) howned hlive hwf hregular.2
  refine ⟨howned, hlive, hwf, hregular.2, Act.Succeeds.mono (hrun.and hafresh) ?_⟩
  rintro result - ⟨⟨hresult, polynomial, hpolynomial, -⟩, hfound, -⟩
  obtain ⟨a, ha, hterm⟩ := (hfound polynomial hpolynomial).2 1 horder
  have hvalue : (2.0 : Float) = a := congrArg TaylorTerm.value (Option.some.inj (hresult ▸ hterm))
  exact ⟨hresult, hvalue ▸ ha⟩

end TaylorPlan

end Fluxion
