import Fluxion.Proofs.Accounting
import Fluxion.Proofs.PlainSession

/-!
# Sessions

A session answers as a plain session does, which makes every derivative anew: a derivative that is kept
is the one that would be made now, since whatever could make it another one gives it back. What a session
holds are its formula, the derivatives it keeps, and empty expressions; so when it is closed, nothing of
it is left but the polynomials that it handed over.

* `Session.Mirrors` relates a session to a plain one.
* `Session.act_follows` is one call, and `Session.serve_spec` is any number of calls.
* `Session.start_serve` is a session from its start on.
-/

namespace Fluxion

open Act

namespace Work

variable {κ α : Type} {w : Workspace κ}

/-- The end of an evaluation does not change the store. -/
theorem conclude_follows (r : Except Fault α) (w : Workspace κ) :
    (conclude r).Follows w r (fun a v w' => a = v ∧ w'.store = w.store) fun w' => w'.store = w.store := by
  unfold conclude
  cases r with
  | ok v => exact follows_pure ⟨rfl, rfl⟩
  | error f =>
    refine (succeeds_noteEvaluation f w).bind fun _ w' hw => ?_
    exact ensures_throw ⟨rfl, hw⟩

end Work

namespace Session

open Store

variable {κ α β : Type}

/-! ## Sessions and plain sessions -/

/-- A session mirrors a plain one: it has the same settings and the same table, its expression is the
formula, and every derivative it keeps is the one that the plain session would make now. Besides these
there are empty expressions and those of others. -/
structure Mirrors [Scalar κ] (b : Int) (c : Nat) (own : Holdings κ) (plain : PlainSession κ)
    (x : Session κ × Workspace κ) : Prop where
  argument : x.1.argument = plain.argument
  maxIterations : x.1.maxIterations = plain.maxIterations
  simplifies : x.1.simplifies = plain.simplifies
  table : x.1.table = plain.table
  letter : plain.argument.isLetter = true
  wellFormed : ∀ t, plain.formula = some t → t.isWellFormed = true
  held : ∃ (formula : Option (Expression × Planted κ)) (kept : List (Int × Expression × Planted κ))
    (extra : Holdings κ),
    x.1.expression = formula.map (·.1) ∧ plain.formula = formula.map (·.2.tree) ∧
    x.1.derivatives = kept.map (fun d => (d.1, d.2.1)) ∧
    (∀ d ∈ kept, plain.derivative d.1 = .ok d.2.2.tree) ∧ Work.Emptied extra ∧
    x.2.store.Holds b c (formula.toList ++ (kept.map (·.2) ++ (extra ++ own)))

variable [Scalar κ] {b : Int} {c : Nat} {own : Holdings κ} {plain : PlainSession κ} {s : Session κ}
  {w : Workspace κ} {x : Session κ × Workspace κ} {e : Expression} {t : Tree κ}

theorem Mirrors.simplifier_eq (h : Mirrors b c own plain x) : x.1.simplifier = plain.simplifier := by
  unfold Session.simplifier PlainSession.simplifier
  rw [h.argument, h.table, h.maxIterations]

/-- What does not change the store leaves a session as it was. -/
theorem Mirrors.of_store {w' : Workspace κ} (h : Mirrors b c own plain (s, w))
    (hw : w'.store = w.store) : Mirrors b c own plain (s, w') where
  argument := h.argument
  maxIterations := h.maxIterations
  simplifies := h.simplifies
  table := h.table
  letter := h.letter
  wellFormed := h.wellFormed
  held := by
    rw [show (s, w').2.store = w.store from hw]
    exact h.held

omit [Scalar κ] in
theorem perm_of_count {l l' : List α} (h : ∀ [DecidableEq α] (a : α), l.count a = l'.count a) :
    l.Perm l' := by
  classical
  exact List.perm_iff_count.mpr h

theorem Mirrors.perm {own' : Holdings κ} (h : Mirrors b c own plain x) (hp : own'.Perm own) :
    Mirrors b c own' plain x := by
  obtain ⟨formula, kept, extra, hexpression, hformula, hkept, hmade, hextra, hw⟩ := h.held
  refine ⟨h.argument, h.maxIterations, h.simplifies, h.table, h.letter, h.wellFormed, ?_⟩
  refine ⟨formula, kept, extra, hexpression, hformula, hkept, hmade, hextra, hw.perm ?_⟩
  exact ((hp.append_left _).append_left _).append_left _

/-- A session with a formula holds it, and whatever else comes to be held besides all it holds belongs to
the others or is empty. -/
theorem Mirrors.exists_holdings (h : Mirrors b c own plain (s, w)) (he : s.expression = some e)
    (ht : plain.formula = some t) :
    ∃ (p : Planted κ) (all : Holdings κ), p.tree = t ∧ (e, p) ∈ all ∧ w.store.Holds b c all ∧
      ∀ (new extra : Holdings κ) (w' : Workspace κ), Work.Emptied extra →
        w'.store.Holds b c (new ++ (extra ++ all)) → Mirrors b c (new ++ own) plain (s, w') := by
  obtain ⟨formula, kept, extra, hexpression, hformula, hkept, hmade, hextra, hw⟩ := h.held
  obtain ⟨⟨e', p⟩, rfl, hp⟩ := Option.map_eq_some_iff.mp (hexpression.symm.trans he)
  obtain rfl : e' = e := hp
  obtain rfl : p.tree = t := Option.some.inj (hformula.symm.trans ht)
  refine ⟨p, (some (e', p)).toList ++ (kept.map (·.2) ++ (extra ++ own)), rfl, List.mem_cons_self, hw,
    fun new extra' w' hextra' hw' => ?_⟩
  refine ⟨h.argument, h.maxIterations, h.simplifies, h.table, h.letter, h.wellFormed, ?_⟩
  refine ⟨some (e', p), kept, extra' ++ extra, he, ht, hkept, hmade, ?_, ?_⟩
  · exact List.forall_mem_append.mpr ⟨hextra', hextra⟩
  · exact hw'.perm (perm_of_count fun a => by simp only [List.count_append]; omega)

/-- The session keeps a derivative that was another's. -/
theorem Mirrors.keep {q : Planted κ} {order : Int} (h : Mirrors b c ((e, q) :: own) plain (s, w))
    (hq : plain.derivative order = .ok q.tree) :
    Mirrors b c own plain ({ s with derivatives := s.derivatives ++ [(order, e)] }, w) := by
  obtain ⟨formula, kept, extra, hexpression, hformula, hkept, hmade, hextra, hw⟩ := h.held
  refine ⟨h.argument, h.maxIterations, h.simplifies, h.table, h.letter, h.wellFormed, ?_⟩
  refine ⟨formula, kept ++ [(order, e, q)], extra, hexpression, hformula, ?_, ?_, hextra, ?_⟩
  · simpa using hkept
  · exact List.forall_mem_append.mpr ⟨hmade, List.forall_mem_singleton.mpr hq⟩
  · refine hw.perm (perm_of_count fun a => ?_)
    simp only [List.map_append, List.map_cons, List.map_nil, List.count_append, List.count_cons,
      List.count_nil]
    omega

/-- Another gives an expression back. -/
theorem Mirrors.release {q : Planted κ} (h : Mirrors b c ((e, q) :: own) plain (s, w)) :
    (Work.onStore (releaseExpression e)).Succeeds w fun _ w' => Mirrors b c own plain (s, w') := by
  obtain ⟨formula, kept, extra, hexpression, hformula, hkept, hmade, hextra, hw⟩ := h.held
  have hfirst : w.store.Holds b c ((e, q) :: (formula.toList ++ (kept.map (·.2) ++ (extra ++ own)))) :=
    hw.perm (perm_of_count fun a => by simp only [List.count_append, List.count_cons]; omega)
  refine (Work.succeeds_onStore (releaseExpression_spec hfirst)).mono fun _ w' hw' => ?_
  refine ⟨h.argument, h.maxIterations, h.simplifies, h.table, h.letter, h.wellFormed, ?_⟩
  refine ⟨formula, kept, (e, .absent) :: extra, hexpression, hformula, hkept, hmade, ?_, ?_⟩
  · exact List.forall_mem_cons.mpr ⟨rfl, hextra⟩
  · exact hw'.perm (perm_of_count fun a => by simp only [List.count_append, List.count_cons]; omega)

/-- The expressions of others have the trees they are listed with. -/
theorem Mirrors.expressionTree_eq {q : Planted κ} (h : Mirrors b c own plain x) (he : (e, q) ∈ own) :
    x.2.store.expressionTree e = q.tree := by
  obtain ⟨formula, kept, extra, -, -, -, -, -, hw⟩ := h.held
  refine hw.expressionTree_eq ?_
  exact List.mem_append_right _ (List.mem_append_right _ (List.mem_append_right _ he))

omit [Scalar κ] in
theorem ensures_onWorkspace {act : Work κ α} {post : α → Session κ × Workspace κ → Prop}
    {fail : Fault → Session κ × Workspace κ → Prop}
    (h : act.Ensures w (fun a w' => post a (s, w')) fun f w' => fail f (s, w')) :
    (onWorkspace act).Ensures (s, w) post fail :=
  Ensures.within h

omit [Scalar κ] in
theorem succeeds_onWorkspace {act : Work κ α} {post : α → Workspace κ → Prop} (h : act.Succeeds w post) :
    (onWorkspace act).Succeeds (s, w) fun a x => x.1 = s ∧ post a x.2 :=
  ensures_onWorkspace (Ensures.mono h (fun _ _ ha => ⟨rfl, ha⟩) fun _ _ => id)

omit [Scalar κ] in
theorem follows_onWorkspace {act : Work κ α} {r : Except Fault β} {link : α → β → Workspace κ → Prop}
    {low : Workspace κ → Prop} (h : act.Follows w r link low) :
    (onWorkspace act).Follows (s, w) r (fun a v x => x.1 = s ∧ link a v x.2) fun x => x.1 = s ∧ low x.2 :=
  ensures_onWorkspace
    (Ensures.mono h (fun _ _ ⟨v, hr, hv⟩ => ⟨v, hr, rfl, hv⟩) fun _ _ ⟨hr, hw⟩ => ⟨hr, rfl, hw⟩)

/-- Evaluating shows in the answer only. -/
theorem evaluating_follows {act : Work κ α} {r : Except Fault α} (h : Mirrors b c own plain (s, w))
    (hact : act.Follows w r (fun a v w' => a = v ∧ w'.store = w.store) fun w' => w'.store = w.store) :
    (onWorkspace act).Follows (s, w) r (fun a v x => a = v ∧ Mirrors b c own plain x)
      (Mirrors b c own plain) := by
  refine (follows_onWorkspace hact).mono ?_ ?_
  · rintro a v ⟨_, w'⟩ ⟨rfl, hv, hw⟩
    exact ⟨hv, h.of_store hw⟩
  · rintro ⟨_, w'⟩ ⟨rfl, hw⟩
    exact h.of_store hw

/-- The value of an expression that a session has. -/
theorem evaluateRoot_follows (h : Mirrors b c own plain x) (ht : x.2.store.expressionTree e = t)
    (ρ : Valuation κ) :
    (onWorkspace (do Work.evaluate ρ (← Work.look (·.root? e)))).Follows x (t.evaluate ρ)
      (fun a v x => a = v ∧ Mirrors b c own plain x) (Mirrors b c own plain) := by
  refine evaluating_follows h (Work.ensures_look (Work.ensures_look ?_))
  rw [← ht]
  exact Work.conclude_follows _ _

theorem evaluateOnRoot_follows (h : Mirrors b c own plain x) (ht : x.2.store.expressionTree e = t)
    (ρ : Valuation κ) (name : Name) (xs : List κ) :
    (onWorkspace (do Work.evaluateOn ρ name (← Work.look (·.root? e)) xs)).Follows x
      (t.evaluateOn ρ name xs)
      (fun a v x => a = v ∧ Mirrors b c own plain x) (Mirrors b c own plain) := by
  refine evaluating_follows h (Work.ensures_look (Work.ensures_look ?_))
  rw [← ht]
  exact Work.conclude_follows _ _

/-! ## Single steps -/

/-- The formula is there as long as the plain session has it. -/
theorem requireOpen_follows (h : Mirrors b c own plain x) :
    requireOpen.Follows x plain.tree
      (fun e t x' => x' = x ∧ x.1.expression = some e ∧ plain.formula = some t ∧
        x.2.store.expressionTree e = t) fun x' => x' = x := by
  obtain ⟨formula, kept, extra, hexpression, hformula, -, -, -, hw⟩ := h.held
  unfold requireOpen PlainSession.tree
  refine ensures_get ?_
  rw [hformula, hexpression]
  cases formula with
  | none => exact follows_throw rfl
  | some y => exact follows_pure ⟨rfl, rfl, rfl, hw.expressionTree_eq List.mem_cons_self⟩

theorem valuationWith_follows (h : Mirrors b c own plain x) (extra : List (Name × κ)) :
    (valuationWith extra).Follows x (plain.valuationWith extra) (fun ρ ρ' x' => ρ = ρ' ∧ x' = x)
      fun x' => x' = x := by
  unfold valuationWith PlainSession.valuationWith
  refine ensures_get ?_
  rw [h.table]
  rcases (VariableTable.update extra).perform plain.table with ⟨_ | _, table⟩
  · exact follows_throw rfl
  · exact follows_pure ⟨rfl, rfl⟩

/-! ## Giving back -/

omit [Scalar κ] in
/-- Giving back several expressions leaves them empty. -/
theorem releaseAll_spec (kept : List (Int × Expression × Planted κ)) {rest : Holdings κ}
    (h : w.store.Holds b c (kept.map (·.2) ++ rest)) :
    ((kept.map fun d => (d.1, d.2.1)).forM fun d =>
        Work.onStore (releaseExpression d.2)).Succeeds w fun _ w' =>
      ∃ extra, Work.Emptied extra ∧ w'.store.Holds b c (extra ++ rest) := by
  induction kept generalizing w rest with
  | nil => exact ensures_pure ⟨[], Work.emptied_nil, h⟩
  | cons d kept ih =>
    rw [List.map_cons]
    refine (Work.succeeds_onStore (releaseExpression_spec h)).bind fun _ w₁ h₁ => ?_
    refine (ih (h₁.perm List.perm_middle)).ensures.mono ?_ fun _ _ => id
    rintro - w' ⟨extra, hextra, h'⟩
    refine ⟨extra ++ [(d.2.1, .absent)], ?_, by simpa using h'⟩
    exact List.forall_mem_append.mpr ⟨hextra, List.forall_mem_singleton.mpr rfl⟩

omit [Scalar κ] in
/-- Giving all derivatives back. -/
theorem invalidate_spec {kept : List (Int × Expression × Planted κ)} {first rest : Holdings κ}
    (hkept : s.derivatives = kept.map fun d => (d.1, d.2.1))
    (h : w.store.Holds b c (first ++ (kept.map (·.2) ++ rest))) :
    invalidate.Succeeds (s, w) fun _ x => x.1 = { s with derivatives := [] } ∧
      ∃ extra, Work.Emptied extra ∧ x.2.store.Holds b c (first ++ (extra ++ rest)) := by
  have hfirst : w.store.Holds b c (kept.map (·.2) ++ (first ++ rest)) :=
    h.perm (perm_of_count fun a => by simp only [List.count_append]; omega)
  unfold invalidate
  refine ensures_get ?_
  rw [hkept]
  refine (succeeds_onWorkspace (releaseAll_spec kept hfirst)).bind ?_
  rintro - ⟨_, w'⟩ ⟨rfl, extra, hextra, h'⟩
  refine ⟨rfl, extra, hextra, ?_⟩
  exact h'.perm (perm_of_count fun a => by simp only [List.count_append]; omega)

/-- **Setting a variable** gives all derivatives back, unless it is refused. -/
theorem setVariable_follows (h : Mirrors b c own plain (s, w)) (name : Name) (value : κ) :
    (setVariable name value).Follows (s, w)
      (if name.isLetter then .ok () else .error (.invalidName name))
      (fun _ _ x => Mirrors b c own (plain.next (.setVariable name value)) x)
      (Mirrors b c own (plain.next (.setVariable name value))) := by
  obtain ⟨formula, kept, extra, hexpression, hformula, hkept, -, hextra, hw⟩ := h.held
  unfold setVariable VariableTable.set
  simp only [PlainSession.next]
  by_cases hname : name.isLetter = true
  · simp only [if_pos hname]
    have hset : (onTable (modify (·.put name value))).Succeeds (s, w) fun _ x =>
        x = ({ s with table := s.table.put name value }, w) := rfl
    refine hset.bind ?_
    rintro - _ rfl
    have hkept' : Session.derivatives { s with table := s.table.put name value } =
        kept.map fun d => (d.1, d.2.1) := hkept
    refine (invalidate_spec hkept' hw).ensures.mono ?_ fun _ _ => False.elim
    rintro - ⟨_, w'⟩ ⟨rfl, extra', hextra', hw'⟩
    refine ⟨(), rfl, h.argument, h.maxIterations, h.simplifies, ?_, h.letter, h.wellFormed, ?_⟩
    · exact congrArg (VariableTable.put · name value) h.table
    · refine ⟨formula, [], extra' ++ extra, hexpression, hformula, rfl, List.forall_mem_nil _, ?_,
        by simpa using hw'⟩
      exact List.forall_mem_append.mpr ⟨hextra', hextra⟩
  · simp only [if_neg hname]
    exact ensures_of_error rfl ⟨rfl, h⟩

/-- **Closing a session** gives everything back. -/
theorem close_spec (h : Mirrors b c own plain (s, w)) :
    close.Succeeds (s, w) fun _ x => Mirrors b c own (plain.next .close) x := by
  obtain ⟨formula, kept, extra, hexpression, hformula, hkept, -, hextra, hw⟩ := h.held
  unfold close
  refine (invalidate_spec hkept hw).bind ?_
  rintro - ⟨_, w'⟩ ⟨rfl, extra', hextra', hw'⟩
  have hall : Work.Emptied (extra' ++ extra) := List.forall_mem_append.mpr ⟨hextra', hextra⟩
  refine ensures_get ?_
  rw [hexpression]
  cases formula with
  | none =>
    refine ensures_pure ⟨h.argument, h.maxIterations, h.simplifies, h.table, h.letter, nofun, ?_⟩
    exact ⟨none, [], extra' ++ extra, rfl, rfl, rfl, nofun, hall, by simpa using hw'⟩
  | some y =>
    refine (succeeds_onWorkspace (Work.succeeds_onStore (releaseExpression_spec hw'))).bind ?_
    rintro - ⟨_, w''⟩ ⟨rfl, hw''⟩
    refine ensures_of_ok rfl ⟨h.argument, h.maxIterations, h.simplifies, h.table, h.letter, nofun, ?_⟩
    refine ⟨none, [], (y.1, .absent) :: (extra' ++ extra), rfl, rfl, rfl, nofun, ?_, by simpa using hw''⟩
    exact List.forall_mem_cons.mpr ⟨rfl, hall⟩

/-! ## Derivatives -/

omit [Scalar κ] in
/-- A derivative that is found is one that is kept, with its order. -/
theorem mem_of_lookup {kept : List (Int × Expression × Planted κ)} {order : Int} {d : Expression}
    (hd : (kept.map fun d => (d.1, d.2.1)).lookup order = some d) :
    ∃ q : Planted κ, (order, d, q) ∈ kept := by
  obtain ⟨before, after, hsplit, -⟩ := List.lookup_eq_some_iff.mp hd
  have hmem : (order, d) ∈ kept.map fun d => (d.1, d.2.1) := by
    rw [hsplit]
    exact List.mem_append_right _ List.mem_cons_self
  obtain ⟨⟨order', d', q⟩, hq, heq⟩ := List.mem_map.mp hmem
  cases heq
  exact ⟨q, hq⟩

variable [Literal κ]

/-- Making a derivative that is not kept yet. -/
theorem makeDerivative_follows (plain : PlainSession κ) {p : Planted κ} (h : w.store.Holds b c own)
    (he : (e, p) ∈ own) (hp : p.tree.isWellFormed = true) (order : Int) :
    Follows (do
      let d ← Work.differentiate e plain.argument order
        (if plain.simplifies then some plain.simplifier else none)
      discard (plain.simplifier.run d)
      pure d) w (plain.derivativeOf p.tree order)
      (fun d t w' => ∃ (q : Planted κ) (extra : Holdings κ), q.tree = t ∧ Work.Emptied extra ∧
        w'.store.Holds b c ((d, q) :: (extra ++ own))) fun w' => w' = w := by
  unfold PlainSession.derivativeOf
  by_cases ho : order < 0
  · unfold Work.differentiate
    rw [if_pos ho, if_pos ho]
    exact ensures_of_error rfl ⟨rfl, rfl⟩
  · rw [if_neg ho]
    refine (Work.differentiate_of_isWellFormed h he hp (Int.not_lt.mp ho)).bind ?_
    rintro d w₁ ⟨q, extra, hextra, hwf, hq, h₁⟩
    refine (Succeeds.discard (plain.simplifier.run_spec h₁ (.inr hwf))).bind ?_
    rintro - w₂ ⟨-, q', h₂, ⟨-, rfl⟩ | ⟨-, hq'⟩⟩
    · cases hwf
    · rw [hq]
      exact ensures_pure ⟨_, rfl, q', extra, hq', hextra, h₂⟩

/-- **A derivative** is the one that the plain session makes, whether it was kept or is made now. -/
theorem differentiate_follows (h : Mirrors b c own plain (s, w)) (order : Int) :
    (differentiate order).Follows (s, w) (plain.derivative order)
      (fun d t x => Mirrors b c own plain x ∧ x.2.store.expressionTree d = t)
      (Mirrors b c own plain) := by
  unfold differentiate
  refine Follows.bind ((requireOpen_follows h).mono (fun _ _ _ => id) fun _ hx => hx ▸ h) ?_
  rintro e t _ ⟨rfl, he, ht, -⟩
  have hplain : ∀ order, plain.derivative order = plain.derivativeOf t order := by
    intro order
    rw [PlainSession.derivative, PlainSession.tree, ht]
    rfl
  refine ensures_get ?_
  rw [h.simplifies, h.simplifier_eq, h.argument]
  cases hd : s.derivatives.lookup order with
  | some d =>
    obtain ⟨formula, kept, extra, -, -, hkept, hmade, -, hw⟩ := h.held
    obtain ⟨q, hq⟩ := mem_of_lookup (hkept ▸ hd)
    refine ensures_pure ⟨q.tree, hplain order ▸ hmade _ hq, h, hw.expressionTree_eq ?_⟩
    exact List.mem_append_right _ (List.mem_append_left _ (List.mem_map.mpr ⟨_, hq, rfl⟩))
  | none =>
    obtain ⟨p, all, rfl, hp, hw, hafter⟩ := h.exists_holdings he ht
    have hmake := makeDerivative_follows plain hw hp (h.wellFormed _ ht) order
    refine Ensures.bind (Ensures.mono (follows_onWorkspace hmake) (fun _ _ => id) ?_) ?_
    · rintro f ⟨_, _⟩ ⟨hf, rfl, rfl⟩
      exact ⟨hf, h⟩
    · rintro d ⟨_, w'⟩ ⟨_, hq, rfl, q, extra, rfl, hextra, hw'⟩
      have hkeep := (hafter [(d, q)] extra w' hextra hw').keep ((hplain order).trans hq)
      exact ensures_of_ok rfl ⟨q.tree, hq, hkeep, hw'.expressionTree_eq List.mem_cons_self⟩

/-! ## Values -/

omit [Literal κ] in
theorem evaluate_follows (h : Mirrors b c own plain x) (extra : List (Name × κ)) :
    (evaluate extra).Follows x (plain.evaluate extra) (fun a v x => a = v ∧ Mirrors b c own plain x)
      (Mirrors b c own plain) := by
  unfold evaluate PlainSession.evaluate
  refine ((valuationWith_follows h extra).mono (fun _ _ _ => id) fun _ hx => hx ▸ h).bind ?_
  rintro ρ _ _ ⟨rfl, rfl⟩
  refine ((requireOpen_follows h).mono (fun _ _ _ => id) fun _ hx => hx ▸ h).bind ?_
  rintro e t _ ⟨rfl, -, -, ht⟩
  exact evaluateRoot_follows h ht ρ

theorem evaluateDerivative_follows (h : Mirrors b c own plain (s, w)) (order : Int) (point : Option κ) :
    (evaluateDerivative order point).Follows (s, w) (plain.evaluateDerivative order point)
      (fun a v x => a = v ∧ Mirrors b c own plain x) (Mirrors b c own plain) := by
  unfold evaluateDerivative PlainSession.evaluateDerivative
  refine ensures_get ?_
  rw [h.argument]
  refine ((valuationWith_follows h _).mono (fun _ _ _ => id) fun _ hx => hx ▸ h).bind ?_
  rintro ρ _ _ ⟨rfl, rfl⟩
  refine (differentiate_follows h order).bind ?_
  rintro d t x₁ ⟨h₁, ht⟩
  exact evaluateRoot_follows h₁ ht ρ

/-! ## Taylor polynomials -/

/-- Building a polynomial of a formula. -/
theorem polynomial_follows {plan : TaylorPlan κ} {p : Planted κ} (h : w.store.Holds b c own)
    (he : (e, p) ∈ own) (hregular : plan.Regular p.tree) :
    (plan.polynomial e).Follows w (plan.polynomialTree p.tree)
      (fun e' t w' => ∃ (q : Planted κ) (extra : Holdings κ), q.tree = t ∧ Work.Emptied extra ∧
        w'.store.Holds b c ((e', q) :: (extra ++ own)))
      fun w' => ∃ extra, Work.Emptied extra ∧ w'.store.Holds b c (extra ++ own) := by
  unfold TaylorPlan.polynomial
  refine (plan.build_spec h he).bind ?_
  rintro ⟨terms, outcome⟩ w' ⟨b', new, hlost, -, hw', hcompleted, hfollowed⟩
  obtain ⟨hsame, hfault⟩ := hfollowed hregular
  unfold TaylorPlan.polynomialTree
  rw [← hsame]
  cases outcome with
  | ok e' =>
    obtain ⟨-, q, extra, rfl, hextra, hq⟩ := hcompleted e' rfl
    refine ensures_of_ok rfl ⟨_, rfl, q, extra, hq, hextra, ?_⟩
    rw [← hlost.eq_of_ok]
    exact hw'
  | error f =>
    obtain ⟨⟨n, rfl⟩, hnew⟩ := hfault f rfl
    refine ensures_of_error rfl ⟨rfl, new, hnew, ?_⟩
    rcases hlost with rfl | ⟨m, hm⟩
    · exact hw'
    · cases hm

omit [Scalar κ] [Literal κ] in
/-- A computation without a state follows itself. -/
theorem ofExcept_follows {σ : Type} (r : Except Fault α) (a : σ) :
    (Act.ofExcept r).Follows a r (fun v v' a' => v = v' ∧ r = .ok v ∧ a' = a) fun a' => a' = a := by
  cases r with
  | ok v => exact ensures_of_ok rfl ⟨v, rfl, rfl, rfl, rfl⟩
  | error f => exact ensures_of_error rfl ⟨rfl, rfl⟩

omit [Scalar κ] [Literal κ] in
theorem argument_of_make {plan : TaylorPlan κ} {v : Name} {a : κ} {order : Int} {ρ : Valuation κ}
    {simplifies : Bool} {cap : Int} (h : TaylorPlan.make v a order ρ simplifies cap = .ok plan) :
    plan.argument = v := by
  unfold TaylorPlan.make at h
  split at h
  · cases h
  · cases h
    rfl

/-- **A Taylor polynomial** is the one that the plain session makes, and belongs to the caller. -/
theorem taylor_follows (h : Mirrors b c own plain (s, w)) (point : κ) (order : Int) :
    (taylor point order).Follows (s, w) (plain.taylor point order)
      (fun e t x => ∃ q : Planted κ, q.tree = t ∧ Mirrors b c ((e, q) :: own) plain x)
      (Mirrors b c own plain) := by
  unfold taylor PlainSession.taylor
  refine ensures_get ?_
  rw [h.argument, h.table, h.simplifies, h.maxIterations]
  refine ((ofExcept_follows _ _).mono (fun _ _ _ => id) fun _ hx => hx ▸ h).bind ?_
  rintro plan _ _ ⟨rfl, hplan, rfl⟩
  refine ((requireOpen_follows h).mono (fun _ _ _ => id) fun _ hx => hx ▸ h).bind ?_
  rintro e t _ ⟨rfl, he, ht, -⟩
  obtain ⟨p, all, rfl, hp, hw, hafter⟩ := h.exists_holdings he ht
  have hregular : plan.Regular p.tree := ⟨h.wellFormed _ ht, argument_of_make hplan ▸ h.letter⟩
  refine (follows_onWorkspace (polynomial_follows hw hp hregular)).mono ?_ ?_
  · rintro d t ⟨_, w'⟩ ⟨rfl, q, extra, hq, hextra, hw'⟩
    exact ⟨q, hq, hafter [(d, q)] extra w' hextra hw'⟩
  · rintro ⟨_, w'⟩ ⟨rfl, extra, hextra, hw'⟩
    exact hafter [] extra w' hextra hw'

/-! ## Samples -/

theorem sampleTaylor_follows (h : Mirrors b c own plain (s, w)) (point : κ) (order : Int) (xs : List κ) :
    (sampleTaylor point order xs).Follows (s, w) (plain.sampleTaylor point order xs)
      (fun a v x => a = v ∧ Mirrors b c own plain x) (Mirrors b c own plain) := by
  unfold sampleTaylor PlainSession.sampleTaylor
  refine (taylor_follows h point order).bind ?_
  rintro e _ ⟨s, w⟩ ⟨q, rfl, h₁⟩
  refine ensures_get (ensures_onWorkspace (Work.ensures_look ?_))
  rw [h₁.table, h₁.argument]
  -- the polynomial is given back whether it has values or not
  have hvalues : (Work.evaluateOn plain.table.valuation plain.argument (w.store.root? e) xs).Follows w
      (q.tree.evaluateOn plain.table.valuation plain.argument xs) (fun a v w' => a = v ∧ w'.store = w.store)
      fun w' => w'.store = w.store := by
    rw [← h₁.expressionTree_eq List.mem_cons_self]
    exact Work.ensures_look (Work.conclude_follows _ w)
  refine (Ensures.attempt hvalues).bind ?_
  rintro (f | a) w₂ hw
  · refine (Mirrors.release (h₁.of_store hw.2)).bind fun _ w₃ h₃ => ?_
    exact ensures_of_error rfl ⟨hw.1, h₃⟩
  · obtain ⟨v, hv, rfl, hw⟩ := hw
    refine (Mirrors.release (h₁.of_store hw)).bind fun _ w₃ h₃ => ?_
    exact ensures_of_ok rfl ⟨a, hv, rfl, h₃⟩

theorem sampleTangent_follows (h : Mirrors b c own plain (s, w)) (point : κ) (xs : List κ) :
    (sampleTangent point xs).Follows (s, w) (plain.sampleTangent point xs)
      (fun a v x => a = v ∧ Mirrors b c own plain x) (Mirrors b c own plain) := by
  unfold sampleTangent PlainSession.sampleTangent
  refine ensures_get ?_
  rw [h.argument]
  refine (evaluate_follows h _).bind ?_
  rintro value _ x₁ ⟨rfl, h₁⟩
  refine (evaluateDerivative_follows h₁ 1 _).bind ?_
  rintro slope _ x₂ ⟨rfl, h₂⟩
  exact follows_pure ⟨rfl, h₂⟩

/-- The overlay of a Taylor polynomial, if it is asked for. -/
def taylorOverlay (q : SampleRequest κ) (xs : List κ) : SessionWork κ (Option (List κ)) :=
  match q.taylorPoint, q.taylorOrder with
  | some a, some n => some <$> sampleTaylor a n xs
  | _, _ => pure none

/-- The overlay of a tangent, if it is asked for. -/
def tangentOverlay (q : SampleRequest κ) (xs : List κ) : SessionWork κ (Option (List κ)) :=
  match q.tangentPoint with
  | some a => some <$> sampleTangent a xs
  | none => pure none

/-- A sample step by step. -/
theorem sample_eq (grid : κ → κ → Nat → List κ) (q : SampleRequest κ) :
    sample grid q = if q.points < 2 then throw .tooFewPoints else (do
      let e ← requireOpen
      let xs := grid q.low q.high q.points.toNat
      let s ← current
      let function ← onWorkspace do
        Work.evaluateOn s.table.valuation s.argument (← Work.look (·.root? e)) xs
      let taylor ← taylorOverlay q xs
      let tangent ← tangentOverlay q xs
      pure ⟨xs, function, taylor, tangent⟩) := by
  unfold sample taylorOverlay tangentOverlay
  by_cases hq : q.points < 2
  · simp only [if_pos hq]
    rfl
  · simp only [if_neg hq]
    cases q.taylorPoint with
    | none => cases q.tangentPoint <;> rfl
    | some a => cases q.taylorOrder <;> cases q.tangentPoint <;> rfl

omit [Scalar κ] [Literal κ] in
/-- An overlay that is asked for. -/
theorem some_follows {act : SessionWork κ α} {r : Except Fault α} {P : Session κ × Workspace κ → Prop}
    (h : act.Follows x r (fun a v x => a = v ∧ P x) P) :
    (some <$> act).Follows x (some <$> r) (fun a v x => a = v ∧ P x) P := by
  rw [map_eq_pure_bind, map_eq_pure_bind]
  refine h.bind ?_
  rintro a _ x' ⟨rfl, hx⟩
  exact follows_pure ⟨rfl, hx⟩

theorem taylorOverlay_follows (h : Mirrors b c own plain (s, w)) (q : SampleRequest κ) (xs : List κ) :
    (taylorOverlay q xs).Follows (s, w) (plain.taylorOverlay q xs)
      (fun a v x => a = v ∧ Mirrors b c own plain x) (Mirrors b c own plain) := by
  unfold taylorOverlay PlainSession.taylorOverlay
  cases q.taylorPoint with
  | none => exact follows_pure ⟨rfl, h⟩
  | some a =>
    cases q.taylorOrder with
    | none => exact follows_pure ⟨rfl, h⟩
    | some n => exact some_follows (sampleTaylor_follows h a n xs)

theorem tangentOverlay_follows (h : Mirrors b c own plain (s, w)) (q : SampleRequest κ) (xs : List κ) :
    (tangentOverlay q xs).Follows (s, w) (plain.tangentOverlay q xs)
      (fun a v x => a = v ∧ Mirrors b c own plain x) (Mirrors b c own plain) := by
  unfold tangentOverlay PlainSession.tangentOverlay
  cases q.tangentPoint with
  | some a => exact some_follows (sampleTangent_follows h a xs)
  | none => exact follows_pure ⟨rfl, h⟩

/-- **A sample** is the one that the plain session makes; the polynomial of an overlay is given back. -/
theorem sample_follows (h : Mirrors b c own plain x) (grid : κ → κ → Nat → List κ) (q : SampleRequest κ) :
    (sample grid q).Follows x (plain.sample grid q)
      (fun a v x => a = v ∧ Mirrors b c own plain x) (Mirrors b c own plain) := by
  rw [sample_eq]
  unfold PlainSession.sample
  by_cases hq : q.points < 2
  · rw [if_pos hq, if_pos hq]
    exact follows_throw h
  rw [if_neg hq, if_neg hq]
  refine ((requireOpen_follows h).mono (fun _ _ _ => id) fun _ hx => hx ▸ h).bind ?_
  rintro e t _ ⟨rfl, -, -, ht⟩
  refine ensures_get ?_
  rw [h.table, h.argument]
  refine (evaluateOnRoot_follows h ht _ _ _).bind ?_
  rintro function _ ⟨s₁, w₁⟩ ⟨rfl, h₁⟩
  refine (taylorOverlay_follows h₁ q _).bind ?_
  rintro taylor _ ⟨s₂, w₂⟩ ⟨rfl, h₂⟩
  refine (tangentOverlay_follows h₂ q _).bind ?_
  rintro tangent _ x₃ ⟨rfl, h₃⟩
  exact follows_pure ⟨rfl, h₃⟩

/-! ## Calls one after the other -/

omit [Literal κ] in
/-- The tree of an expression that is handed out. -/
theorem treeOf_follows (h : Mirrors b c own plain x) (ht : x.2.store.expressionTree e = t) :
    (SessionCall.treeOf e).Follows x (.ok t) (fun a v x => a = v ∧ Mirrors b c own plain x)
      (Mirrors b c own plain) :=
  ensures_of_ok rfl ⟨t, rfl, ht, h⟩

/-- A call was answered, and what it handed over belongs to the others. -/
def Answered (b : Int) (c : Nat) (own : Holdings κ) (plain : PlainSession κ)
    (y : Answer κ × List Expression) (a : Answer κ) (x : Session κ × Workspace κ) : Prop :=
  y.1 = a ∧ ∃ new : Holdings κ, new.map (·.1) = y.2 ∧ Mirrors b c (new ++ own) plain x

omit [Literal κ] in
/-- An answer of which nothing belongs to the caller. -/
theorem answering_follows {act : SessionWork κ α} {r : Except Fault α}
    (h : act.Follows x r (fun a v x => a = v ∧ Mirrors b c own plain x) (Mirrors b c own plain))
    (wrap : α → Answer κ) :
    (act >>= fun a => pure (wrap a, [])).Follows x (r >>= fun a => pure (wrap a))
      (Answered b c own plain) (Mirrors b c own plain) := by
  refine h.bind ?_
  rintro a _ x' ⟨rfl, hx⟩
  exact follows_pure ⟨rfl, [], rfl, hx⟩

/-- **A call** is answered as the plain session answers it, and what it hands over belongs to the
others from then on. -/
theorem act_follows (h : Mirrors b c own plain (s, w)) (grid : κ → κ → Nat → List κ) (call : SessionCall κ) :
    (call.act grid).Follows (s, w) (plain.answer grid call) (Answered b c own (plain.next call))
      (Mirrors b c own (plain.next call)) := by
  cases call with
  | setVariable name value =>
    have hanswer : plain.answer grid (.setVariable name value) =
        (if name.isLetter then .ok () else .error (.invalidName name)) >>= fun _ => .ok .done := by
      rw [PlainSession.answer]
      split <;> rfl
    rw [hanswer]
    refine (setVariable_follows h name value).bind ?_
    rintro - - x hx
    exact follows_pure ⟨rfl, [], rfl, hx⟩
  | differentiate order =>
    unfold SessionCall.act PlainSession.answer
    refine (differentiate_follows h order).bind ?_
    rintro d t x ⟨hx, ht⟩
    exact answering_follows (treeOf_follows hx ht) .tree
  | evaluate extra => exact answering_follows (evaluate_follows h extra) .value
  | evaluateDerivative order point =>
    exact answering_follows (evaluateDerivative_follows h order point) .value
  | taylor point order =>
    unfold SessionCall.act PlainSession.answer
    refine (taylor_follows h point order).bind ?_
    rintro e _ x ⟨q, rfl, hx⟩
    exact ensures_of_ok rfl ⟨_, rfl, congrArg Answer.tree (hx.expressionTree_eq List.mem_cons_self),
      [(e, q)], rfl, hx⟩
  | sample request => exact answering_follows (sample_follows h grid request) .sample
  | close =>
    unfold SessionCall.act PlainSession.answer
    refine (close_spec h).bind ?_
    rintro - x hx
    exact ensures_pure ⟨_, rfl, rfl, [], rfl, hx⟩

/-- **Calls one after the other** are answered as the plain session answers them. -/
theorem serve_spec (grid : κ → κ → Nat → List κ) (calls : List (SessionCall κ)) (h : Mirrors b c own plain (s, w)) :
    (serve grid calls).Succeeds (s, w) fun record x => record.answers = plain.answers grid calls ∧
      ∃ new : Holdings κ, new.map (·.1) = record.handedOver ∧
        Mirrors b c (new ++ own) (calls.foldl PlainSession.next plain) x := by
  induction calls generalizing own plain s w with
  | nil => exact ensures_pure ⟨rfl, [], rfl, h⟩
  | cons call calls ih =>
    unfold serve PlainSession.answers
    refine (Ensures.attempt (act_follows h grid call)).bind ?_
    rintro (f | r) ⟨s₁, w₁⟩ hcall
    · obtain ⟨hanswer, h₁⟩ := hcall
      refine (ih h₁).bind ?_
      rintro later x ⟨hlater, new, hnew, hx⟩
      refine ensures_pure ⟨?_, new, hnew, hx⟩
      rw [hanswer, hlater]
      rfl
    · obtain ⟨_, hanswer, rfl, new, hnew, h₁⟩ := hcall
      refine (ih h₁).bind ?_
      rintro later x ⟨hlater, new', hnew', hx⟩
      refine ensures_pure ⟨?_, new ++ new', ?_, hx.perm ?_⟩
      · rw [hanswer, hlater]
        rfl
      · rw [List.map_append, hnew, hnew']
        rfl
      · exact perm_of_count fun a => by simp only [List.count_append]; omega

/-! ## From the start on -/

/-- **Opening a session** fails as opening a plain one does, and then leaves nothing behind. -/
theorem start_follows (h : w.store.Holds b c own) {argument : Name} (hargument : argument.isLetter = true)
    (text : String) (bindings : List (Name × κ)) (maxIterations : Int) (simplifies : Bool)
    (level : Option Level) :
    (start text argument bindings maxIterations simplifies level).Follows w
      (PlainSession.start text argument bindings maxIterations simplifies)
      (fun s plain w' => Mirrors b c own plain (s, w')) fun w' => w'.store.Holds b c own := by
  -- the level of the journal is set before anything else
  have hrest : ∀ w₁ : Workspace κ, w₁.store.Holds b c own →
      (start text argument bindings maxIterations simplifies none).Follows w₁
        (PlainSession.start text argument bindings maxIterations simplifies)
        (fun s plain w' => Mirrors b c own plain (s, w')) fun w' => w'.store.Holds b c own := by
    intro w₁ h₁
    unfold start PlainSession.start
    refine ((ofExcept_follows (VariableTable.ofList bindings) w₁).mono (fun _ _ _ => id) fun _ hx => hx ▸ h₁).bind ?_
    rintro table _ _ ⟨rfl, -, rfl⟩
    cases hp : (Formula.parse Formula.defaultLimit text.toList : Except (Formula.Failure) (Tree κ)) with
    | error failure =>
      refine Ensures.bind (Ensures.mono (Work.readFormula_of_error h₁ hp) (fun _ _ => False.elim) ?_)
        fun _ _ => False.elim
      rintro _ w' ⟨rfl, hw', -⟩
      exact ⟨rfl, hw'⟩
    | ok t =>
      refine (Work.readFormula_of_ok h₁ hp).bind ?_
      rintro e w₂ ⟨q, rfl, h₂⟩
      refine (Work.succeeds_note _ w₂).bind fun _ w₃ hs => ?_
      refine ensures_pure ⟨_, rfl, rfl, rfl, rfl, rfl, hargument, ?_, ?_⟩
      · rintro _ ⟨⟩
        exact Formula.isWellFormed_of_parse hp
      · exact ⟨some (e, q), [], [], rfl, rfl, rfl, nofun, Work.emptied_nil, hs ▸ h₂⟩
  cases level with
  | none => exact hrest w h
  | some l => exact hrest { w with journal := { w.journal with level := l } } h

/-- What is left of a session: it spent the nodes of the expressions it handed over and no others, and
every other expression that it made is empty. -/
def Cleared (w : Workspace κ) (record : Record κ) (w' : Workspace κ) : Prop :=
  record.handedOver.Nodup ∧
    w.store.pool.spent w'.store.pool =
      ((record.handedOver.map fun e => (w'.store.expressionTree e).size).sum : Nat) ∧
    ∀ e : Expression, w.store.roots.size ≤ e.place → e ∉ record.handedOver → w'.store.root? e = none

omit [Scalar κ] [Literal κ] in
/-- The nodes of what is held, counted expression by expression. -/
theorem length_refs_eq_sum {all : Holdings κ} (h : w.store.Holds b c all) {new : Holdings κ}
    (hnew : new ⊆ all) :
    new.refs.length = ((new.map (·.1)).map fun e => (w.store.expressionTree e).size).sum := by
  rw [Holdings.refs, List.length_flatMap, List.map_map]
  refine congrArg List.sum (List.map_congr_left fun y hy => ?_)
  rw [Function.comp_apply, h.expressionTree_eq (hnew hy), Planted.length_refs]

omit [Scalar κ] [Literal κ] in
theorem refs_of_emptied {extra : Holdings κ} (h : Work.Emptied extra) : extra.refs = [] := by
  refine List.flatMap_eq_nil_iff.mpr fun x hx => ?_
  rw [h x hx]
  rfl

omit [Literal κ] in
/-- A session without a formula holds nothing but empty expressions. -/
theorem Mirrors.holds_of_closed (h : Mirrors b c own plain x) (hclosed : plain.formula = none) :
    ∃ extra, Work.Emptied extra ∧ x.2.store.Holds b c (extra ++ own) := by
  obtain ⟨formula, kept, extra, -, hformula, -, hmade, hextra, hall⟩ := h.held
  obtain rfl : formula = none := Option.map_eq_none_iff.mp (hformula.symm.trans hclosed)
  -- nothing can be kept, since a plain session without a formula has no derivatives
  have hkept : kept = [] := by
    refine List.eq_nil_iff_forall_not_mem.mpr fun d hd => ?_
    have hd' := hmade d hd
    rw [PlainSession.derivative, PlainSession.tree, hclosed] at hd'
    cases hd'
  subst hkept
  exact ⟨extra, hextra, hall⟩

omit [Literal κ] in
/-- When a session is closed, only what it handed over is left of it. -/
theorem Mirrors.cleared {w₀ : Workspace κ} {new : Holdings κ} {record : Record κ}
    (h : Mirrors b 0 (new ++ own) plain x) (hclosed : plain.formula = none)
    (h₀ : w₀.store.Holds b 0 own) (hnew : new.map (·.1) = record.handedOver) :
    Cleared w₀ record x.2 := by
  obtain ⟨extra, hextra, hall⟩ := h.holds_of_closed hclosed
  have hsubset : new ⊆ extra ++ (new ++ own) :=
    fun y hy => List.mem_append_right _ (List.mem_append_left _ hy)
  refine ⟨?_, ?_, fun e he hnot => ?_⟩
  · rw [← hnew]
    have hdistinct := hall.distinct
    rw [List.map_append, List.map_append] at hdistinct
    exact hdistinct.of_append_right.of_append_left
  · have hrefs : (extra ++ (new ++ own)).refs = extra.refs ++ (new.refs ++ own.refs) := by
      unfold Holdings.refs
      rw [List.flatMap_append, List.flatMap_append]
    rw [h₀.spent_eq hall, hrefs, refs_of_emptied hextra, List.nil_append, List.length_append, ← hnew,
      length_refs_eq_sum hall hsubset]
    omega
  · by_cases hlt : e.place < x.2.store.roots.size
    · obtain ⟨p, hp⟩ := hall.exists_mem hlt
      rcases List.mem_append.mp hp with hp | hp
      · obtain rfl : p = .absent := hextra _ hp
        exact hall.root?_eq (List.mem_append_left _ hp)
      rcases List.mem_append.mp hp with hp | hp
      · exact absurd (hnew ▸ List.mem_map_of_mem hp) hnot
      · exact absurd (h₀.lt_size hp) (Nat.not_lt.mpr he)
    · cases hroot : x.2.store.root? e with
      | none => rfl
      | some r => exact absurd (lt_size_of_root? hroot) hlt

/-- **A session from its start on.** It is refused as the plain one is, and then spends nothing. Whatever
calls are made, refused or not, their answers are those of the plain session, the table changes only where
a variable is set, no expression that was there before is touched, and once the session was closed, all
is given back but what it handed over. -/
theorem start_serve (hw : w.store.StrictlyOwned) {argument : Name} (hargument : argument.isLetter = true)
    (text : String) (bindings : List (Name × κ)) (maxIterations : Int) (simplifies : Bool)
    (level : Option Level) (grid : κ → κ → Nat → List κ) :
    (start text argument bindings maxIterations simplifies level).Ensures w
      (fun s w₁ => ∃ plain, PlainSession.start text argument bindings maxIterations simplifies = .ok plain ∧
        ∀ calls, (serve grid calls).Succeeds (s, w₁) fun record x =>
          record.answers = plain.answers grid calls ∧ x.1.table = plain.table.served calls ∧
          x.2.store.StrictlyOwned ∧
          (∀ e : Expression, e.place < w.store.roots.size → Untouched e w.store x.2.store) ∧
          (.close ∈ calls → Cleared w record x.2))
      fun f w₁ => PlainSession.start text argument bindings maxIterations simplifies = .error f ∧
        w₁.store.StrictlyOwned ∧ w.store.pool.spent w₁.store.pool = 0 := by
  obtain ⟨b, own, hown⟩ := hw.holds
  refine Ensures.mono (start_follows hown hargument text bindings maxIterations simplifies level) ?_ ?_
  · rintro s w₁ ⟨plain, hplain, hm⟩
    refine ⟨plain, hplain, fun calls => (serve_spec grid calls hm).mono ?_⟩
    rintro record x ⟨hanswers, new, hnew, hx⟩
    obtain ⟨formula, kept, extra, -, -, -, -, -, hall⟩ := hx.held
    refine ⟨hanswers, ?_, hall.strictlyOwned, fun e he => ?_, fun hclose => ?_⟩
    · rw [hx.table, PlainSession.table_foldl_next]
    · obtain ⟨p, hp⟩ := hown.exists_mem he
      exact hown.untouched hall hp (List.mem_append_right _ (List.mem_append_right _
        (List.mem_append_right _ (List.mem_append_right _ hp))))
    · exact hx.cleared (plain.formula_foldl_next hclose) hown hnew
  · rintro f w₁ ⟨hf, h₁⟩
    refine ⟨hf, h₁.strictlyOwned, ?_⟩
    rw [hown.spent_eq h₁]
    omega

/-- The plain session on `x*y` in which `y` is three. -/
def product : PlainSession Float :=
  ⟨some "x", 100, true, ⟨[some "y"], [(some "y", 0)], ⟨[some 3, none, none, none]⟩⟩,
    some (.apply₂ .mul (.var (some "x")) (.var (some "y")))⟩

/-- The derivative of `x*y` is asked for before and after `y` is set anew, and then the session is
closed. -/
def rebinding : List (SessionCall Float) :=
  [.differentiate 1, .setVariable (some "y") 2, .differentiate 1, .close]

/-- A grid of the two ends. -/
def ends (low high : Float) (_ : Nat) : List Float := [low, high]

theorem answers_rebinding : product.answers ends rebinding =
    [.ok (.tree (.literal 3)), .ok .done, .ok (.tree (.literal 2)), .ok .done] := by
  have hbefore : product.derivative 1 = .ok (.literal 3) := by decide +kernel
  have hafter : (product.next (.setVariable (some "y") 2)).derivative 1 = .ok (.literal 2) := by
    decide +kernel
  simp only [rebinding, PlainSession.answers, PlainSession.answer, PlainSession.next] at hafter ⊢
  rw [hbefore, hafter]
  rfl

/-- A session in which a derivative is asked for twice, with another value of `y`. -/
theorem start_serve_rebinding :
    (stocked 4 2 : Store Float).StrictlyOwned ∧ Name.isLetter (some "x") = true ∧
      ∃ s w₁ record x,
        (start "x*y" (some "x") [(some "y", (3 : Float))] 100 true none).perform
          ⟨stocked 4 2, .opened .minimal, []⟩ = (.ok s, w₁) ∧
        (serve ends rebinding).perform (s, w₁) = (.ok record, x) ∧
        record.answers = [.ok (.tree (.literal 3)), .ok .done, .ok (.tree (.literal 2)), .ok .done] ∧
        Cleared ⟨stocked 4 2, .opened .minimal, []⟩ record x.2 := by
  have howned := stocked_strictlyOwned (κ := Float) 4 2
  have hletter : Name.isLetter (some "x") = true := by decide
  have hplain : PlainSession.start "x*y" (some "x") [(some "y", (3 : Float))] 100 true = .ok product := rfl
  have hstart := start_serve (w := ⟨stocked 4 2, .opened .minimal, []⟩) howned hletter "x*y"
    [(some "y", (3 : Float))] 100 true none ends
  rw [hplain] at hstart
  rcases hrun : (start "x*y" (some "x") [(some "y", (3 : Float))] 100 true none).perform
    ⟨stocked 4 2, .opened .minimal, []⟩ with ⟨f | s, w₁⟩
  · cases (Ensures.of_error hstart hrun).1
  · obtain ⟨_, ⟨rfl⟩, hserve⟩ := Ensures.of_ok hstart hrun
    obtain ⟨record, x, hserved, hanswers, -, -, -, hcleared⟩ := (hserve rebinding).exists
    exact ⟨howned, hletter, s, w₁, record, x, rfl, hserved, hanswers.trans answers_rebinding,
      hcleared (by simp [rebinding])⟩

end Session

end Fluxion
