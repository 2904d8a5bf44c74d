import Fluxion.Proofs.Ownership
import Fluxion.Proofs.ReadingFormulas
import Fluxion.Proofs.ReadingPolish

/-!
# What readers leave in the store

A text that reads becomes an expression with the tree that the parser gives. A text that does not read
leaves the holdings as they were, and of every kind at least as many free nodes as before and as were
taken, if there is room for them.

* `Work.readFormula_spec` and `Work.readPolish_spec` say what reading does to the holdings.
* `Work.readFormula_tree` and `Work.readPolish_tree` say which expression a reading makes.
-/

namespace Fluxion

open Act

/-- The pool handed out nodes and took as many of each kind back. -/
def Pool.Churned (p q : Pool) : Prop := ∃ n m, Drawn n p m ∧ Returned n m q

namespace Work

open Store

variable {κ α γ : Type} {w : Workspace κ} {b : Int} {c : Nat} {own : Holdings κ}

/-- Reading in the workspace is reading in the store. -/
theorem reading_follows (lead : String) {ε : Type} {act : Act (Store κ) α} {x : Except ε γ}
    {cause : ε → Fault} {link : α → γ → Store κ → Prop} {left : Store κ → Prop}
    (h : act.Follows w.store (x.mapError cause) link left)
    (hc : ∀ e, ∃ complaint position text, cause e = .malformed complaint position text) :
    (reading lead act).Follows w (x.mapError cause) (fun a y w' => link a y w'.store)
      fun w' => left w'.store := by
  have hstore : (onStore act).Follows w (x.mapError cause) (fun a y w' => link a y w'.store)
      fun w' => left w'.store := ensures_onStore h
  refine hstore.onMalformed hc fun _ _ w' hw => (succeeds_note _ w').mono fun _ w'' hw' => ?_
  rw [hw']
  exact hw

/-- **A failed reading** leaves the holdings as they were. -/
theorem undone_spec {fault f : Fault} {w' : Workspace κ} (h : w.store.Holds b c own)
    (hu : f = fault ∧ Undone b own.refs w.store w'.store) :
    f = fault ∧ w'.store.Holds b c own ∧ w.store.pool.Churned w'.store.pool :=
  ⟨hu.1, h.kept hu.2.kept hu.2.accounted, hu.2.pool⟩

/-- A tree that was read becomes a new expression. -/
theorem keep_spec {s : Store κ} {t : Tree κ} {p : Planted κ} (h : s.Holds b c own) (ht : p.tree = t)
    (hm : Made b own.refs s p w.store) :
    (onStore (newExpression p.ref?)).Succeeds w fun e w' =>
      ∃ q : Planted κ, q.tree = t ∧ w'.store.Holds b c ((e, q) :: own) :=
  (succeeds_onStore (newExpression_spec h hm)).mono fun _ _ h' => ⟨p, ht, h'⟩

variable [Literal κ]

/-- A formula that reads becomes an expression with the tree that was read. -/
theorem readFormula_of_ok {limit : Int} {text : String} {t : Tree κ} (h : w.store.Holds b c own)
    (hp : Formula.parse limit text.toList = .ok t) :
    (readFormula limit text).Succeeds w fun e w' =>
      ∃ q : Planted κ, q.tree = t ∧ w'.store.Holds b c ((e, q) :: own) := by
  have hread := reading_follows "Syntax error: " (Formula.read_follows text limit h.accounted)
    fun _ => ⟨_, _, _, rfl⟩
  rw [hp] at hread
  refine hread.succeeds.bind ?_
  rintro r w₁ ⟨p, hr, hpt, hb⟩
  refine ensures_look (Succeeds.bind (succeeds_note _ w₁) fun _ w₂ hw => ?_)
  rw [← hr]
  refine keep_spec h hpt ?_
  rw [hw]
  exact hb.toMade

theorem readFormula_of_error {limit : Int} {text : String} {failure : Formula.Failure}
    {post : Expression → Workspace κ → Prop} (h : w.store.Holds b c own)
    (hp : (Formula.parse limit text.toList : Except Formula.Failure (Tree κ)) = .error failure) :
    (readFormula limit text).Ensures w post fun f w' =>
      f = failure.fault text ∧ w'.store.Holds b c own ∧ w.store.pool.Churned w'.store.pool := by
  have hread := reading_follows "Syntax error: " (Formula.read_follows text limit h.accounted)
    fun _ => ⟨_, _, _, rfl⟩
  rw [hp] at hread
  exact (hread.refused.mono (fun _ _ => id) fun _ _ => undone_spec h).bind fun _ _ => False.elim

/-- **Reading a formula.** -/
theorem readFormula_spec (h : w.store.Holds b c own) (limit : Int) (text : String) :
    (readFormula limit text).Ensures w
      (fun e w' => ∃ q : Planted κ, q.tree.isWellFormed = true ∧
        w'.store.Holds b c ((e, q) :: own))
      fun f w' => (∃ complaint position, f = .malformed complaint position text) ∧
        w'.store.Holds b c own ∧ w.store.pool.Churned w'.store.pool := by
  cases hp : (Formula.parse limit text.toList : Except (Formula.Failure) (Tree κ)) with
  | error failure =>
    refine (readFormula_of_error h hp).mono (fun _ _ => id) ?_
    rintro _ w' ⟨rfl, hrest⟩
    exact ⟨⟨_, _, rfl⟩, hrest⟩
  | ok t =>
    refine (readFormula_of_ok h hp).ensures.mono ?_ fun _ _ => id
    rintro e w' ⟨q, rfl, hq⟩
    exact ⟨q, Formula.isWellFormed_of_parse hp, hq⟩

/-- A text in Polish notation that reads becomes an expression with the tree that was read. -/
theorem readPolish_of_ok {text : String} {t : Tree κ} (h : w.store.Holds b c own)
    (hp : Polish.parse text.toList = .ok t) :
    (readPolish text).Succeeds w fun e w' =>
      ∃ q : Planted κ, q.tree = t ∧ w'.store.Holds b c ((e, q) :: own) := by
  have hread := reading_follows "Malformed tree text: " (Polish.read_follows text h.accounted)
    fun _ => ⟨_, _, _, rfl⟩
  rw [hp] at hread
  refine hread.succeeds.bind ?_
  rintro _ w₁ ⟨p, rfl, hpt, hb⟩
  exact keep_spec h hpt hb.toMade

theorem readPolish_of_error {text : String} {failure : Polish.Failure}
    {post : Expression → Workspace κ → Prop} (h : w.store.Holds b c own)
    (hp : (Polish.parse text.toList : Except Polish.Failure (Tree κ)) = .error failure) :
    (readPolish text).Ensures w post fun f w' =>
      f = failure.fault text ∧ w'.store.Holds b c own ∧ w.store.pool.Churned w'.store.pool := by
  have hread := reading_follows "Malformed tree text: " (Polish.read_follows text h.accounted)
    fun _ => ⟨_, _, _, rfl⟩
  rw [hp] at hread
  exact (hread.refused.mono (fun _ _ => id) fun _ _ => undone_spec h).bind fun _ _ => False.elim

/-- **Reading a text in Polish notation.** -/
theorem readPolish_spec (h : w.store.Holds b c own) (text : String) :
    (readPolish text).Ensures w
      (fun e w' => ∃ q : Planted κ, q.tree.Valid ∧ w'.store.Holds b c ((e, q) :: own))
      fun f w' => (∃ complaint position, f = .malformed complaint position text) ∧
        w'.store.Holds b c own ∧ w.store.pool.Churned w'.store.pool := by
  cases hp : (Polish.parse text.toList : Except (Polish.Failure) (Tree κ)) with
  | error failure =>
    refine (readPolish_of_error h hp).mono (fun _ _ => id) ?_
    rintro _ w' ⟨rfl, hrest⟩
    exact ⟨⟨_, _, rfl⟩, hrest⟩
  | ok t =>
    refine (readPolish_of_ok h hp).ensures.mono ?_ fun _ _ => id
    rintro e w' ⟨q, rfl, hq⟩
    exact ⟨q, Polish.valid_of_parse hp, hq⟩

/-! In a strictly owned store: the new expression has the tree that was read. -/

theorem readFormula_tree {limit : Int} {text : String} {t : Tree κ} (h : w.store.StrictlyOwned)
    (hp : Formula.parse limit text.toList = .ok t) :
    (readFormula limit text).Succeeds w fun e w' =>
      w'.store.expressionTree e = t ∧ w'.store.StrictlyOwned := by
  obtain ⟨b, own, h⟩ := h.holds
  refine (readFormula_of_ok h hp).mono ?_
  rintro e w' ⟨q, rfl, hq⟩
  exact ⟨hq.expressionTree_eq List.mem_cons_self, hq.strictlyOwned⟩

theorem readPolish_tree {text : String} {t : Tree κ} (h : w.store.StrictlyOwned)
    (hp : Polish.parse text.toList = .ok t) :
    (readPolish text).Succeeds w fun e w' =>
      w'.store.expressionTree e = t ∧ w'.store.StrictlyOwned := by
  obtain ⟨b, own, h⟩ := h.holds
  refine (readPolish_of_ok h hp).mono ?_
  rintro e w' ⟨q, rfl, hq⟩
  exact ⟨hq.expressionTree_eq List.mem_cons_self, hq.strictlyOwned⟩

end Work

end Fluxion
