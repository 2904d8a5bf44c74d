import Fluxion.Proofs.Runs

/-!
# Accounts of nodes

What a pool spends in a call is the number of nodes it hands out less the number it takes back. In a
strictly owned store a call spends just what its result is made of: the nodes of a new expression, or
the difference between the tree an expression had and the one it has. A call that fails on a text or
on an operation without a rule spends nothing, whatever it had made by then; a failed reading leaves
the free lists as full as the nodes it used can make them.

* `Pool.spent` is what a pool spends.
* `Store.StrictlyOwned.accounts` is the account of every call.
-/

namespace Fluxion

open Act

namespace Pool

/-- The nodes handed out from one state of a pool to another, less those released. -/
def spent (p q : Pool) : Int :=
  ((q.handedOut.total : Int) - p.handedOut.total) - ((q.released : Int) - p.released)

/-- The free list of each kind is as long as its room and the nodes handed out of it allow. -/
def Refilled (p q : Pool) : Prop :=
  ∀ k, (p.stock k : Int) ≤ p.room →
    (q.stock k : Int) = min p.room (max (p.stock k : Int) (q.handedOut.count k - p.handedOut.count k))

variable {p q : Pool}

theorem spent_eq (p q : Pool) : p.spent q = q.balance - p.balance := by
  unfold spent balance
  omega

/-- **Nodes that are all given back** fill the free lists up. -/
theorem Churned.refilled (h : p.Churned q) : p.Refilled q := by
  obtain ⟨n, m, hd, hr⟩ := h
  intro k hk
  have hm := hd.stock k
  have hn := hd.handedOut k
  rw [hr.stock, hr.handedOut, hd.room]
  omega

end Pool

namespace Store

variable {κ : Type} {s t : Store κ} {b : Int} {c : Nat} {own own' extra : Holdings κ} {e : Expression}
  {p q : Planted κ}

/-- What is spent between two holdings is the difference of their nodes. -/
theorem Holds.spent_eq (h : s.Holds b c own) (h' : t.Holds b c own') :
    s.pool.spent t.pool = (own'.refs.length : Int) - own.refs.length := by
  rw [Pool.spent_eq, h'.accounted.balance, h.accounted.balance]
  omega

/-- A new expression costs the nodes of its tree. -/
theorem Holds.spent_new (h : s.Holds b c own) (h' : t.Holds b c ((e, p) :: own)) :
    s.pool.spent t.pool = (t.expressionTree e).size := by
  rw [h.spent_eq h', h'.expressionTree_eq List.mem_cons_self, refs_cons, List.length_append,
    Planted.length_refs]
  omega

/-- Another tree costs the difference. -/
theorem Holds.spent_changed (h : s.Holds b c ((e, p) :: own)) (h' : t.Holds b c ((e, q) :: own)) :
    s.pool.spent t.pool = (t.expressionTree e).size - (s.expressionTree e).size := by
  rw [h.spent_eq h', h'.expressionTree_eq List.mem_cons_self, h.expressionTree_eq List.mem_cons_self]
  simp only [refs_cons, List.length_append, Planted.length_refs]
  omega

end Store

namespace Work

open Store

variable {κ : Type} {w : Workspace κ} {b : Int} {c : Nat} {own : Holdings κ} {e : Expression}
  {p : Planted κ} {v : Name}

/-- The pool spent the nodes of an expression. -/
def PaidFor (w : Workspace κ) (e : Expression) (w' : Workspace κ) : Prop :=
  w.store.pool.spent w'.store.pool = (w'.store.expressionTree e).size

/-- A text did not read; nothing was spent, and the free lists are filled up. -/
def NothingRead (text : String) (w : Workspace κ) (f : Fault) (w' : Workspace κ) : Prop :=
  (∃ complaint position, f = .malformed complaint position text) ∧
    w.store.pool.spent w'.store.pool = 0 ∧ w.store.pool.Refilled w'.store.pool

/-- Whatever failed, nothing was spent if an operation has no rule. -/
def NothingDerived (w : Workspace κ) (f : Fault) (w' : Workspace κ) : Prop :=
  ∀ op, f = .unknownOperation op → w.store.pool.spent w'.store.pool = 0

theorem nothingRead_of_churned {text : String} {f : Fault} {w' : Workspace κ}
    (h : w.store.Holds b c own)
    (hf : (∃ complaint position, f = .malformed complaint position text) ∧
      w'.store.Holds b c own ∧ w.store.pool.Churned w'.store.pool) : NothingRead text w f w' := by
  obtain ⟨hfault, h', hchurned⟩ := hf
  refine ⟨hfault, ?_, hchurned.refilled⟩
  rw [h.spent_eq h']
  omega

/-- **The account of a derivative**: the expressions made on the way are empty in the end. -/
theorem differentiate_account [Scalar κ] [Literal κ] {simplifier : Option (Simplifier κ)}
    (h : w.store.Holds b c own) (he : (e, p) ∈ own) (order : Int) :
    (differentiate e v order simplifier).Ensures w (PaidFor w) (NothingDerived w) := by
  refine (differentiate_spec h he order).mono ?_ ?_
  · rintro e' w' ⟨q, extra, hextra, -, h'⟩
    have hnone : extra.refs = [] := by
      refine List.flatMap_eq_nil_iff.mpr fun x hx => ?_
      rw [hextra x hx]
      rfl
    unfold PaidFor
    rw [h.spent_eq h', h'.expressionTree_eq List.mem_cons_self, refs_cons, Holdings.refs,
      List.flatMap_append, ← Holdings.refs, hnone, ← Holdings.refs, List.nil_append,
      List.length_append, Planted.length_refs]
    omega
  · rintro f w' (⟨⟨rfl, -⟩, -⟩ | hf) op hop
    · cases hop
    · cases hf with
      | noRule _ h' =>
        rw [h.spent_eq h']
        omega
      | stopped _ _ => cases hop

end Work

namespace Store

variable {κ : Type} [Scalar κ] [Literal κ] {w : Workspace κ}

/-- **The account of every call** in a strictly owned store, on any text and on any expression that is
there. -/
theorem StrictlyOwned.accounts (h : w.store.StrictlyOwned) :
    (∀ limit text, (Work.readFormula limit text).Ensures w (Work.PaidFor w)
      (Work.NothingRead text w)) ∧
    (∀ text, (Work.readPolish text).Ensures w (Work.PaidFor w) (Work.NothingRead text w)) ∧
    ∀ e : Expression, e.place < w.store.roots.size →
      (Work.onStore (copyExpression e)).Ensures w (Work.PaidFor w) (fun _ _ => True) ∧
      (∀ v order simplifier, (Work.differentiate e v order simplifier).Ensures w (Work.PaidFor w)
        (Work.NothingDerived w)) ∧
      (∀ σ : Simplifier κ, (w.store.expressionTree e).Valid → (σ.run e).Succeeds w fun _ w' =>
        w.store.pool.spent w'.store.pool =
          (w'.store.expressionTree e).size - (w.store.expressionTree e).size) ∧
      (Work.onStore (releaseExpression e)).Succeeds w fun _ w' =>
        w.store.pool.spent w'.store.pool = -(w.store.expressionTree e).size := by
  obtain ⟨b, own, hown⟩ := h.holds
  refine ⟨fun limit text => ?_, fun text => ?_, fun e he => ?_⟩
  · refine (Work.readFormula_spec hown limit text).mono ?_ ?_
    · rintro e w' ⟨q, -, h'⟩
      exact hown.spent_new h'
    · exact fun f w' => Work.nothingRead_of_churned hown
  · refine (Work.readPolish_spec hown text).mono ?_ ?_
    · rintro e w' ⟨q, -, h'⟩
      exact hown.spent_new h'
    · exact fun f w' => Work.nothingRead_of_churned hown
  · obtain ⟨p, hp⟩ := hown.exists_mem he
    obtain ⟨rest, hperm⟩ := perm_of_mem hp
    have hfirst := hown.perm hperm.symm
    refine ⟨?_, fun v order simplifier => ?_, fun σ hv => ?_, ?_⟩
    · refine (Work.ensures_onStore (copyExpression_spec hown hp)).mono ?_ fun _ _ _ => trivial
      rintro e' w' ⟨-, q, -, h'⟩
      exact hown.spent_new h'
    · exact Work.differentiate_account hown hp order
    · rw [hown.expressionTree_eq hp] at hv
      refine (σ.run_spec hfirst (hv.imp_left Planted.eq_absent_of_tree)).mono ?_
      rintro - w' ⟨q, h', -⟩
      exact hfirst.spent_changed h'
    · refine (Work.succeeds_onStore (releaseExpression_spec hfirst)).mono fun _ w' h' => ?_
      rw [hfirst.spent_changed h', h'.expressionTree_eq List.mem_cons_self]
      simp [Planted.tree, Tree.size]

/-- After `x+x` was differentiated and given back, a failing text costs nothing, and giving the
derivative back yields its three nodes. -/
theorem accounts_sumDifferentiated :
    Run.sumDifferentiated.store.StrictlyOwned ∧
      (Work.readFormula 100 "y*(z+x").Ensures Run.sumDifferentiated (Work.PaidFor Run.sumDifferentiated)
        (Work.NothingRead "y*(z+x" Run.sumDifferentiated) ∧
      (Work.onStore (releaseExpression ⟨1⟩)).Succeeds Run.sumDifferentiated fun _ w' =>
        Run.sumDifferentiated.store.pool.spent w'.store.pool = -3 := by
  have howned : Run.sumDifferentiated.store.StrictlyOwned :=
    Run.run_sumDifferentiated.strictlyOwned (stocked_strictlyOwned 4 2)
  have hlive : (1 : Nat) < Run.sumDifferentiated.store.roots.size := by decide +kernel
  have hsize : (Run.sumDifferentiated.store.expressionTree ⟨1⟩).size = 3 := by decide +kernel
  have hread := (StrictlyOwned.accounts howned).1 100 "y*(z+x"
  have hrelease := ((StrictlyOwned.accounts howned).2.2 ⟨1⟩ hlive).2.2.2
  rw [hsize] at hrelease
  exact ⟨howned, hread, hrelease⟩

end Store

end Fluxion
