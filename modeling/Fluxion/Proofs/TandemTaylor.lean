import Fluxion.Proofs.TandemCalls

/-!
# Taylor polynomials in tandem

A build has two expressions under way, the derivative at hand and the polynomial, and gives one back while
the other is still needed. `Midway` says that both were made by the build and have no node in common, so
what happens to one leaves the other alone.

* `TaylorPlan.concur_newTerm`, `TaylorPlan.concur_addTerm` and `TaylorPlan.concur_derivativeOf` are the steps
  of a round, `TaylorPlan.concur_expand` puts the rounds together.
* `TaylorPlan.concur_build` builds a polynomial, or gives up, on both sides.
-/

namespace Fluxion

open Act Store

namespace Store

variable {κ : Type} {E : Effect} {ρ ρ' : Ref → Ref} {F F' : Forest κ} {t s t' s' : Store κ} {n : Nat} {r r' : Ref}

/-! ## New nodes -/

/-- A node that comes after the first `nodes` is there on both sides. -/
structure Held (nodes : Nat) (ρ : Ref → Ref) (F : Forest κ) (r r' : Ref) : Prop where
  same : r' = ρ r
  mem : r ∈ F.refs
  fresh : nodes ≤ r

theorem Held.onward (h : Held n ρ F r r') (ht : Twins ρ F t s)
    (ho : Onward (.links (n ≤ ·)) ρ F t ρ' F' t' s') : Held n ρ' F' r r' :=
  have hr := ho.kept r h.mem id
  ⟨h.same.trans (ho.name_eq ht h.mem hr).symm, hr, h.fresh⟩

theorem concur_literal (h : Twins ρ F t s) (hn : n ≤ t.nodes.size) (v : κ) :
    Concur (.links (n ≤ ·)) ρ F (newLiteral .pool v) t (newLiteral .pool v) s fun r r' ρ' F' _ =>
      Held n ρ' F' r r' :=
  (h.concur_newLiteral .pool v).mono fun _ _ _ _ _ ⟨hs, hr, _, hnew⟩ => ⟨hs, hr, Nat.le_trans hn hnew⟩

theorem concur_var (h : Twins ρ F t s) (hn : n ≤ t.nodes.size) (name : Name) :
    Concur (.links (n ≤ ·)) ρ F (newVar .pool name) t (newVar .pool name) s fun r r' ρ' F' _ =>
      Held n ρ' F' r r' :=
  (h.concur_newVar .pool name).mono fun _ _ _ _ _ ⟨_, hs, hr, _, hnew⟩ => ⟨hs, hr, Nat.le_trans hn hnew⟩

theorem concur_operation (h : Twins ρ F t s) (hn : n ≤ t.nodes.size) (op : Operator) {left left' right right' : Ref}
    (hl : Held n ρ F left left') (hr : Held n ρ F right right') :
    Concur (.links (n ≤ ·)) ρ F (newBinary .pool op (some left) (some right)) t
      (newBinary .pool op (some left') (some right')) s fun r r' ρ' F' t' => Minted n ρ' F' t' r r' := by
  obtain ⟨rfl, hl, hlnew⟩ := hl
  obtain ⟨rfl, hr, hrnew⟩ := hr
  refine (Twins.concur_newBinary h .pool op ?_ ?_ ?_).mono ?_
  · rintro _ ⟨⟩
    exact hl
  · rintro _ ⟨⟩
    exact hr
  · rintro x (hx | ⟨⟨⟩⟩ | ⟨⟨⟩⟩)
    · exact Nat.le_trans hn hx
    · exact hlnew
    · exact hrnew
  · exact fun _ _ _ _ _ hm => ⟨hm.same, hm.mem, hm.parentless, Nat.le_trans hn hm.fresh⟩

theorem Minted.held (h : Minted n ρ F t r r') : Held n ρ F r r' := ⟨h.same, h.mem, h.fresh⟩

end Store

namespace TaylorPlan

variable {κ : Type} {E : Effect} {ρ ρ' : Ref → Ref} {F F' : Forest κ} {t s t' s' : Store κ}
  {w w' : Workspace κ} {n m : Nat} {e d poly : Expression}

/-- The derivative and the polynomial are expressions made before, beside each other. -/
structure Midway (n m : Nat) (d poly : Expression) (F : Forest κ) (t : Store κ) : Prop where
  derivative : Opened n m d d F t
  polynomial : Opened n m poly poly F t
  beside : Beside t poly d

/-- Where nothing happens but to what is new, a build is midway as before. -/
theorem Midway.stays (h : Midway n m d poly F t) (ht : Twins ρ F t s)
    (ho : Onward (.beyond t.nodes.size t.roots.size) ρ F t ρ' F' t' s') : Midway n m d poly F' t' :=
  ⟨h.derivative.stays ht ho (Nat.le_refl _) (Nat.le_refl _), h.polynomial.stays ht ho (Nat.le_refl _) (Nat.le_refl _),
    h.beside.onward ho ⟨h.polynomial.placed, Nat.not_le.mpr h.polynomial.placed⟩
      ⟨h.derivative.placed, Nat.not_le.mpr h.derivative.placed⟩⟩

variable [Scalar κ] (plan : TaylorPlan κ)

/-! ## A term -/

/-- **Making a term** of new nodes. -/
theorem concur_newTerm (h : Twins ρ F t s) (k : Nat) (c : κ) :
    Concur (.links (t.nodes.size ≤ ·)) ρ F (plan.newTerm k c) t (plan.newTerm k c) s fun r r' ρ' F' t' =>
      Minted t.nodes.size ρ' F' t' r r' := by
  unfold newTerm
  split
  · refine (h.concur_newLiteral .pool c).mono ?_
    rintro r r' ρ' F' t' ⟨hs, hr, hn, hnew⟩
    exact minted_of_node? hs hr hn hnew
  · refine (concur_var h (Nat.le_refl _) plan.argument).bind ?_
    rintro v v' ρ₁ F₁ t₁ s₁ ⟨h₁, -⟩ o₁ hv
    have n₁ := o₁.size
    refine (concur_literal h₁ n₁ plan.point).bind ?_
    rintro a a' ρ₂ F₂ t₂ s₂ ⟨h₂, -⟩ o₂ ha
    have n₂ := Nat.le_trans n₁ o₂.size
    refine (concur_operation h₂ n₂ _ (hv.onward h₁ o₂) ha).bind ?_
    rintro shift shift' ρ₃ F₃ t₃ s₃ ⟨h₃, -⟩ o₃ hshift
    have n₃ := Nat.le_trans n₂ o₃.size
    refine (concur_literal h₃ n₃ _).bind ?_
    rintro exponent exponent' ρ₄ F₄ t₄ s₄ ⟨h₄, -⟩ o₄ hexponent
    have n₄ := Nat.le_trans n₃ o₄.size
    refine (concur_operation h₄ n₄ _ (hshift.held.onward h₃ o₄) hexponent).bind ?_
    rintro power power' ρ₅ F₅ t₅ s₅ ⟨h₅, -⟩ o₅ hpower
    have n₅ := Nat.le_trans n₄ o₅.size
    refine (concur_literal h₅ n₅ c).bind ?_
    rintro c c' ρ₆ F₆ t₆ s₆ ⟨h₆, -⟩ o₆ hc
    exact concur_operation h₆ (Nat.le_trans n₅ o₆.size) _ hc (hpower.held.onward h₅ o₆)

/-! ## Adding a term -/

/-- Adding a term to a polynomial. -/
def adding (t : Store κ) (poly : Expression) : Effect :=
  ⟨fun _ => False, fun x => t.root? poly = some x ∨ t.nodes.size ≤ x, (· = poly)⟩

/-- The polynomial has a root of its own, the one it had or a new one, or none. -/
def Rooted (t : Store κ) (poly : Expression) (F' : Forest κ) (t' : Store κ) : Prop :=
  ∀ r, t'.root? poly = some r →
    (r ∈ F'.refs ∧ t'.parent? r = none) ∧ (t.root? poly = some r ∨ t.nodes.size ≤ r)

omit [Scalar κ] in
theorem rooted_of_none (h : t'.root? poly = none) : Rooted t poly F' t' := fun r hr => by
  rw [h] at hr
  cases hr

omit [Scalar κ] in
theorem rooted_of_links (hp : Opened n m poly poly F t) (h : Twins ρ F t s)
    (ho : Onward (.links (t.nodes.size ≤ ·)) ρ F t ρ' F' t' s') : Rooted t poly F' t' := by
  intro r hr
  rw [ho.roots poly hp.placed id] at hr
  obtain ⟨hrF, hrp⟩ := hp.root r hr
  obtain ⟨hin, hpar, -⟩ := ho.standing h hrF hrp fun y hy =>
    ⟨id, Nat.not_le.mpr (h.lt_size (h.bears.subset_postOrder hrF hy))⟩
  exact ⟨⟨hin, hpar⟩, .inl hr⟩

omit [Scalar κ] in
/-- A new node becomes the root of a polynomial without one. -/
theorem concur_plantRoot {t₀ : Store κ} {r r' : Ref} (h : Twins ρ F t s) (hr : Minted t₀.nodes.size ρ F t r r')
    (hnone : t.root? poly = none) :
    ConcurOr (adding t₀ poly) ρ F (setRoot poly (some r)) t (setRoot poly (some r')) s
      (fun _ _ _ F' t' => Rooted t₀ poly F' t') fun _ F' t' => Rooted t₀ poly F' t' := by
  have hmem : ∀ x, some r = some x → x ∈ F.refs := by
    rintro _ ⟨⟩
    exact hr.mem
  rw [hr.same]
  refine (h.concur_setRoot (E := adding t₀ poly) rfl hmem).weaken ?_ ?_
  · rintro - - _ _ _ ⟨rfl, rfl, rfl⟩ x hx
    rw [root?_writeRoot] at hx
    split at hx
    · cases hx
      exact ⟨⟨hr.mem, hr.parentless⟩, .inr hr.fresh⟩
    · cases hnone.symm.trans hx
  · rintro _ _ _ ⟨rfl, rfl, rfl⟩
    exact rooted_of_none hnone

/-- **Adding a term**, or failing to. -/
theorem concur_addTerm (hp : Opened n m poly poly F t) (h : Twins ρ F t s) (k : Nat) (c : κ) :
    ConcurOr (adding t poly) ρ F (plan.addTerm poly k c) t (plan.addTerm poly k c) s
      (fun _ _ _ F' t' => Rooted t poly F' t') fun _ F' t' => Rooted t poly F' t' := by
  have hlinks : (Effect.links (t.nodes.size ≤ ·)).Within (adding t poly) :=
    ⟨fun _ => False.elim, fun _ => .inr, fun _ => False.elim⟩
  unfold addTerm
  have hterm := (plan.concur_newTerm h k c).noting.within hlinks
  refine (hterm.weaken (fun _ _ _ _ _ => id) fun _ _ _ ⟨_, _, ho⟩ => rooted_of_links hp h ho).bind ?_
  rintro term _ ρ₁ F₁ t₁ s₁ ⟨(h₁ : Twins ρ₁ F₁ t₁ s₁), -⟩ - ⟨hnew, s₂, ho⟩
  obtain rfl := hnew.same
  have hlive : ∀ r, t₁.root? poly = some r → r ∈ F₁.refs := fun r hr => (rooted_of_links hp h ho r hr).1.1
  have hroot : s₁.root? poly = (t₁.root? poly).map ρ₁ := h₁.roots poly hlive
  refine concur_get ?_
  rw [hroot]
  cases hr : t₁.root? poly with
  | none => exact concur_plantRoot h₁ hnew hr
  | some total =>
    -- the root is taken out, put into the sum, and the sum becomes the root
    have hempty : ∀ x, (none : Option Ref) = some x → x ∈ F₁.refs := nofun
    refine ConcurOr.bind ((h₁.concur_setRoot (E := adding t poly) rfl hempty).weaken (fun _ _ _ _ _ => id) ?_) ?_
    · rintro _ _ _ ⟨rfl, rfl, rfl⟩
      exact rooted_of_links hp h ho
    rintro - - ρ₂ F₂ _ s₂ ⟨h₂, -⟩ - ⟨rfl, rfl, rfl⟩
    have hcut : (t₁.writeRoot poly none).root? poly = none := by
      rw [root?_writeRoot, if_pos ⟨rfl, Nat.lt_of_lt_of_le hp.placed ho.places⟩]
    have htotal : t.root? poly = some total := (ho.roots poly hp.placed id).symm.trans hr
    have hsum : Concur (.links fun x => t.root? poly = some x ∨ t.nodes.size ≤ x) ρ₂ F₂
        (newBinary .pool (.known .add) (some total) (some term)) (t₁.writeRoot poly none)
        (newBinary .pool (.known .add) (some (ρ₂ total)) (some (ρ₂ term))) s₂
        fun r r' ρ' F' t' => Minted t₁.nodes.size ρ' F' t' r r' := by
      refine Twins.concur_newBinary h₂ .pool (.known .add) ?_ ?_ ?_
      · rintro _ ⟨⟩
        exact hlive total hr
      · rintro _ ⟨⟩
        exact hnew.mem
      · rintro x (hx | ⟨⟨⟩⟩ | ⟨⟨⟩⟩)
        · exact .inr (Nat.le_trans ho.size hx)
        · exact .inl htotal
        · exact .inr hnew.fresh
    have hplaced : poly.place < (t₁.writeRoot poly none).roots.size := by
      rw [writeRoot, Array.size_setIfInBounds]
      exact Nat.lt_of_lt_of_le hp.placed ho.places
    refine ConcurOr.bind ((hsum.noting.within ?_).weaken (fun _ _ _ _ _ => id) ?_) ?_
    · exact ⟨fun _ => False.elim, fun _ => id, fun _ => False.elim⟩
    · rintro ρ₃ F₃ t₃ ⟨-, s₃, ho₃⟩
      exact rooted_of_none ((ho₃.roots poly hplaced id).trans hcut)
    rintro sum _ ρ₃ F₃ t₃ s₃ ⟨h₃, -⟩ - ⟨hm, s₄, ho₃⟩
    refine concur_plantRoot h₃ ⟨hm.same, hm.mem, hm.parentless, ?_⟩ ((ho₃.roots poly hplaced id).trans hcut)
    exact Nat.le_trans ho.size hm.fresh

omit [Scalar κ] in
theorem adding_within (hp : Opened n m poly poly F t) (h : Twins ρ F t s) (hn : n ≤ t.nodes.size) :
    (adding t poly).Within (.beyond n m) := by
  refine ⟨fun _ => False.elim, ?_, ?_⟩
  · rintro x (hx | hx)
    · exact hp.fresh x hx x (h.bears.mem_postOrder_self (hp.root x hx).1)
    · exact Nat.le_trans hn hx
  · rintro _ rfl
    exact hp.beyond

omit [Scalar κ] in
/-- While a term is added, a build is midway. All that hangs at nodes made by the build was made by it, since
it never changed a link of another node. -/
theorem Midway.added {ρ₀ : Ref → Ref} {F₀ : Forest κ} {t₀ s₀ : Store κ}
    (hm : Midway t₀.nodes.size m d poly F t) (h : Twins ρ F t s) (h₀ : Twins ρ₀ F₀ t₀ s₀)
    (hbase : Onward (.beyond t₀.nodes.size m) ρ₀ F₀ t₀ ρ F t s) (ho : Onward (adding t poly) ρ F t ρ' F' t' s')
    (hr : Rooted t poly F' t') : Midway t₀.nodes.size m d poly F' t' := by
  have hlost := adding_within hm.polynomial h hbase.size
  have hroot : t'.root? d = t.root? d :=
    ho.roots d hm.derivative.placed fun he => hm.beside.differ he.symm
  refine ⟨?_, ⟨rfl, hm.polynomial.beyond, Nat.lt_of_lt_of_le hm.polynomial.placed ho.places,
    fun r hpr => (hr r hpr).1, fun r hpr => ?_⟩, hm.beside.differ, fun r hpr hdr => ?_⟩
  · refine hm.derivative.kept h ho (fun he => hm.beside.differ he.symm) fun r hdr y hy => ⟨id, ?_⟩
    obtain ⟨hrF, hrp⟩ := hm.derivative.root r hdr
    rintro (hy' | hy')
    · obtain ⟨hyF, hyp⟩ := hm.polynomial.root y hy'
      refine h.bears.disjoint_postOrder hrF hrp hyF hyp ?_ hy (h.bears.mem_postOrder_self hyF)
      rintro rfl
      exact hm.beside.apart r hy' hdr
    · exact absurd (h.lt_size (h.bears.subset_postOrder hrF hy)) (Nat.not_lt.mpr hy')
  · refine (hbase.trans (ho.mono hlost)).fresh h₀ (fun x hx => Nat.not_le.mpr hx) (hr r hpr).1.1 ?_
    rcases (hr r hpr).2 with hold | hnew
    · exact hm.polynomial.fresh r hold r (h.bears.mem_postOrder_self (hm.polynomial.root r hold).1)
    · exact Nat.le_trans hbase.size hnew
  · rw [hroot] at hdr
    rcases (hr r hpr).2 with hold | hnew
    · exact hm.beside.apart r hold hdr
    · exact absurd (h.lt_size (hm.derivative.root r hdr).1) (Nat.not_lt.mpr hnew)

/-! ## The rounds -/

variable [Literal κ]

/-- **The next derivative**, or the one before if it cannot be made. -/
theorem concur_derivativeOf (h : Abreast ρ F w w') (hn : n ≤ w.store.nodes.size) (hm : m ≤ w.store.roots.size)
    (hd : Midway n m d poly F w.store) (k : Nat) :
    ConcurOr (.beyond n m) ρ F (plan.derivativeOf k d) w (plan.derivativeOf k d) w'
      (fun d₁ d₂ _ F' t' => d₂ = d₁ ∧ Midway n m d₁ poly F' t') fun _ F' t' => Midway n m d poly F' t' := by
  unfold derivativeOf
  split
  · exact h.concur_pure ⟨rfl, hd⟩
  · unfold advance
    have hderived := (Work.concur_deriveExpression h plan.argument
      (if plan.simplifies then some plan.simplifier else none) fun r hr => (hd.derivative.root r hr).1).noting
    refine ((hderived.within (Effect.beyond_within hn hm)).weaken (fun _ _ _ _ _ => id) ?_).bind ?_
    · rintro ρ₁ F₁ t₁ ⟨-, s₁, ho⟩
      exact hd.stays h.twins ho
    rintro next next' ρ₁ F₁ v₁ v₁' h₁ - ⟨hopen, s₁, ho⟩
    obtain rfl := hopen.same
    have hd₁ := hd.stays h.twins ho
    have hbeside : Beside v₁.store next' d :=
      hopen.beside h₁.twins hd.derivative.placed (hd.derivative.below h.twins ho)
    have hbeside' : Beside v₁.store next' poly :=
      hopen.beside h₁.twins hd.polynomial.placed (hd.polynomial.below h.twins ho)
    have hgiven := (Work.concur_onStore h₁ (hd₁.derivative.concur_release
      (Q := fun _ F' t' => Midway n m d poly F' t') h₁.twins)).noting
    refine ((hgiven.within hd₁.derivative.giving_within).weaken (fun _ _ _ _ _ => id) fun _ _ _ => And.left).bind ?_
    rintro - - ρ₂ F₂ v₂ v₂' h₂ - ⟨-, s₂, ho₂⟩
    refine Work.concur_look (Work.concur_note fun j j' => (h₂.noted j j').concur_pure ⟨rfl, ?_⟩)
    refine ⟨(hopen.kept_of_giving hd₁.derivative hbeside h₁.twins ho₂).mono hn hm,
      hd₁.polynomial.kept_of_giving hd₁.derivative hd₁.beside h₁.twins ho₂, ?_⟩
    exact hbeside'.symm.onward ho₂ ⟨hd₁.polynomial.placed, hd₁.beside.differ⟩ ⟨hopen.placed, hbeside.differ⟩

/-- **The rounds of a build.** -/
theorem concur_expand {ρ₀ : Ref → Ref} {F₀ : Forest κ} {t₀ s₀ : Store κ} {Q : (Ref → Ref) → Forest κ → Store κ → Prop}
    (h₀ : Twins ρ₀ F₀ t₀ s₀) (rounds k : Nat) (factorial : κ) (terms : List (TaylorTerm κ)) (h : Abreast ρ F w w')
    (hbase : Onward (.beyond t₀.nodes.size m) ρ₀ F₀ t₀ ρ F w.store w'.store) (hm : m ≤ w.store.roots.size)
    (hd : Midway t₀.nodes.size m d poly F w.store) :
    ConcurOr (.beyond t₀.nodes.size m) ρ F (plan.expand poly rounds k factorial d terms) w
      (plan.expand poly rounds k factorial d terms) w'
      (fun p p' _ F' t' => p' = p ∧ Midway t₀.nodes.size m p.derivative poly F' t') Q := by
  induction rounds generalizing k factorial terms ρ F w w' d with
  | zero => exact h.concur_pure ⟨rfl, hd⟩
  | succ rounds ih =>
    unfold expand
    refine (plan.concur_derivativeOf h hbase.size hm hd k).attempt.bind ?_
    rintro _ _ ρ₁ F₁ v₁ v₁' h₁ o₁ (⟨_, d₁, rfl, rfl, rfl, hd₁⟩ | ⟨f, rfl, rfl, hd₁⟩)
    case inr => exact h₁.concur_pure ⟨rfl, hd₁⟩
    have hlive : ∀ r, v₁.store.root? d₁ = some r → r ∈ F₁.refs := fun r hr => (hd₁.derivative.root r hr).1
    have hroot : v₁'.store.root? d₁ = (v₁.store.root? d₁).map ρ₁ := h₁.twins.roots d₁ hlive
    dsimp only
    refine Work.concur_look ?_
    rw [hroot]
    have hn₁ := Nat.le_trans hbase.size o₁.size
    have hm₁ := Nat.le_trans hm o₁.places
    have hvalue := (Work.concur_evaluate (E := .beyond v₁.store.nodes.size v₁.store.roots.size) h₁
      (plan.bindings.bind plan.argument plan.point) hlive).noting.within (Effect.beyond_within hn₁ hm₁)
    refine hvalue.attempt.bind ?_
    rintro _ _ ρ₂ F₂ v₂ v₂' h₂ o₂ (⟨value, _, rfl, rfl, rfl, s₂, hsame⟩ | ⟨f, rfl, rfl, -, s₂, hsame⟩)
    case inr => exact h₂.concur_pure ⟨rfl, hd₁.stays h₁.twins hsame⟩
    have hd₂ := hd₁.stays h₁.twins hsame
    dsimp only
    refine Work.concur_noteIf fun j j' => ?_
    have hbase₂ := (hbase.trans o₁).trans o₂
    have hadded := Work.concur_onStore (h₂.noted j j') (plan.concur_addTerm hd₂.polynomial h₂.twins k
      (Scalar.div value (if k = 0 then factorial else Scalar.mul factorial (Coefficient.ofNat k)))).noting
    refine ((hadded.within (adding_within hd₂.polynomial h₂.twins hbase₂.size)).weaken
      (fun _ _ _ _ _ hr => hr.2.elim fun _ ho => hd₂.added h₂.twins h₀ hbase₂ ho hr.1)
      (fun _ _ _ hr => hr.2.elim fun _ ho => hd₂.added h₂.twins h₀ hbase₂ ho hr.1)).attempt.bind ?_
    rintro _ _ ρ₃ F₃ v₃ v₃' h₃ o₃ (⟨_, _, rfl, rfl, hd₃⟩ | ⟨f, rfl, rfl, hd₃⟩)
    · exact ih (k + 1) _ _ h₃ (hbase₂.trans o₃) (Nat.le_trans hm₁ (Nat.le_trans o₂.places o₃.places)) hd₃
    · exact h₃.concur_pure ⟨rfl, hd₃⟩

/-- Finishing a polynomial. -/
theorem concur_finish (h : Abreast ρ F w w') (hn : n ≤ w.store.nodes.size) (ho : Opened n m poly poly F w.store) :
    Concur (.beyond n m) ρ F (plan.finish poly) w (plan.finish poly) w' fun e e' _ F' t' =>
      e = poly ∧ e' = poly ∧ Opened n m poly poly F' t' := by
  unfold finish
  refine (plan.simplifier.concur_runOpened h hn ho).discard.bind ?_
  rintro - - ρ₁ F₁ v₁ v₁' h₁ - ⟨-, -, ho₁⟩
  exact Work.concur_look (Work.concur_note fun j j' => (h₁.noted j j').concur_pure ⟨rfl, rfl, ho₁⟩)

omit [Scalar κ] [Literal κ] in
/-- Giving back the derivative at hand is the last that a build does when it is refused. -/
theorem concur_refuse {α : Type} {a : α} (h : Abreast ρ F w w') (hd : Opened n m d d F w.store) :
    Concur (.beyond n m) ρ F (do Work.onStore (releaseExpression d); pure a) w
      (do Work.onStore (releaseExpression d); pure a) w' fun b b' _ _ _ => b' = b ∧ b = a :=
  ((Work.concur_onStore h (hd.concur_release h.twins)).within hd.giving_within).bind
    fun _ _ _ _ _ _ h₁ _ _ => h₁.concur_pure ⟨rfl, rfl⟩

/-- **Building a polynomial**, or giving up. -/
theorem concur_build (h : Abreast ρ F w w') (hlive : ∀ r, w.store.root? e = some r → r ∈ F.refs) :
    Concur (.beyond w.store.nodes.size w.store.roots.size) ρ F (plan.build e) w (plan.build e) w'
      fun result result' _ F' t' => result' = result ∧ ∀ poly, result.outcome = .ok poly →
        Opened w.store.nodes.size w.store.roots.size poly poly F' t' := by
  have hroot : w'.store.root? e = (w.store.root? e).map ρ := h.twins.roots e hlive
  unfold build
  refine Work.concur_look ?_
  rw [hroot]
  cases w.store.root? e with
  | none => exact h.concur_pure ⟨rfl, nofun⟩
  | some r =>
    have hcopied := Work.concur_onStore h (Twins.concur_copyExpression h.twins hlive
      (E := .beyond w.store.nodes.size w.store.roots.size))
    refine hcopied.attempt.bind ?_
    rintro _ _ ρ₁ F₁ v₁ v₁' h₁ o₁ (⟨_, d, rfl, rfl, hopen⟩ | ⟨f, rfl, rfl, -⟩)
    case inr => exact h₁.concur_pure ⟨rfl, nofun⟩
    obtain rfl := hopen.same
    dsimp only
    have hnone : Grown v₁.store.nodes.size ρ₁ F₁ v₁.store none none := ⟨rfl, nofun, nofun⟩
    have hmade := (Work.concur_onStore h₁ (Twins.concur_open (E := .beyond v₁.store.nodes.size v₁.store.roots.size)
      h₁.twins (Nat.le_refl _) hnone)).noting.within (Effect.beyond_within o₁.size o₁.places)
    refine (hmade.mono fun _ _ _ _ _ => id).bind ?_
    rintro _ poly ρ₂ F₂ v₂ v₂' h₂ o₂ ⟨hpoly, s₂, ho⟩
    obtain rfl := hpoly.same
    have hd : Midway w.store.nodes.size w.store.roots.size d poly F₂ v₂.store :=
      ⟨hopen.stays h₁.twins ho (Nat.le_refl _) (Nat.le_refl _), hpoly.mono o₁.size o₁.places,
        hpoly.beside h₂.twins hopen.placed (hopen.below h₁.twins ho)⟩
    have hbase := o₁.trans o₂
    refine (plan.concur_expand h.twins (plan.order + 1) 0 Scalar.one [] h₂ hbase hbase.places hd).bind ?_
    rintro _ progress ρ₃ F₃ v₃ v₃' h₃ o₃ ⟨rfl, hd₃⟩
    cases progress.outcome with
    | error f =>
      dsimp only
      split
      · have hgiven := (Work.concur_onStore h₃ (hd₃.polynomial.concur_release (Q := fun _ _ _ => True)
          h₃.twins)).noting.within hd₃.polynomial.giving_within
        refine (hgiven.mono fun _ _ _ _ _ => id).bind ?_
        rintro - - ρ₄ F₄ v₄ v₄' h₄ - ⟨-, s₄, ho₄⟩
        have hd₄ := hd₃.derivative.kept_of_giving hd₃.polynomial hd₃.beside.symm h₃.twins ho₄
        exact (concur_refuse h₄ hd₄).mono fun _ _ _ _ _ ⟨hb, ha⟩ => ⟨hb, ha ▸ nofun⟩
      · exact (concur_refuse h₃ hd₃.derivative).mono fun _ _ _ _ _ ⟨hb, ha⟩ => ⟨hb, ha ▸ nofun⟩
    | ok =>
      have hgiven := (Work.concur_onStore h₃ (hd₃.derivative.concur_release (Q := fun _ _ _ => True)
        h₃.twins)).noting.within hd₃.derivative.giving_within
      refine (hgiven.mono fun _ _ _ _ _ => id).bind ?_
      rintro - - ρ₄ F₄ v₄ v₄' h₄ o₄ ⟨-, s₄, ho₄⟩
      have hp₄ := hd₃.polynomial.kept_of_giving hd₃.derivative hd₃.beside h₃.twins ho₄
      refine (plan.concur_finish h₄ ((hbase.trans o₃).trans o₄).size hp₄).attempt.bind ?_
      rintro _ _ ρ₅ F₅ v₅ v₅' h₅ - (⟨_, _, rfl, rfl, rfl, rfl, hp₅⟩ | ⟨f, rfl, rfl, -⟩)
      · refine h₅.concur_pure ⟨rfl, ?_⟩
        rintro _ ⟨⟩
        exact hp₅
      · exact h₅.concur_pure ⟨rfl, nofun⟩

end TaylorPlan

end Fluxion
