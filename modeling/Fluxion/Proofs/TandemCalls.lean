import Fluxion.Proofs.Expansion
import Fluxion.Proofs.Reading
import Fluxion.Proofs.TandemPasses

/-!
# Calls that concur

The calls of the library concur on twins: reading, making derivatives and evaluating. Each of them works on
nodes that it makes itself, so that whatever it gives back on the way is nothing that was there before.

* `Work.concur_readFormula` and `Work.concur_readPolish` read.
* `Work.concur_derive` makes a derivative, `Work.concur_differentiate` goes through the orders.
* `Work.concur_evaluate` evaluates.
-/

namespace Fluxion

open Act Store

/-- The journal does not count. -/
theorem Abreast.noted {κ : Type} {ρ : Ref → Ref} {F : Forest κ} {w w' : Workspace κ} (h : Abreast ρ F w w') (journal journal' : Journal) :
    Abreast ρ F (⟨w.store, journal, w.warnings⟩ : Workspace κ) ⟨w'.store, journal', w'.warnings⟩ :=
  ⟨h.twins, h.said⟩

namespace Work

variable {κ α β γ δ : Type} {E : Effect} {ρ : Ref → Ref} {F : Forest κ} {w w' : Workspace κ} {e e' : Expression}
  {n m : Nat}

/-! ## Works -/

section Works

variable {P : α → β → (Ref → Ref) → Forest κ → Store κ → Prop} {Q : (Ref → Ref) → Forest κ → Store κ → Prop}

/-- What acts on stores do, they do in the workspaces. -/
theorem concur_onStore {act : Act (Store κ) α} {act' : Act (Store κ) β} (h : Abreast ρ F w w')
    (hc : ConcurOr E ρ F act w.store act' w'.store P Q) :
    ConcurOr E ρ F (onStore act) w (onStore act') w' P Q := by
  obtain ⟨a, b, t, t', hr, hr', ρ', F', ho, -, hp⟩ | ⟨f, t, t', hr, hr', ρ', F', ho, -, hq⟩ := Tandem.cases hc
  · exact tandem_of_ok (perform_onStore hr) (perform_onStore hr') ⟨ρ', F', ho, h.said, hp⟩
  · exact tandem_of_error (perform_onStore hr) (perform_onStore hr') ⟨ρ', F', ho, h.said, hq⟩

/-- Works that first read the store. -/
theorem concur_look {f : Store κ → γ} {f' : Store κ → δ} {next : γ → Work κ α} {next' : δ → Work κ β}
    (h : ConcurOr E ρ F (next (f w.store)) w (next' (f' w'.store)) w' P Q) :
    ConcurOr E ρ F (look f >>= next) w (look f' >>= next') w' P Q := h

/-- Works that first note something, whatever it is. -/
theorem concur_note {entry entry' : Entry} {next : Unit → Work κ α} {next' : Unit → Work κ β}
    (h : ∀ journal journal', ConcurOr E ρ F (next ()) ⟨w.store, journal, w.warnings⟩ (next' ())
      ⟨w'.store, journal', w'.warnings⟩ P Q) :
    ConcurOr E ρ F (note entry >>= next) w (note entry' >>= next') w' P Q :=
  h (w.journal.note entry) (w'.journal.note entry')

/-- Works that may note something first. -/
theorem concur_noteIf {c : Bool} {entry : Entry} {next : Unit → Work κ α} {next' : Unit → Work κ β}
    (h : ∀ journal journal', ConcurOr E ρ F (next ()) ⟨w.store, journal, w.warnings⟩ (next' ())
      ⟨w'.store, journal', w'.warnings⟩ P Q) :
    ConcurOr E ρ F (if c = true then note entry >>= next else next ()) w
      (if c = true then note entry >>= next' else next' ()) w' P Q := by
  cases c with
  | false => exact h w.journal w'.journal
  | true => exact concur_note h

end Works

/-! ## Reading -/

/-- **Making what a computation gives.** Where it gives a tree, the tree is made on both sides, and where
it fails, nothing is left of what was made on the way. -/
theorem concur_making {t s : Store κ} {act : Act (Store κ) α} {x : Except Fault (Tree κ)} {slot : α → Option Ref}
    (h : Twins ρ F t s)
    (hact : ∀ {u : Store κ} {b : Int} {used : List Ref}, u.Accounted b used →
      act.Follows u x (fun a tree v => BuiltAt b used u (slot a) tree v) (Undone b used u))
    (hx : ∀ tree, x = .ok tree → tree.isSpelled = true) :
    Concur E ρ F act t act s fun a a' ρ' F' t' => Grown t.nodes.size ρ' F' t' (slot a) (slot a') := by
  refine Ensures.tandem (hact h.idle.apart.accounted) (hact h.apart.accounted) ?_ ?_ ?_ ?_
  · rintro a a' t' s' ⟨tree, rfl, p, hp, rfl, hb⟩ ⟨tree', htree, q, hq, hqt, hb'⟩
    have hsame : p.tree = q.tree := (Except.ok.inj htree).trans hqt.symm
    obtain ⟨ρ', ho, hg⟩ :=
      h.grown (E := E) hb.toMade (h.idle.self.built hb) hb'.toMade hsame (hx _ rfl)
    rw [hp, hq] at hg
    exact ⟨ρ', _, ho, rfl, hg⟩
  · rintro f f' t' s' ⟨hf, hu⟩ ⟨hf', hu'⟩
    refine ⟨Except.error.inj (hf.symm.trans hf'), ρ, F, ?_, rfl, trivial⟩
    exact h.untouched (h.idle.self.undone hu) hu.kept hu'.kept hu'.accounted.toApart
  · rintro _ f _ _ ⟨_, hok, -⟩ ⟨herr, -⟩
    cases hok.symm.trans herr
  · rintro f _ _ _ ⟨herr, -⟩ ⟨_, hok, -⟩
    cases hok.symm.trans herr

/-- Reading in the workspaces, with what does not read noted. -/
theorem concur_reading {act : Act (Store κ) α} {P : α → α → (Ref → Ref) → Forest κ → Store κ → Prop} (lead : String)
    (h : Abreast ρ F w w') (hc : Concur E ρ F act w.store act w'.store P) :
    Concur E ρ F (reading lead act) w (reading lead act) w' P := by
  unfold reading onMalformed
  refine (concur_onStore h hc).attempt.bind ?_
  rintro _ _ ρ₁ F₁ v v' hv - (⟨a, a', rfl, rfl, hp⟩ | ⟨f, rfl, rfl, -⟩)
  · exact hv.concur_pure hp
  · cases f with
    | malformed c p text => exact concur_note fun j j' => (hv.noted j j').concur_throw trivial
    | _ => exact hv.concur_throw trivial

variable [Literal κ]

/-- **Reading a formula.** -/
theorem concur_readFormula (h : Abreast ρ F w w') (limit : Int) (text : String) :
    Concur E ρ F (readFormula limit text) w (readFormula limit text) w'
      fun e e' _ F' t' => Opened w.store.nodes.size w.store.roots.size e e' F' t' := by
  have hmade := concur_making (E := E) h.twins (fun hu => Formula.read_follows text limit hu) fun tree htree => by
    cases hp : (Formula.parse limit text.toList : Except Formula.Failure (Tree κ)) with
    | error failure => cases hp ▸ htree
    | ok t =>
      cases hp ▸ htree
      exact ((Tree.isWellFormed_iff _).mp (Formula.isWellFormed_of_parse hp)).2
  unfold readFormula
  refine (concur_reading _ h hmade).bind ?_
  rintro r r' ρ₁ F₁ v v' hv ho hr
  exact concur_look (concur_note fun j j' =>
    concur_onStore (hv.noted j j') (Twins.concur_open hv.twins ho.places hr))

/-- **Reading a text in Polish notation.** -/
theorem concur_readPolish (h : Abreast ρ F w w') (text : String) :
    Concur E ρ F (readPolish text) w (readPolish text) w'
      fun e e' _ F' t' => Opened w.store.nodes.size w.store.roots.size e e' F' t' := by
  have hmade := concur_making (E := E) h.twins (fun hu => Polish.read_follows text hu) fun tree htree => by
    cases hp : (Polish.parse text.toList : Except Polish.Failure (Tree κ)) with
    | error failure => cases hp ▸ htree
    | ok t =>
      cases hp ▸ htree
      exact (Polish.valid_of_parse hp).isSpelled
  unfold readPolish
  refine (concur_reading _ h hmade).bind ?_
  rintro r r' ρ₁ F₁ v v' hv ho hr
  exact concur_onStore hv (Twins.concur_open hv.twins ho.places hr)

omit [Literal κ]

/-! ## Derivatives -/

/-- Where all names are letters, only an operator without a rule is refused. -/
theorem Refused.noRule_of {b : Int} {used : List Ref} {unknown : Operator → Prop} {spelled : Bool} {s t : Store κ}
    {f : Fault} (h : Refused b used unknown (spelled = false) s f t) (hs : spelled = true) :
    ∃ op, f = .unknownOperation op ∧ unknown op ∧ t.Accounted b used ∧ Kept used s t := by
  cases h with
  | noRule hop ha hk => exact ⟨_, rfl, hop, ha, hk⟩
  | stopped hm => cases hm.symm.trans hs

/-- What stands at a node, or nothing, stands under other names on the other side. -/
theorem exists_standing {t s : Store κ} {r : Option Ref} (h : Twins ρ F t s) (hr : ∀ x, r = some x → x ∈ F.refs) :
    ∃ (p : Planted κ) (parent : Option Ref), p.ref? = r ∧ p.Stands t F.refs parent ∧ p.tree.isSpelled = true ∧
      (p.rename ρ).Stands s (F.refs.map ρ) (parent.map ρ) := by
  cases r with
  | none =>
    have hnone : ∀ {u : Store κ} {used : List Ref}, Planted.Stands u used none (.absent : Planted κ) :=
      ⟨trivial, List.nil_subset _, List.nodup_nil⟩
    exact ⟨.absent, none, rfl, hnone, rfl, hnone⟩
  | some x =>
    obtain ⟨p, hp, hstands, hsp, hstands'⟩ := h.exists_stands (hr x rfl)
    exact ⟨p, _, hp, hstands, hsp, hstands'⟩

section Derivatives

variable [Coefficient κ]

/-- **Making a derivative.** -/
theorem concur_derive {r : Option Ref} (h : Abreast ρ F w w') (v : Name) (hr : ∀ x, r = some x → x ∈ F.refs) :
    Concur E ρ F (derive v r) w (derive v (r.map ρ)) w'
      fun d d' ρ' F' t' => Grown w.store.nodes.size ρ' F' t' d d' := by
  obtain ⟨p, parent, rfl, hstands, hsp, hstands'⟩ := exists_standing h.twins hr
  have hidle : w.store.Idle w.store.nodes.size := Idle.self h.twins.idle
  have hwide : p.Stands w.store (List.range w.store.nodes.size) parent :=
    hstands.mono fun y hy => List.mem_range.mpr (h.twins.lt_size hy)
  have hsp' : (p.rename ρ).tree.isSpelled = true := (Planted.tree_rename ρ p).symm ▸ hsp
  have hleft := ((derive_spec (v := v) hwide hidle.apart.accounted).preserves ((outlasts_idle _).derive v _) hidle).preserves
    ((outlasts_warnings w.warnings).derive v _) rfl
  have hright := Ensures.preserves (derive_spec (v := v) hstands' h.twins.apart.accounted)
    ((outlasts_warnings w'.warnings).derive v _) rfl
  rw [Planted.tree_rename] at hright
  rw [← Planted.ref?_rename]
  refine Ensures.tandem hleft hright ?_ ?_ ?_ ?_
  · rintro _ _ u u' ⟨⟨⟨q, hq, rfl, hspq, hm⟩, hi⟩, hw⟩ ⟨⟨q', hq', rfl, -, hm'⟩, hw'⟩
    rw [Planted.tree_rename] at hq'
    obtain ⟨ρ', ho, hg⟩ := h.twins.grown (E := E) hm hi hm' (Except.ok.inj (hq.symm.trans hq')) hspq
    exact ⟨ρ', _, ho, hw.trans (h.said.trans hw'.symm), hg⟩
  · rintro f f' u u' ⟨⟨hf, hi⟩, hw⟩ ⟨hf', hw'⟩
    obtain ⟨op, rfl, hop, -, hk⟩ := hf.noRule_of hsp
    obtain ⟨op', rfl, hop', ha, hk'⟩ := hf'.noRule_of hsp
    obtain rfl : op = op' := Except.error.inj (hop.symm.trans hop')
    exact ⟨rfl, ρ, F, h.twins.untouched hi hk hk' ha.toApart, hw.trans (h.said.trans hw'.symm), trivial⟩
  · rintro _ f u u' ⟨⟨⟨q, hq, -⟩, -⟩, -⟩ ⟨hf', -⟩
    obtain ⟨op', -, hop', -⟩ := hf'.noRule_of hsp
    cases hq.symm.trans hop'
  · rintro f _ u u' ⟨⟨hf, -⟩, -⟩ ⟨⟨q', hq', -⟩, -⟩
    rw [Planted.tree_rename] at hq'
    obtain ⟨op, -, hop, -⟩ := hf.noRule_of hsp
    cases hop.symm.trans hq'

end Derivatives

variable [Scalar κ] [Literal κ]

/-- **The derivative of an expression.** -/
theorem concur_deriveExpression (h : Abreast ρ F w w') (v : Name) (simplifier : Option (Simplifier κ))
    (hlive : ∀ r, w.store.root? e = some r → r ∈ F.refs) :
    Concur (.beyond w.store.nodes.size w.store.roots.size) ρ F (deriveExpression v simplifier e) w
      (deriveExpression v simplifier e) w' fun e₁ e₂ _ F' t' =>
        Opened w.store.nodes.size w.store.roots.size e₁ e₂ F' t' := by
  have hroots : w'.store.root? e = (w.store.root? e).map ρ := h.twins.roots e hlive
  unfold deriveExpression
  refine concur_look ?_
  rw [hroots]
  refine (concur_derive h v hlive).bind ?_
  rintro d d' ρ₁ F₁ v₁ v₁' h₁ ho hd
  refine (concur_onStore h₁ (Twins.concur_open h₁.twins ho.places hd)).bind ?_
  rintro e₁ e₂ ρ₂ F₂ v₂ v₂' h₂ ho₂ hopen
  cases simplifier with
  | none => exact h₂.concur_pure hopen
  | some σ =>
    refine (σ.concur_runOpened h₂ (Nat.le_trans ho.size ho₂.size) hopen).discard.bind ?_
    rintro - - ρ₃ F₃ v₃ v₃' h₃ - ⟨-, -, hopen₃⟩
    exact h₃.concur_pure hopen₃

omit [Scalar κ] [Literal κ] in
/-- Giving an expression back, if it is asked for, leaves alone what is beside it. -/
theorem concur_releaseIf {Q : (Ref → Ref) → Forest κ → Store κ → Prop} (owned : Bool) (h : Abreast ρ F w w')
    (howned : owned = true → Opened n m e e F w.store) :
    ConcurOr (.beyond n m) ρ F (releaseIf owned e) w (releaseIf owned e) w' (fun _ _ _ F' t' =>
      ∀ (k l : Nat) (d d' : Expression), Opened k l d d' F w.store →
        (owned = true → Beside w.store d e) → Opened k l d d' F' t') Q := by
  cases owned with
  | false => exact h.concur_pure fun _ _ _ _ hd _ => hd
  | true =>
    have he := howned rfl
    have hgiven := (concur_onStore h (he.concur_release (Q := Q) h.twins)).noting.within he.giving_within
    refine hgiven.weaken ?_ fun _ _ _ => And.left
    rintro - - ρ₁ F₁ t₁ ⟨-, s₁, ho⟩ k l d d' hd hb
    exact hd.kept_of_giving he (hb rfl) h.twins ho

/-- **Derivatives, one from the other.** The source is an expression that was made before if it is to be
given back. -/
theorem concur_furtherDerivatives (v : Name) (simplifier : Option (Simplifier κ)) (count k : Nat) (owned : Bool)
    (h : Abreast ρ F w w') (hn : n ≤ w.store.nodes.size) (hm : m ≤ w.store.roots.size)
    (hlive : ∀ r, w.store.root? e = some r → r ∈ F.refs)
    (howned : owned = true → Opened n m e e F w.store) :
    Concur (.beyond n m) ρ F (furtherDerivatives v simplifier count k owned e) w
      (furtherDerivatives v simplifier count k owned e) w' fun d d' _ F' t' =>
        owned = true ∨ 0 < count → Opened n m d d' F' t' := by
  induction count generalizing ρ F w w' e k owned with
  | zero => exact h.concur_pure fun ho => howned (ho.resolve_right (Nat.lt_irrefl 0))
  | succ count ih =>
    unfold furtherDerivatives
    have hstill : ∀ {ρ₁ : Ref → Ref} {F₁ : Forest κ} {t₁ s₁ : Store κ},
        Onward (.beyond w.store.nodes.size w.store.roots.size) ρ F w.store ρ₁ F₁ t₁ s₁ → owned = true →
          Opened n m e e F₁ t₁ := fun ho hown =>
      (howned hown).stays h.twins ho (Nat.le_refl _) (Nat.le_refl _)
    have hderived := (concur_deriveExpression h v simplifier hlive).noting.within (Effect.beyond_within hn hm)
    refine hderived.attempt.bind ?_
    rintro _ _ ρ₁ F₁ v₁ v₁' h₁ ho₁ (⟨d, d', rfl, rfl, hopen, s₁, hnew⟩ | ⟨f, rfl, rfl, -, s₁, hnew⟩)
    · obtain rfl := hopen.same
      simp only [pure_bind]
      refine (concur_releaseIf owned h₁ (hstill hnew)).bind ?_
      rintro - - ρ₂ F₂ v₂ v₂' h₂ ho₂ hkept
      refine concur_look (concur_note fun j j' => ?_)
      have hopened : Opened n m d' d' F₂ v₂.store := (hkept _ _ d' d' hopen fun hown =>
        hopen.beside h₁.twins (howned hown).placed ((howned hown).below h.twins hnew)).mono hn hm
      refine (ih (k + 1) true (h₂.noted j j') (Nat.le_trans hn (Nat.le_trans ho₁.size ho₂.size))
        (Nat.le_trans hm (Nat.le_trans ho₁.places ho₂.places)) (fun r hr => (hopened.root r hr).1)
        fun _ => hopened).mono ?_
      exact fun _ _ _ _ _ hd _ => hd (.inl rfl)
    · cases f with
      | unknownOperation op =>
        exact (concur_releaseIf owned h₁ (hstill hnew)).bind fun _ _ _ _ _ _ h₂ _ _ => h₂.concur_throw trivial
      | _ => exact h₁.concur_throw trivial

/-- **The derivative of any order.** -/
theorem concur_differentiate (h : Abreast ρ F w w') (v : Name) (order : Int)
    (simplifier : Option (Simplifier κ)) (hlive : ∀ r, w.store.root? e = some r → r ∈ F.refs) :
    Concur (.beyond w.store.nodes.size w.store.roots.size) ρ F (differentiate e v order simplifier) w
      (differentiate e v order simplifier) w' fun d d' _ F' t' =>
        Opened w.store.nodes.size w.store.roots.size d d' F' t' := by
  have hroot : w'.store.root? e = (w.store.root? e).map ρ := h.twins.roots e hlive
  have hcopy := concur_onStore h (Twins.concur_copyExpression h.twins hlive
    (E := .beyond w.store.nodes.size w.store.roots.size))
  unfold differentiate
  split
  · exact h.concur_throw trivial
  · refine concur_look ?_
    rw [hroot]
    cases order.toNat with
    | zero => exact hcopy
    | succ count =>
      cases w.store.root? e with
      | none => exact hcopy
      | some r =>
        have hfurther := concur_furtherDerivatives v simplifier (count + 1) 1 false h (Nat.le_refl _)
          (Nat.le_refl _) hlive nofun
        refine hfurther.bind ?_
        rintro d d' ρ₁ F₁ v₁ v₁' h₁ - hd
        have hopen := hd (.inr (Nat.succ_pos count))
        exact concur_look (concur_note fun j j' => (h₁.noted j j').concur_pure hopen)

/-! ## Evaluating -/

omit [Scalar κ] [Literal κ] in
/-- Trees that read the same conclude the same. -/
theorem concur_conclude (h : Abreast ρ F w w') (r : Except Fault α) :
    Concur E ρ F (conclude r) w (conclude r) w' fun a a' _ _ _ => a = a' := by
  unfold conclude
  cases r with
  | ok a => exact h.concur_pure rfl
  | error f =>
    have hnote : Concur E ρ F (noteEvaluation f : Work κ Unit) w (noteEvaluation f) w' fun _ _ _ _ _ => True := by
      unfold noteEvaluation
      cases evaluationEntry? f with
      | none => exact h.concur_pure trivial
      | some entry => exact tandem_of_ok rfl rfl ⟨ρ, F, h.twins.onward, h.said, trivial⟩
    exact hnote.bind fun _ _ _ _ _ _ h₁ _ _ => h₁.concur_throw trivial

omit [Literal κ] in
/-- **Evaluating.** -/
theorem concur_evaluate {r : Option Ref} (h : Abreast ρ F w w') (σ : Valuation κ)
    (hr : ∀ x, r = some x → x ∈ F.refs) :
    Concur E ρ F (evaluate σ r) w (evaluate σ (r.map ρ)) w' fun a a' _ _ _ => a = a' := by
  have htree : w'.store.tree (r.map ρ) = w.store.tree r := h.twins.tree_map hr
  unfold evaluate
  refine concur_look ?_
  rw [htree]
  exact concur_conclude h _

end Work

end Fluxion
