import Fluxion.Proofs.Ensures

/-!
# Acts in tandem

Two acts run in tandem from two states when both yield a result or both are refused with the same
fault. `Act.Tandem` states what then holds of both results and both states. The rules follow the way
acts are put together, as those of `Act.Ensures` do.

* `Act.Tandem.bind` puts two pairs of acts one after the other.
* `Act.Succeeds.tandem` and `Act.Ensures.tandem` run two acts in tandem whose outcomes are known.
* `Work.perform_onStore` takes the outcome of an act on a store to a workspace.
-/

namespace Fluxion

namespace Act

variable {σ τ α β γ δ : Type}

/-- What holds after two acts that end alike: `post` of both results and both states, or, with the
same fault, `fail` of both states. -/
def Tandem (act : Act σ α) (s : σ) (act' : Act τ β) (s' : τ) (post : α → β → σ → τ → Prop)
    (fail : σ → τ → Prop) : Prop :=
  match act.perform s, act'.perform s' with
  | (.ok a, t), (.ok b, t') => post a b t t'
  | (.error f, t), (.error f', t') => f = f' ∧ fail t t'
  | _, _ => False

variable {act : Act σ α} {act' : Act τ β} {s t : σ} {s' t' : τ} {a : α} {b : β} {f : Fault}
  {next : α → Act σ γ} {next' : β → Act τ δ} {mid post : α → β → σ → τ → Prop}
  {last : γ → δ → σ → τ → Prop} {fail low : σ → τ → Prop}

theorem tandem_of_ok (h : act.perform s = (.ok a, t)) (h' : act'.perform s' = (.ok b, t'))
    (hp : post a b t t') : act.Tandem s act' s' post fail := by
  unfold Tandem
  rw [h, h']
  exact hp

theorem tandem_of_error (h : act.perform s = (.error f, t)) (h' : act'.perform s' = (.error f, t'))
    (hf : fail t t') : act.Tandem s act' s' post fail := by
  unfold Tandem
  rw [h, h']
  exact ⟨rfl, hf⟩

theorem Tandem.cases (h : act.Tandem s act' s' post fail) :
    (∃ a b t t', act.perform s = (.ok a, t) ∧ act'.perform s' = (.ok b, t') ∧ post a b t t') ∨
      ∃ f t t', act.perform s = (.error f, t) ∧ act'.perform s' = (.error f, t') ∧ fail t t' := by
  unfold Tandem at h
  split at h
  · exact .inl ⟨_, _, _, _, ‹_›, ‹_›, h⟩
  · obtain ⟨rfl, hf⟩ := h
    exact .inr ⟨_, _, _, ‹_›, ‹_›, hf⟩
  · exact h.elim

theorem Tandem.mono (h : act.Tandem s act' s' mid low)
    (hp : ∀ a b t t', mid a b t t' → post a b t t') (hf : ∀ t t', low t t' → fail t t') :
    act.Tandem s act' s' post fail := by
  obtain ⟨a, b, t, t', hr, hr', hm⟩ | ⟨f, t, t', hr, hr', hl⟩ := h.cases
  · exact tandem_of_ok hr hr' (hp _ _ _ _ hm)
  · exact tandem_of_error hr hr' (hf _ _ hl)

/-- One pair of acts after another: what the first ensures is what the second starts from. -/
theorem Tandem.bind (h : act.Tandem s act' s' mid fail)
    (hn : ∀ a b t t', mid a b t t' → (next a).Tandem t (next' b) t' last fail) :
    (act >>= next).Tandem s (act' >>= next') s' last fail := by
  obtain ⟨a, b, t, t', hr, hr', hm⟩ | ⟨f, t, t', hr, hr', hl⟩ := h.cases
  · have hnext := hn a b t t' hm
    unfold Tandem at hnext ⊢
    rw [perform_bind, perform_bind, hr, hr']
    exact hnext
  · refine tandem_of_error (f := f) ?_ ?_ hl <;> rw [perform_bind]
    · rw [hr]
    · rw [hr']

theorem tandem_pure (h : post a b s s') :
    (pure a : Act σ α).Tandem s (pure b : Act τ β) s' post fail := h

theorem tandem_throw (h : fail s s') :
    (throw f : Act σ α).Tandem s (throw f : Act τ β) s' post fail := ⟨rfl, h⟩

/-- Acts that first read the state. -/
theorem tandem_get {next : σ → Act σ α} {next' : τ → Act τ β}
    (h : (next s).Tandem s (next' s') s' post fail) :
    (get >>= next).Tandem s (get >>= next') s' post fail := h

/-- Acts that first change the state. -/
theorem tandem_modify {g : σ → σ} {g' : τ → τ} {next : Unit → Act σ α} {next' : Unit → Act τ β}
    (h : (next ()).Tandem (g s) (next' ()) (g' s') post fail) :
    (modify g >>= next).Tandem s (modify g' >>= next') s' post fail := h

/-- Two acts that succeed. -/
theorem Succeeds.tandem {left : α → σ → Prop} {right : β → τ → Prop} (h : act.Succeeds s left)
    (h' : act'.Succeeds s' right) (hp : ∀ a b t t', left a t → right b t' → post a b t t') :
    act.Tandem s act' s' post fail := by
  obtain ⟨a, t, hr, hl⟩ := h.exists
  obtain ⟨b, t', hr', hl'⟩ := h'.exists
  exact tandem_of_ok hr hr' (hp _ _ _ _ hl hl')

/-- Two acts of which it is known when they are refused. -/
theorem Ensures.tandem {left : α → σ → Prop} {right : β → τ → Prop} {low : Fault → σ → Prop}
    {low' : Fault → τ → Prop} (h : act.Ensures s left low) (h' : act'.Ensures s' right low')
    (hp : ∀ a b t t', left a t → right b t' → post a b t t')
    (hf : ∀ f f' t t', low f t → low' f' t' → f = f' ∧ fail t t')
    (hl : ∀ a f t t', left a t → low' f t' → False) (hr : ∀ f b t t', low f t → right b t' → False) :
    act.Tandem s act' s' post fail := by
  unfold Tandem
  rcases he : act.perform s with ⟨_ | a, t⟩ <;> rcases he' : act'.perform s' with ⟨_ | b, t'⟩
  · exact hf _ _ _ _ (h.of_error he) (h'.of_error he')
  · exact hr _ _ _ _ (h.of_error he) (h'.of_ok he')
  · exact hl _ _ _ _ (h.of_ok he) (h'.of_error he')
  · exact hp _ _ _ _ (h.of_ok he) (h'.of_ok he')

/-- What the first act ensures, it ensures in tandem. -/
theorem Tandem.ensures {left : α → σ → Prop} {low : Fault → σ → Prop}
    (h : act.Tandem s act' s' mid fail) (hl : act.Ensures s left low) :
    act.Tandem s act' s' (fun a b t t' => mid a b t t' ∧ left a t)
      fun t t' => fail t t' ∧ ∃ f, low f t := by
  obtain ⟨a, b, t, t', hr, hr', hm⟩ | ⟨f, t, t', hr, hr', hf⟩ := h.cases
  · exact tandem_of_ok hr hr' ⟨hm, hl.of_ok hr⟩
  · exact tandem_of_error hr hr' ⟨hf, f, hl.of_error hr⟩

/-- Refusals taken as results are the same refusals. -/
theorem Tandem.attempt (h : act.Tandem s act' s' post fail) :
    act.attempt.Tandem s act'.attempt s'
      (fun r r' t t' => (∃ a b, r = .ok a ∧ r' = .ok b ∧ post a b t t') ∨
        ∃ f, r = .error f ∧ r' = .error f ∧ fail t t') low := by
  obtain ⟨a, b, t, t', hr, hr', hm⟩ | ⟨f, t, t', hr, hr', hf⟩ := h.cases
  · refine tandem_of_ok (perform_attempt act s) (perform_attempt act' s') ?_
    rw [hr, hr']
    exact .inl ⟨a, b, rfl, rfl, hm⟩
  · refine tandem_of_ok (perform_attempt act s) (perform_attempt act' s') ?_
    rw [hr, hr']
    exact .inr ⟨f, rfl, rfl, hf⟩

end Act

/-! ## Acts on workspaces -/

namespace Work

open Act

variable {κ α β γ δ : Type} {act : Act (Store κ) α} {w w' : Workspace κ}
  {last : γ → δ → Workspace κ → Workspace κ → Prop} {low : Workspace κ → Workspace κ → Prop}

theorem perform_onStore {r : Except Fault α} {t : Store κ} (h : act.perform w.store = (r, t)) :
    (onStore act).perform w = (r, ⟨t, w.journal, w.warnings⟩) := by
  unfold onStore
  rw [perform_within, h]

/-- Works that first read the store. -/
theorem tandem_look {f : Store κ → α} {f' : Store κ → β} {next : α → Work κ γ} {next' : β → Work κ δ}
    (h : (next (f w.store)).Tandem w (next' (f' w'.store)) w' last low) :
    (look f >>= next).Tandem w (look f' >>= next') w' last low := h

end Work

end Fluxion
