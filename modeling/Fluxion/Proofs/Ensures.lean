import Fluxion.Workspace

/-!
# What acts ensure

An act either yields a result or is refused, and leaves a state in both cases. `Act.Ensures` states
what holds of the result and the state in the first case and of the fault and the state in the
second; `Act.Succeeds` also says that there is no second case. The rules follow the way acts are put
together, so that a proof about an act reads in the order in which the act runs.

* `Act.perform_bind` and its neighbours run an act step by step.
* `Act.Ensures.bind` and `Act.Succeeds.bind` put two acts one after the other.
* `Act.Follows` compares an act with a computation that has no state, step by step.
* `Work.ensures_onStore` takes what an act on the store ensures to the workspace.
* `Work.Quiet` holds of the acts that give no warnings.
-/

namespace Fluxion

namespace Act

variable {σ τ α β : Type}

/-! ## Running an act -/

@[simp] theorem perform_pure (a : α) (s : σ) : (pure a : Act σ α).perform s = (.ok a, s) := rfl

@[simp] theorem perform_throw (f : Fault) (s : σ) :
    (throw f : Act σ α).perform s = (.error f, s) := rfl

@[simp] theorem perform_get (s : σ) : (get : Act σ σ).perform s = (.ok s, s) := rfl

@[simp] theorem perform_modify (g : σ → σ) (s : σ) :
    (modify g : Act σ Unit).perform s = (.ok (), g s) := rfl

@[simp] theorem perform_modifyGet (g : σ → α × σ) (s : σ) :
    (modifyGet g : Act σ α).perform s = (.ok (g s).1, (g s).2) := rfl

theorem perform_bind (act : Act σ α) (next : α → Act σ β) (s : σ) :
    (act >>= next).perform s =
      match act.perform s with
      | (.ok a, t) => (next a).perform t
      | (.error f, t) => (.error f, t) := by
  simp only [perform, bind, ExceptT.bind, ExceptT.mk, ExceptT.run, StateT.bind]
  rcases act s with ⟨_ | _, t⟩ <;> rfl

@[simp] theorem perform_attempt (act : Act σ α) (s : σ) :
    act.attempt.perform s = (.ok (act.perform s).1, (act.perform s).2) := rfl

@[simp] theorem perform_within (part : σ → τ × (τ → σ)) (act : Act τ α) (s : σ) :
    (act.within part).perform s =
      ((act.perform (part s).1).1, (part s).2 (act.perform (part s).1).2) := rfl

/-! ## Postconditions -/

/-- What holds after an act: `post` of its result and the state, or `fail` of its fault and the
state. -/
def Ensures (act : Act σ α) (s : σ) (post : α → σ → Prop) (fail : Fault → σ → Prop) : Prop :=
  match act.perform s with
  | (.ok a, t) => post a t
  | (.error f, t) => fail f t

/-- The act is not refused, and `post` holds of its result and the state. -/
def Succeeds (act : Act σ α) (s : σ) (post : α → σ → Prop) : Prop :=
  act.Ensures s post fun _ _ => False

variable {act : Act σ α} {next : α → Act σ β} {s t : σ} {a : α} {f : Fault}
  {mid post : α → σ → Prop} {last : β → σ → Prop} {fail low : Fault → σ → Prop}

theorem ensures_of_ok (h : act.perform s = (.ok a, t)) (hp : post a t) : act.Ensures s post fail := by
  unfold Ensures
  rw [h]
  exact hp

theorem ensures_of_error (h : act.perform s = (.error f, t)) (hf : fail f t) :
    act.Ensures s post fail := by
  unfold Ensures
  rw [h]
  exact hf

theorem Ensures.of_ok (h : act.Ensures s post fail) (he : act.perform s = (.ok a, t)) :
    post a t := by
  unfold Ensures at h
  rw [he] at h
  exact h

theorem Ensures.of_error (h : act.Ensures s post fail) (he : act.perform s = (.error f, t)) :
    fail f t := by
  unfold Ensures at h
  rw [he] at h
  exact h

/-- Acts that run alike ensure the same. -/
theorem Ensures.of_perform {act' : Act σ α} {s' : σ} (h : act'.Ensures s' post fail)
    (he : act.perform s = act'.perform s') : act.Ensures s post fail := by
  unfold Ensures at h ⊢
  rw [he]
  exact h

theorem Ensures.mono (h : act.Ensures s mid low) (hp : ∀ a t, mid a t → post a t)
    (hf : ∀ f t, low f t → fail f t) : act.Ensures s post fail := by
  unfold Ensures at *
  split <;> simp_all

/-- Two things an act ensures, it ensures together. -/
theorem Ensures.and (h : act.Ensures s mid low) (h' : act.Ensures s post fail) :
    act.Ensures s (fun a t => mid a t ∧ post a t) fun f t => low f t ∧ fail f t := by
  unfold Ensures at *
  split <;> simp_all

theorem Succeeds.ensures (h : act.Succeeds s post) : act.Ensures s post fail :=
  Ensures.mono h (fun _ _ => id) fun _ _ => False.elim

theorem Succeeds.mono (h : act.Succeeds s mid) (hp : ∀ a t, mid a t → post a t) :
    act.Succeeds s post :=
  Ensures.mono h hp fun _ _ => id

theorem Succeeds.and (h : act.Succeeds s mid) (h' : act.Succeeds s post) :
    act.Succeeds s fun a t => mid a t ∧ post a t :=
  Ensures.mono (Ensures.and h h') (fun _ _ => id) fun _ _ hf => hf.1

theorem Succeeds.exists (h : act.Succeeds s post) :
    ∃ a t, act.perform s = (.ok a, t) ∧ post a t := by
  unfold Succeeds Ensures at h
  split at h
  · exact ⟨_, _, ‹_›, h⟩
  · exact h.elim

/-- One act after another: what the first ensures is what the second starts from. -/
theorem Ensures.bind (h : act.Ensures s mid fail)
    (hn : ∀ a t, mid a t → (next a).Ensures t last fail) : (act >>= next).Ensures s last fail := by
  unfold Ensures at h ⊢
  rw [perform_bind]
  rcases he : act.perform s with ⟨_ | a, t⟩
  · rw [he] at h
    exact h
  · rw [he] at h
    exact hn a t h

theorem Succeeds.bind (h : act.Succeeds s mid)
    (hn : ∀ a t, mid a t → (next a).Ensures t last fail) : (act >>= next).Ensures s last fail :=
  h.ensures.bind hn

theorem ensures_pure (h : post a s) : (pure a : Act σ α).Ensures s post fail := h

theorem ensures_throw (h : fail f s) : (throw f : Act σ α).Ensures s post fail := h

/-- An act that first reads the state. -/
theorem ensures_get {next : σ → Act σ β} (h : (next s).Ensures s last fail) :
    (get >>= next).Ensures s last fail := h

/-- An act that first changes the state. -/
theorem ensures_modify {g : σ → σ} {next : Unit → Act σ β} (h : (next ()).Ensures (g s) last fail) :
    (modify g >>= next).Ensures s last fail := h

/-- What every step of a loop keeps, the loop keeps. -/
theorem Ensures.foldlM {step : β → α → Act σ β} {inv : β → σ → Prop}
    (hstep : ∀ b a s, inv b s → (step b a).Ensures s inv fail) (l : List α) {b : β} (h : inv b s) :
    (l.foldlM step b).Ensures s inv fail := by
  induction l generalizing b s with
  | nil => exact ensures_pure h
  | cons a l ih =>
    rw [List.foldlM_cons]
    exact (hstep b a s h).bind fun b' t h' => ih h'

/-- An act whose result is not needed. -/
theorem Succeeds.discard (h : act.Succeeds s post) :
    (Functor.discard act).Succeeds s fun _ t => ∃ a, post a t := by
  obtain ⟨a, t, hr, hp⟩ := h.exists
  have hrun : (Functor.discard act).perform s = (.ok (), t) := by
    have hbind : Functor.discard act = act >>= fun _ => pure () := by
      rw [Functor.discard, map_const, Function.comp_apply, map_eq_pure_bind]
    rw [hbind, perform_bind, hr]
    rfl
  exact ensures_of_ok hrun ⟨a, hp⟩

/-- A refusal taken as a result is never a refusal. -/
theorem Ensures.attempt (h : act.Ensures s post fail) :
    act.attempt.Succeeds s fun r t =>
      match r with
      | .ok a => post a t
      | .error f => fail f t := by
  unfold Ensures at h
  unfold Succeeds Ensures
  rw [perform_attempt]
  rcases he : act.perform s with ⟨_ | a, t⟩ <;> rw [he] at h <;> exact h

/-- An act on a part of the state changes that part only. -/
theorem Ensures.within {act : Act τ α} {part : σ → τ × (τ → σ)}
    (h : act.Ensures (part s).1 (fun a u => post a ((part s).2 u)) fun f u => fail f ((part s).2 u)) :
    (act.within part).Ensures s post fail := by
  unfold Ensures at h ⊢
  rw [perform_within]
  rcases he : act.perform (part s).1 with ⟨_ | a, t⟩ <;> rw [he] at h <;> exact h

/-! ## Acts that follow a computation -/

/-- An act follows a computation that has no state: its result is in the relation `post` to the computed
one, or it is refused with the computed fault. -/
def Follows {γ : Type} (act : Act σ α) (s : σ) (r : Except Fault γ) (post : α → γ → σ → Prop)
    (low : σ → Prop) : Prop :=
  act.Ensures s (fun a t => ∃ c, r = .ok c ∧ post a c t) fun f t => r = .error f ∧ low t

variable {γ δ : Type} {r : Except Fault γ} {c : γ} {g : γ → Except Fault δ} {link : α → γ → σ → Prop}
  {finish : β → δ → σ → Prop} {left right : σ → Prop}

theorem follows_pure (h : link a c s) : (pure a : Act σ α).Follows s (.ok c) link left := ⟨c, rfl, h⟩

theorem follows_throw (h : left s) : (throw f : Act σ α).Follows s (.error f) link left := ⟨rfl, h⟩

/-- Step by step: what the first steps are related by is what the next ones start from. -/
theorem Follows.bind (h : act.Follows s r link left)
    (hn : ∀ a c t, link a c t → (next a).Follows t (g c) finish left) :
    (act >>= next).Follows s (r >>= g) finish left := by
  refine Ensures.bind (Ensures.mono h (fun _ _ => id) ?_) ?_
  · rintro f t ⟨rfl, ht⟩
    exact ⟨rfl, ht⟩
  · rintro a t ⟨c, rfl, ht⟩
    exact hn a c t ht

/-- Following a computation that fails. -/
theorem Follows.refused (h : act.Follows s (.error f) link left) :
    act.Ensures s (fun _ _ => False) fun f' t => f' = f ∧ left t := by
  refine Ensures.mono h ?_ ?_
  · rintro a t ⟨c, hc, -⟩
    cases hc
  · rintro f' t ⟨hf, ht⟩
    cases hf
    exact ⟨rfl, ht⟩

/-- Following a computation that does not fail. -/
theorem Follows.succeeds (h : act.Follows s (.ok c) link left) :
    act.Succeeds s fun a t => link a c t := by
  refine Ensures.mono h ?_ ?_
  · rintro a t ⟨_, hc, ht⟩
    cases hc
    exact ht
  · rintro f t ⟨hf, -⟩
    cases hf

/-- A computation that fails where its first step does. -/
theorem Follows.branch {ε : Type} (x : Except ε γ) {cause : ε → Fault}
    {rest : Except ε γ → Except Fault δ} (h : act.Follows s (x.mapError cause) link left)
    (he : ∀ f, rest (.error f) = .error (cause f))
    (hn : ∀ a c t, link a c t → (next a).Follows t (rest (.ok c)) finish left) :
    (act >>= next).Follows s (rest x) finish left := by
  cases x with
  | error f =>
    rw [he]
    refine Ensures.bind (Ensures.mono h.refused (fun _ _ => id) ?_) fun _ _ => False.elim
    rintro _ t ⟨rfl, ht⟩
    exact ⟨rfl, ht⟩
  | ok c => exact Succeeds.bind h.succeeds fun a t => hn a c t

/-- An act that is not refused follows a computation that does not fail. -/
theorem Succeeds.follows_ok (h : act.Succeeds s mid) (hl : ∀ a t, mid a t → link a c t) :
    act.Follows s (.ok c) link left :=
  Ensures.mono h (fun a t ht => ⟨c, rfl, hl a t ht⟩) fun _ _ => False.elim

/-- A step that the computation does not take. -/
theorem Succeeds.follows {q : Except Fault δ} (h : act.Succeeds s mid)
    (hn : ∀ a t, mid a t → (next a).Follows t q finish right) :
    (act >>= next).Follows s q finish right :=
  h.bind hn

/-- Doing something more where a text does not read, and nothing but texts is refused. -/
theorem Follows.onMalformed {ε : Type} {x : Except ε γ} {cause : ε → Fault}
    {handle : Complaint → Nat → Act σ Unit} (h : act.Follows s (x.mapError cause) link left)
    (hc : ∀ e, ∃ complaint position text, cause e = .malformed complaint position text)
    (hh : ∀ complaint position t, left t → (handle complaint position).Succeeds t fun _ u => right u) :
    (act.onMalformed handle).Follows s (x.mapError cause) link right := by
  unfold Act.onMalformed
  refine Succeeds.bind (Ensures.attempt h) ?_
  rintro (f | a) t ht
  · obtain ⟨hf, ht⟩ := ht
    cases x with
    | ok c => cases hf
    | error e =>
      cases hf
      obtain ⟨complaint, position, text, he⟩ := hc e
      simp only [he]
      refine (hh complaint position t ht).bind fun _ u hu => ensures_throw ⟨?_, hu⟩
      exact congrArg Except.error he
  · exact ensures_pure ht

theorem Follows.mono {link' : α → γ → σ → Prop} (h : act.Follows s r link left)
    (hp : ∀ a c t, link a c t → link' a c t) (hf : ∀ t, left t → right t) :
    act.Follows s r link' right :=
  Ensures.mono h (fun a t ⟨c, hc, ht⟩ => ⟨c, hc, hp a c t ht⟩) fun _ t ⟨hc, ht⟩ => ⟨hc, hf t ht⟩

end Act

/-! ## Acts on a workspace -/

namespace Work

open Act

variable {κ α β : Type} {act : Act (Store κ) α} {w : Workspace κ} {post : α → Store κ → Prop}
  {fail : Fault → Store κ → Prop} {last : β → Workspace κ → Prop} {low : Fault → Workspace κ → Prop}

/-- What an act on the store ensures, it ensures in the workspace. -/
theorem ensures_onStore (h : act.Ensures w.store post fail) :
    (onStore act).Ensures w (fun a w' => post a w'.store) fun f w' => fail f w'.store :=
  Ensures.within h

theorem succeeds_onStore (h : act.Succeeds w.store post) :
    (onStore act).Succeeds w fun a w' => post a w'.store :=
  Ensures.within h

/-- A work that first reads the store. -/
theorem ensures_look {f : Store κ → α} {next : α → Work κ β}
    (h : (next (f w.store)).Ensures w last low) : (look f >>= next).Ensures w last low := h

/-- Noting something does not change the store. -/
theorem succeeds_note (e : Entry) (w : Workspace κ) :
    (note e : Work κ Unit).Succeeds w fun _ w' => w'.store = w.store := rfl

/-- A work that may note something first. -/
theorem ensures_noteIf {c : Bool} {e : Entry} {next : Unit → Work κ β}
    (h : ∀ w', w'.store = w.store → (next ()).Ensures w' last low) :
    (if c = true then note e >>= next else next ()).Ensures w last low := by
  cases c with
  | false => exact h w rfl
  | true => exact (succeeds_note e w).bind fun _ w' hs => h w' hs

theorem succeeds_noteEvaluation (f : Fault) (w : Workspace κ) :
    (noteEvaluation f : Work κ Unit).Succeeds w fun _ w' => w'.store = w.store := by
  unfold noteEvaluation
  split
  · exact succeeds_note _ w
  · exact ensures_pure rfl

/-! ## Warnings -/

/-- The act gives no warnings. -/
def Quiet (act : Work κ α) : Prop := ∀ w, (act.perform w).2.warnings = w.warnings

theorem quiet_pure (a : α) : Quiet (pure a : Work κ α) := fun _ => rfl

theorem quiet_look (f : Store κ → α) : Quiet (look f : Work κ α) := fun _ => rfl

theorem quiet_note (e : Entry) : Quiet (note e : Work κ Unit) := fun _ => rfl

theorem quiet_onStore (act : Act (Store κ) α) : Quiet (onStore act) := fun _ => rfl

theorem Quiet.bind {act : Work κ α} {next : α → Work κ β} (h : Quiet act) (hn : ∀ a, Quiet (next a)) :
    Quiet (act >>= next) := by
  intro w
  have hw := h w
  rw [perform_bind]
  rcases hr : act.perform w with ⟨_ | a, w'⟩ <;> rw [hr] at hw
  · exact hw
  · exact (hn a w').trans hw

theorem quiet_foldlM {step : β → α → Work κ β} (h : ∀ b a, Quiet (step b a)) (l : List α) (b : β) :
    Quiet (l.foldlM step b) := by
  induction l generalizing b with
  | nil => exact quiet_pure b
  | cons a l ih =>
    rw [List.foldlM_cons]
    exact (h b a).bind ih

/-- What a quiet act ensures, it ensures without a warning. -/
theorem Quiet.succeeds {act : Work κ α} {post : α → Workspace κ → Prop} (hq : Quiet act)
    (h : act.Succeeds w post) : act.Succeeds w fun a w' => post a w' ∧ w'.warnings = w.warnings := by
  obtain ⟨a, w', hr, hp⟩ := h.exists
  have hw := hq w
  rw [hr] at hw
  exact ensures_of_ok hr ⟨hp, hw⟩

end Work

end Fluxion
