import Fluxion.Derivation
import Fluxion.Proofs.Copying

/-!
# Derivatives are made in a store as on plain trees

Following a recipe in a store takes the derivatives of the operands, each of which has to be there
once for every time the recipe takes it, and copies the operands. The result is the tree that the
recipe gives on plain trees. By induction, the derivative that is made of a tree of the store is the
derivative of the tree, made of new nodes.

The work fails in two ways. An operator without a rule leaves nothing behind, and it is the operator
that the derivative of the plain tree reports. A name that is not a letter stops the work where an
operand is copied; then the nodes made so far are lost.

* `Store.follow_spec` follows a recipe.
* `Work.derive_spec` makes the derivative of a tree.
-/

namespace Fluxion

open Act

namespace Store

variable {κ ι : Type} {s t u : Store κ} {p : Planted κ} {used used' : List Ref} {b : Int}
  {parent : Option Ref} {f : Fault}

theorem literal?_eq (h : p.In s parent) : s.literal? p.ref? = p.tree.literal? := by
  cases p <;> simp_all [Planted.In, literal?, Planted.tree, Tree.literal?]

theorem Stopped.of_append (h : Stopped (used' ++ used) s f t) : Stopped used s f t :=
  h.after (.refl _ _)

theorem copySlot_spec (hp : p.Stands s used parent) (h : s.Accounted b used) :
    (copySlot p.ref?).Ensures s
      (fun c t => p.tree.isSpelled = true ∧ ∃ q, q.tree = p.tree ∧ q.ref? = c ∧ Made b used s q t)
      fun f t => p.tree.isSpelled = false ∧ Stopped used s f t := by
  cases hr : p.ref? with
  | none =>
    rw [Planted.eq_absent_of_ref? hr]
    exact ensures_pure ⟨rfl, .absent, rfl, rfl, trivial, h, .refl _ _⟩
  | some r => exact copy_spec hp hr h

section Follow

variable {operand derivative : ι → Planted κ} {x y q : Recipe κ ι}

/-- Following a recipe makes the tree it gives on plain trees. The derivatives it takes become part of
the result, the operands are copied. -/
def Followed (operand derivative : ι → Planted κ) (q : Recipe κ ι) : Prop :=
  ∀ (b : Int) (used : List Ref) (s : Store κ),
    (∀ i, ∃ parent, (operand i).Stands s used parent) →
    (∀ i ∈ q.derivatives, (derivative i).In s none) →
    s.Accounted b (q.derivatives.flatMap (fun i => (derivative i).refs) ++ used) →
    (follow (fun i => (operand i).ref?) (fun i => (derivative i).ref?) q).Ensures s
      (fun r t => ∃ p : Planted κ,
        p.tree = q.fill (fun i => (operand i).tree) (fun i => (derivative i).tree) ∧ p.ref? = r ∧
        Made b used s p t ∧
        ((∀ i, (derivative i).tree.isSpelled = true) → p.tree.isSpelled = true))
      fun f t => (∃ i, (operand i).tree.isSpelled = false) ∧ Stopped used s f t

/-- Two parts of a recipe, one after the other. -/
theorem follow_two (hx : Followed operand derivative x) (hy : Followed operand derivative y)
    (hu : ∀ i, ∃ parent, (operand i).Stands s used parent)
    (hd : ∀ i ∈ x.derivatives ++ y.derivatives, (derivative i).In s none)
    (h : s.Accounted b ((x.derivatives ++ y.derivatives).flatMap (fun i => (derivative i).refs) ++
      used)) :
    (do
      let l ← follow (fun i => (operand i).ref?) (fun i => (derivative i).ref?) x
      let r ← follow (fun i => (operand i).ref?) (fun i => (derivative i).ref?) y
      pure (l, r)).Ensures s
      (fun lr t => ∃ p q : Planted κ,
        p.tree = x.fill (fun i => (operand i).tree) (fun i => (derivative i).tree) ∧
        q.tree = y.fill (fun i => (operand i).tree) (fun i => (derivative i).tree) ∧
        (p.ref?, q.ref?) = lr ∧ p.In t none ∧ q.In t none ∧
        t.Accounted b (p.refs ++ q.refs ++ used) ∧ Kept used s t ∧
        ((∀ i, (derivative i).tree.isSpelled = true) →
          p.tree.isSpelled = true ∧ q.tree.isSpelled = true))
      fun f t => (∃ i, (operand i).tree.isSpelled = false) ∧ Stopped used s f t := by
  rw [List.flatMap_append, List.append_assoc] at h
  -- what the second part takes is in use while the first part is followed
  refine ((hx b _ s (fun i => ?_) (fun i hi => hd i (List.mem_append_left _ hi)) h).mono
    (fun _ _ => id) ?_).bind ?_
  · obtain ⟨parent, hi⟩ := hu i
    exact ⟨parent, hi.mono (List.subset_append_right _ _)⟩
  · rintro f t ⟨hs, hf⟩
    exact ⟨hs, hf.of_append⟩
  rintro _ t₁ ⟨p, hp, rfl, hmp, hsp⟩
  have h₁ : t₁.Accounted b
      (y.derivatives.flatMap (fun i => (derivative i).refs) ++ (p.refs ++ used)) :=
    hmp.accounted.perm (List.perm_iff_count.mpr fun z => by
      simp only [List.count_append]
      omega)
  have hk₁ : Kept used s t₁ := hmp.kept.subset (List.subset_append_right _ _)
  refine ((hy b _ t₁ (fun i => ?_) (fun i hi => ?_) h₁).mono (fun _ _ => id) ?_).bind ?_
  · obtain ⟨parent, hi⟩ := hu i
    exact ⟨parent, (hi.kept hk₁).mono (List.subset_append_right _ _)⟩
  · refine (hd i (List.mem_append_right _ hi)).kept hmp.kept fun z hz => ?_
    exact List.mem_append_left _ (List.mem_flatMap_of_mem hi hz)
  · rintro f t ⟨hs, hf⟩
    exact ⟨hs, hf.after hk₁⟩
  rintro _ t₂ ⟨q, hq, rfl, hmq, hsq⟩
  refine ensures_pure ⟨p, q, hp, hq, rfl, ?_, hmq.stands, ?_, ?_, fun hs => ⟨hsp hs, hsq hs⟩⟩
  · exact hmp.stands.kept hmq.kept (List.subset_append_left _ _)
  · refine hmq.accounted.perm (List.perm_iff_count.mpr fun z => ?_)
    simp only [List.count_append]
    omega
  · exact hk₁.trans (hmq.kept.subset (List.subset_append_right _ _))

/-- A binary node over two parts that were followed, in either order. -/
theorem newBinary_followed {s t : Store κ} {p q : Planted κ} {x y z : Recipe κ ι} {op : Operation}
    (hz : z.fill (fun i => (operand i).tree) (fun i => (derivative i).tree) =
      .binary (.known op) (x.fill (fun i => (operand i).tree) fun i => (derivative i).tree)
        (y.fill (fun i => (operand i).tree) fun i => (derivative i).tree))
    (hp : p.tree = x.fill (fun i => (operand i).tree) (fun i => (derivative i).tree))
    (hq : q.tree = y.fill (fun i => (operand i).tree) (fun i => (derivative i).tree))
    (hpi : p.In t none) (hqi : q.In t none) (h : t.Accounted b (p.refs ++ q.refs ++ used))
    (hk : Kept used s t)
    (hs : (∀ i, (derivative i).tree.isSpelled = true) →
      p.tree.isSpelled = true ∧ q.tree.isSpelled = true) {bad : Fault → Store κ → Prop} :
    (do return some (← newBinary .pool (.known op) p.ref? q.ref?)).Ensures t
      (fun r u => ∃ c : Planted κ,
        c.tree = z.fill (fun i => (operand i).tree) (fun i => (derivative i).tree) ∧ c.ref? = r ∧
        Made b used s c u ∧
        ((∀ i, (derivative i).tree.isSpelled = true) → c.tree.isSpelled = true))
      bad := by
  refine (newBinary_spec (.known op) hpi hqi h).bind ?_
  rintro r u ⟨hm, -⟩
  refine ensures_pure ⟨.binary r (.known op) p q, ?_, rfl,
    ⟨hm.stands, hm.accounted, hk.trans hm.kept⟩, fun hd => ?_⟩
  · rw [hz, ← hp, ← hq]
    rfl
  · simp [Planted.tree, Tree.isSpelled, hs hd]

/-- **Following a recipe.** -/
theorem follow_spec (operand derivative : ι → Planted κ) (q : Recipe κ ι) :
    Followed operand derivative q := by
  induction q with
  | literal c =>
    intro b used s hu hd h
    refine (newLiteral_spec h c).bind ?_
    rintro r t ⟨hm, -⟩
    exact ensures_pure ⟨.literal r c, rfl, rfl, hm, fun _ => rfl⟩
  | operand i =>
    intro b used s hu hd h
    obtain ⟨parent, hi⟩ := hu i
    refine (copySlot_spec hi h).mono ?_ ?_
    · rintro c t ⟨hs, p, hp, rfl, hm⟩
      exact ⟨p, hp, rfl, hm, fun _ => hp ▸ hs⟩
    · rintro f t ⟨hs, hf⟩
      exact ⟨⟨i, hs⟩, hf⟩
  | derivative i =>
    intro b used s hu hd h
    have hi : (derivative i).In s none := hd i (by simp [Recipe.derivatives])
    refine ensures_pure ⟨derivative i, rfl, rfl, ⟨hi, ?_, .refl _ _⟩, fun h => h i⟩
    simpa [Recipe.derivatives] using h
  | binary op x y ihx ihy =>
    intro b used s hu hd h
    have hboth := follow_two ihx ihy hu hd h
    have hrun : follow (fun i => (operand i).ref?) (fun i => (derivative i).ref?) (.binary op x y) =
        (do
          let l ← follow (fun i => (operand i).ref?) (fun i => (derivative i).ref?) x
          let r ← follow (fun i => (operand i).ref?) (fun i => (derivative i).ref?) y
          pure (l, r)) >>= fun lr => do return some (← newBinary .pool (.known op) lr.1 lr.2) := by
      simp only [follow, bind_assoc, pure_bind]
    rw [hrun]
    refine hboth.bind ?_
    rintro _ t ⟨p, q, hp, hq, rfl, hpi, hqi, ha, hk, hs⟩
    exact newBinary_followed rfl hp hq hpi hqi ha hk hs
  | backward op x y ihx ihy =>
    intro b used s hu hd h
    have hboth := follow_two ihy ihx hu (fun i hi => hd i (by
      simp only [Recipe.derivatives, List.mem_append] at hi ⊢
      exact hi.symm)) (h.perm (List.perm_iff_count.mpr fun z => by
      simp only [Recipe.derivatives, List.flatMap_append, List.count_append]
      omega))
    have hrun : follow (fun i => (operand i).ref?) (fun i => (derivative i).ref?) (.backward op x y) =
        (do
          let r ← follow (fun i => (operand i).ref?) (fun i => (derivative i).ref?) y
          let l ← follow (fun i => (operand i).ref?) (fun i => (derivative i).ref?) x
          pure (r, l)) >>= fun rl => do return some (← newBinary .pool (.known op) rl.2 rl.1) := by
      simp only [follow, bind_assoc, pure_bind]
    rw [hrun]
    refine hboth.bind ?_
    rintro _ t ⟨q, p, hq, hp, rfl, hqi, hpi, ha, hk, hs⟩
    have ha' : t.Accounted b (p.refs ++ q.refs ++ used) :=
      ha.perm (List.perm_append_comm.append_right used)
    exact newBinary_followed rfl hp hq hpi hqi ha' hk fun hd => (hs hd).symm
  | unary op x ih =>
    intro b used s hu hd h
    refine (ih b used s hu hd h).bind ?_
    rintro _ t ⟨p, hp, rfl, hmp, hs⟩
    refine (newUnary_after (.known op) hmp).bind ?_
    rintro r u ⟨hm, -⟩
    refine ensures_pure ⟨.unary r (.known op) p, ?_, rfl, hm, fun hd => ?_⟩
    · simp [Planted.tree, Recipe.fill, Tree.apply₁, hp]
    · simp [Planted.tree, Tree.isSpelled, hs hd]

end Follow

end Store

namespace Work

open Store

variable {κ α : Type} {w : Workspace κ} {p : Planted κ} {used : List Ref} {b : Int}
  {parent : Option Ref} {v : Name} {unknown : Operator → Prop} {misspelled : Prop}

/-- How making a derivative fails. An operator without a rule leaves nothing behind; a name that is not
a letter may leave nodes behind, but changes nothing in use. -/
inductive Refused (b : Int) (used : List Ref) (unknown : Operator → Prop) (misspelled : Prop)
    (s : Store κ) : Fault → Store κ → Prop
  | noRule {op : Operator} {t : Store κ} (h : unknown op) (accounted : t.Accounted b used)
      (kept : Kept used s t) : Refused b used unknown misspelled s (.unknownOperation op) t
  | stopped {f : Fault} {t : Store κ} (h : misspelled) (stopped : Stopped used s f t) :
      Refused b used unknown misspelled s f t

theorem Refused.mono {s t : Store κ} {f : Fault} {unknown' : Operator → Prop} {misspelled' : Prop}
    (h : Refused b used unknown misspelled s f t) (hu : ∀ op, unknown op → unknown' op)
    (hm : misspelled → misspelled') : Refused b used unknown' misspelled' s f t := by
  cases h with
  | noRule h accounted kept => exact .noRule (hu _ h) accounted kept
  | stopped h stopped => exact .stopped (hm h) stopped

theorem Refused.after {r s t : Store κ} {f : Fault} (h : Refused b used unknown misspelled s f t)
    (hk : Kept used r s) : Refused b used unknown misspelled r f t := by
  cases h with
  | noRule h accounted kept => exact .noRule h accounted (hk.trans kept)
  | stopped h stopped =>
    exact .stopped h ⟨stopped.fault, stopped.apart, hk.trans stopped.kept⟩

theorem noRule_spec {op : Operator} {post : α → Workspace κ → Prop} (h : unknown op)
    (ha : w.store.Accounted b used) :
    (noRule op : Work κ α).Ensures w post fun f w' =>
      Refused b used unknown misspelled w.store f w'.store := by
  unfold noRule
  refine (succeeds_note _ w).bind ?_
  intro _ w' hw
  refine ensures_throw (.noRule h ?_ ?_)
  · rw [hw]
    exact ha
  · rw [hw]
    exact .refl _ _

/-- A finished derivative is given back when the next one finds an operator without a rule. -/
theorem orRelease_spec {act : Work κ α} {post : α → Workspace κ → Prop} (hp : p.In w.store none)
    (h : act.Ensures w post fun f w' =>
      Refused b (p.refs ++ used) unknown misspelled w.store f w'.store) :
    (orRelease p.ref? act).Ensures w post fun f w' =>
      Refused b used unknown misspelled w.store f w'.store := by
  unfold orRelease
  refine h.attempt.bind ?_
  intro r w' hr
  cases r with
  | ok a => exact ensures_pure hr
  | error f =>
    cases hr with
    | noRule hop ha hk =>
      have hfree := release_spec (hp.kept hk (List.subset_append_left _ _)) ha
      refine (succeeds_onStore hfree).bind ?_
      intro _ w'' hf
      refine ensures_throw (.noRule hop hf.accounted ?_)
      exact (hk.subset (List.subset_append_right _ _)).trans hf.kept
    | stopped hm hs =>
      obtain ⟨n, rfl⟩ := hs.fault
      exact ensures_throw (.stopped hm hs.of_append)

/-- A rule that takes one derivative. -/
theorem follow_one {d : Planted κ} {q : Recipe κ Unit} {s : Store κ} (hq : q.derivatives = [()])
    (hp : p.Stands s used parent) (hk : Kept used s w.store)
    (hd : Made b used s d w.store) (hs : d.tree.isSpelled = true) :
    (onStore (follow (fun _ => p.ref?) (fun _ => d.ref?) q)).Ensures w
      (fun r w' => ∃ c : Planted κ, c.tree = q.fill (fun _ => p.tree) (fun _ => d.tree) ∧
        c.ref? = r ∧ c.tree.isSpelled = true ∧ Made b used s c w'.store)
      fun f w' => p.tree.isSpelled = false ∧ Stopped used s f w'.store := by
  have hfollow := follow_spec (fun _ => p) (fun _ => d) q b used w.store
    (fun _ => ⟨parent, hp.kept hk⟩) (fun _ _ => hd.stands)
    (by simpa [hq] using hd.accounted)
  refine (ensures_onStore hfollow).mono ?_ ?_
  · rintro r w' ⟨c, hc, hr, hm, hsp⟩
    exact ⟨c, hc, hr, hsp fun _ => hs, hm.stands, hm.accounted, hk.trans hm.kept⟩
  · rintro f w' ⟨⟨_, hsp⟩, hf⟩
    exact ⟨hsp, hf.fault, hf.apart, hk.trans hf.kept⟩

/-- A rule that takes the derivatives of both operands. -/
theorem follow_both {q dp dq : Planted κ} {rule : Recipe κ Side} {s : Store κ}
    {parent' : Option Ref} (hrule : rule.derivatives.Perm [.left, .right])
    (hp : p.Stands s used parent) (hq : q.Stands s used parent') (hk : Kept used s w.store)
    (hdp : dp.In w.store none) (hdq : dq.In w.store none)
    (ha : w.store.Accounted b (dq.refs ++ (dp.refs ++ used)))
    (hsp : dp.tree.isSpelled = true) (hsq : dq.tree.isSpelled = true) :
    (onStore (follow (Side.pick p.ref? q.ref?) (Side.pick dp.ref? dq.ref?) rule)).Ensures w
      (fun r w' => ∃ c : Planted κ,
        c.tree = rule.fill (Side.pick p.tree q.tree) (Side.pick dp.tree dq.tree) ∧
        c.ref? = r ∧ c.tree.isSpelled = true ∧ Made b used s c w'.store)
      fun f w' => (p.tree.isSpelled = false ∨ q.tree.isSpelled = false) ∧
        Stopped used s f w'.store := by
  have hpick {α : Type} (f : Planted κ → α) (x y : Planted κ) :
      Side.pick (f x) (f y) = fun i => f (Side.pick x y i) := by
    funext i
    cases i <;> rfl
  have ha' : w.store.Accounted b
      (rule.derivatives.flatMap (fun i => (Side.pick dp dq i).refs) ++ used) := by
    refine ha.perm (((hrule.flatMap_right _).append_right used).trans ?_)
    refine List.perm_iff_count.mpr fun z => ?_
    simp only [List.flatMap_cons, List.flatMap_nil, Side.pick, List.count_append, List.count_nil]
    omega
  have hfollow := follow_spec (Side.pick p q) (Side.pick dp dq) rule b used w.store
    (fun i => by
      cases i
      · exact ⟨parent, hp.kept hk⟩
      · exact ⟨parent', hq.kept hk⟩)
    (fun i _ => by cases i <;> assumption) ha'
  rw [hpick (·.ref?), hpick (·.ref?), hpick (·.tree), hpick (·.tree)]
  refine (ensures_onStore hfollow).mono ?_ ?_
  · rintro r w' ⟨c, hc, hr, hm, hs⟩
    refine ⟨c, hc, hr, hs fun i => ?_, hm.stands, hm.accounted, hk.trans hm.kept⟩
    cases i <;> assumption
  · rintro f w' ⟨⟨i, hs⟩, hf⟩
    refine ⟨?_, hf.fault, hf.apart, hk.trans hf.kept⟩
    cases i
    · exact .inl hs
    · exact .inr hs

variable [Coefficient κ]

/-- A derivative was made: it is that of the plain tree, and all its names are letters. -/
structure Derived (b : Int) (used : List Ref) (v : Name) (p : Planted κ) (s : Store κ)
    (r : Option Ref) (t : Store κ) (q : Planted κ) : Prop where
  derivative : p.tree.derivative v = .ok q.tree
  ref : q.ref? = r
  spelled : q.tree.isSpelled = true
  made : Made b used s q t

theorem newWhole_spec (h : w.store.Accounted b used) (n : Nat) :
    (newWhole n).Succeeds w fun r w' => ∃ q : Planted κ, q.tree = .literal (Coefficient.ofNat n) ∧
      q.ref? = r ∧ Made b used w.store q w'.store := by
  have hnew : (do return some (← newLiteral .pool (Coefficient.ofNat n)) :
      Act (Store κ) (Option Ref)).Succeeds w.store fun r t => ∃ q : Planted κ,
        q.tree = .literal (Coefficient.ofNat n) ∧ q.ref? = r ∧ Made b used w.store q t := by
    refine (newLiteral_spec h (Coefficient.ofNat n)).bind ?_
    rintro r t ⟨hm, -⟩
    exact ensures_pure ⟨.literal r (Coefficient.ofNat n), rfl, rfl, hm⟩
  exact succeeds_onStore hnew

/-- An act makes the derivative of a tree of the store, or fails as the derivative does. -/
def Derives (b : Int) (used : List Ref) (v : Name) (p : Planted κ) (w : Workspace κ)
    (act : Work κ (Option Ref)) : Prop :=
  act.Ensures w (fun r w' => ∃ q, Derived b used v p w.store r w'.store q)
    fun f w' => Refused b used (fun op => p.tree.derivative v = .error op)
      (p.tree.isSpelled = false) w.store f w'.store

/-- The derivative of one operand is made first, and then a rule that takes it is followed. -/
theorem Derives.one {whole : Planted κ} {rule : Recipe κ Unit} {act : Work κ (Option Ref)}
    (hrule : rule.derivatives = [()]) (hp : p.Stands w.store used parent)
    (hact : Derives b used v p w act)
    (hok : ∀ d, p.tree.derivative v = .ok d →
      whole.tree.derivative v = .ok (rule.fill (fun _ => p.tree) fun _ => d))
    (herr : ∀ op, p.tree.derivative v = .error op → whole.tree.derivative v = .error op)
    (hs : p.tree.isSpelled = false → whole.tree.isSpelled = false) :
    Derives b used v whole w (do
      let d ← act
      onStore (follow (fun _ => p.ref?) (fun _ => d) rule)) := by
  refine (Ensures.mono hact (fun _ _ => id) fun f w' hr => hr.mono herr hs).bind ?_
  rintro _ w₁ ⟨d, hd, rfl, hsp, hm⟩
  refine (follow_one hrule hp hm.kept hm hsp).mono ?_ ?_
  · rintro r w₂ ⟨c, hc, hr, hspc, hmc⟩
    exact ⟨c, hc ▸ hok d.tree hd, hr, hspc, hmc⟩
  · rintro f w₂ ⟨hsp', hstop⟩
    exact .stopped (hs hsp') hstop

/-- The derivatives of both operands are made, and then a rule that takes both is followed. The one
that is made first is in use while the other is made. -/
theorem Derives.both {q whole : Planted κ} {parent' : Option Ref} {rule : Recipe κ Side}
    {actp actq : Work κ (Option Ref)} (hrule : rule.derivatives.Perm [.left, .right])
    (hp : p.Stands w.store used parent) (hq : q.Stands w.store used parent')
    (hactp : Derives b used v p w actp)
    (hactq : ∀ (w₁ : Workspace κ) (used₁ : List Ref), q.Stands w₁.store used₁ parent' →
      w₁.store.Accounted b used₁ → Derives b used₁ v q w₁ actq)
    (hok : ∀ d e, p.tree.derivative v = .ok d → q.tree.derivative v = .ok e →
      whole.tree.derivative v = .ok (rule.fill (Side.pick p.tree q.tree) (Side.pick d e)))
    (herrp : ∀ op, p.tree.derivative v = .error op → whole.tree.derivative v = .error op)
    (herrq : ∀ d op, p.tree.derivative v = .ok d → q.tree.derivative v = .error op →
      whole.tree.derivative v = .error op)
    (hs : p.tree.isSpelled = false ∨ q.tree.isSpelled = false → whole.tree.isSpelled = false) :
    Derives b used v whole w (do
      let d ← actp
      let e ← orRelease d actq
      onStore (follow (Side.pick p.ref? q.ref?) (Side.pick d e) rule)) := by
  refine (Ensures.mono hactp (fun _ _ => id) fun f w' hr =>
    hr.mono herrp fun h => hs (.inl h)).bind ?_
  rintro _ w₁ ⟨d, hd, rfl, hspd, hmd⟩
  have hq₁ := (hq.kept hmd.kept).mono (List.subset_append_right d.refs used)
  have hsecond := orRelease_spec hmd.stands (hactq w₁ _ hq₁ hmd.accounted)
  refine (hsecond.mono (fun _ _ => id) fun f w' hr =>
    (hr.after hmd.kept).mono (fun op => herrq d.tree op hd) fun h => hs (.inr h)).bind ?_
  rintro _ w₂ ⟨e, he, rfl, hspe, hme⟩
  have hk₂ := hmd.kept.trans (hme.kept.subset (List.subset_append_right d.refs used))
  have hd₂ := hmd.stands.kept hme.kept (List.subset_append_left d.refs used)
  refine (follow_both hrule hp hq hk₂ hd₂ hme.stands hme.accounted hspd hspe).mono ?_ ?_
  · rintro r w₃ ⟨c, hc, hr, hsp, hmc⟩
    exact ⟨c, hc ▸ hok d.tree e.tree hd he, hr, hsp, hmc⟩
  · rintro f w₃ ⟨hsp, hstop⟩
    exact .stopped (hs hsp) hstop

/-- Differentiating down far enough makes the derivative of the whole tree. -/
theorem deriveTo_spec {depth : Nat} (hp : p.Stands w.store used parent) (hd : p.tree.depth < depth)
    (h : w.store.Accounted b used) : Derives b used v p w (deriveTo v depth p.ref?) := by
  induction p generalizing w parent depth used with
  | absent =>
    obtain ⟨d, rfl⟩ : ∃ d, depth = d + 1 := ⟨depth - 1, by omega⟩
    exact noRule_spec rfl h
  | literal x c =>
    obtain ⟨d, rfl⟩ : ∃ d, depth = d + 1 := ⟨depth - 1, by omega⟩
    have hn : w.store.node? x = some ⟨.literal c, parent⟩ := hp.isIn
    unfold deriveTo
    refine ensures_look ?_
    simp only [Planted.ref?, Option.bind_some, hn]
    refine (newWhole_spec h 0).ensures.mono ?_ fun _ _ => id
    rintro r w' ⟨q, hq, rfl, hm⟩
    exact ⟨q, by rw [hq]; rfl, rfl, by rw [hq]; rfl, hm⟩
  | var x n =>
    obtain ⟨d, rfl⟩ : ∃ d, depth = d + 1 := ⟨depth - 1, by omega⟩
    have hn : w.store.node? x = some ⟨.var n, parent⟩ := hp.isIn
    unfold deriveTo
    refine ensures_look ?_
    simp only [Planted.ref?, Option.bind_some, hn]
    refine (newWhole_spec h _).ensures.mono ?_ fun _ _ => id
    rintro r w' ⟨q, hq, rfl, hm⟩
    exact ⟨q, by rw [hq]; rfl, rfl, by rw [hq]; rfl, hm⟩
  | unary x op p ih =>
    simp only [Planted.tree, Tree.depth] at hd
    obtain ⟨d, rfl⟩ : ∃ d, depth = d + 1 := ⟨depth - 1, by omega⟩
    have hn := hp.isIn.1
    unfold deriveTo
    refine ensures_look ?_
    simp only [Planted.ref?_unary, Option.bind_some, hn]
    cases hq : (Recipe.ofOperator op : Option (Recipe κ Unit)) with
    | none => exact noRule_spec (by rw [Planted.tree, Tree.derivative, hq]) h
    | some rule =>
      obtain ⟨o, ho, hf⟩ := Option.bind_eq_some_iff.mp hq
      refine Derives.one (Recipe.shape_ofFunction hf).1 hp.operand
        (ih hp.operand (by omega : p.tree.depth < d) h) (fun e he => ?_) (fun o ho => ?_) id
      · rw [Planted.tree, Tree.derivative, hq, he]
      · rw [Planted.tree, Tree.derivative, hq, ho]
  | binary x op p q ihp ihq =>
    simp only [Planted.tree, Tree.depth] at hd
    obtain ⟨d, rfl⟩ : ∃ d, depth = d + 1 := ⟨depth - 1, by omega⟩
    have hn := hp.isIn.1
    have hs : p.tree.isSpelled = false ∨ q.tree.isSpelled = false →
        (Planted.binary x op p q).tree.isSpelled = false := by
      rintro (hs | hs) <;> simp [Planted.tree, Tree.isSpelled, hs]
    have hdp := ihp hp.left (by omega : p.tree.depth < d) h
    unfold deriveTo
    refine ensures_look ?_
    simp only [Planted.ref?_binary, Option.bind_some, hn]
    refine ensures_look ?_
    refine ensures_look ?_
    rw [literal?_eq hp.left.isIn, literal?_eq hp.right.isIn]
    cases hplan : Plan.ofOperator op p.tree.literal? q.tree.literal? with
    | none => exact noRule_spec (by rw [Planted.tree, Tree.derivative, hplan]) h
    | some plan =>
      obtain ⟨o, ho, hrule⟩ := Plan.ofOperator_eq_some hplan
      cases plan with
      | left rule =>
        obtain ⟨c, -, -, hshape⟩ := Plan.eq_left hrule
        refine Derives.one (by rw [hshape]; rfl) hp.left hdp (fun e he => ?_) (fun o ho => ?_)
          fun h => hs (.inl h)
        · rw [Planted.tree, Tree.derivative, hplan, he]
        · rw [Planted.tree, Tree.derivative, hplan, ho]
      | right rule =>
        obtain ⟨c, -, -, -, hshape⟩ := Plan.eq_right hrule
        refine Derives.one (by rw [hshape]; rfl) hp.right
          (ihq hp.right (by omega : q.tree.depth < d) h) (fun e he => ?_) (fun o ho => ?_)
          fun h => hs (.inr h)
        · rw [Planted.tree, Tree.derivative, hplan, he]
        · rw [Planted.tree, Tree.derivative, hplan, ho]
      | both rule =>
        refine Derives.both (Plan.shape_both hrule).1 hp.left hp.right hdp
          (fun w₁ used₁ hq₁ h₁ => ihq hq₁ (by omega : q.tree.depth < d) h₁)
          (fun e e' he he' => ?_) (fun o ho => ?_) (fun e o he ho => ?_) hs
        · rw [Planted.tree, Tree.derivative, hplan, he, he']
        · rw [Planted.tree, Tree.derivative, hplan, ho]
        · rw [Planted.tree, Tree.derivative, hplan, he, ho]

/-- **Making the derivative of a tree.** -/
theorem derive_spec (hp : p.Stands w.store used parent) (h : w.store.Accounted b used) :
    Derives b used v p w (derive v p.ref?) := by
  unfold derive
  refine ensures_look ?_
  exact deriveTo_spec hp (Nat.lt_succ_of_le (hp.depth_le h.toApart)) h

end Work

end Fluxion
