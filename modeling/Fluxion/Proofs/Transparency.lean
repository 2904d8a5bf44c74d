import Fluxion.Proofs.Scripts
import Fluxion.Proofs.TandemTaylor

/-!
# Recycling is transparent

A careful and tidy script is answered the same whatever the pool keeps: the same trees and values, the same
links between the nodes it was given, and the same faults. At a pool that keeps nothing a node is never
handed out twice, and the nodes that the script was given and did not give back stand at any other pool
under other names.

* `Step.concur` says that a step concurs at both pools.
* `Desk.Alike` relates the two desks, and `Desk.Alike.perform` and `Desk.Alike.play` keep them alike.
* `Desk.play_transparent` says that the replies are the same.
* `Desk.emptying_betrays_recycling` and `Desk.adopting_betrays_recycling` are scripts that are not tidy.
-/

namespace Fluxion

open Act Store

/-! ## Steps that may lose nodes -/

/-- The nodes listed may be lost; anything but that may happen to the others. -/
def Effect.losing (lost : List Ref) : Effect := ⟨(· ∈ lost), fun _ => True, fun _ => True⟩

/-- Where all that was there still is, nothing was lost. -/
theorem Store.Onward.lossless {κ : Type} {ρ ρ' : Ref → Ref} {F F' : Forest κ} {t t' s' : Store κ} {lost : List Ref}
    (ho : Onward (.losing lost) ρ F t ρ' F' t' s') (hl : ∀ x ∈ lost, x ∈ F.refs) (hk : F.refs ⊆ F'.refs) :
    Onward (.losing []) ρ F t ρ' F' t' s' where
  twins := ho.twins
  size := ho.size
  places := ho.places
  old := ho.old
  kept _ hx _ := hk hx
  links _ _ _ ht := absurd trivial ht
  roots _ _ hc := absurd trivial hc
  rooted e he := (ho.rooted e he).imp_right fun h r hr => .inl ((h r hr).elim id fun hx => hk (hl r hx))

section Concur

variable {κ σ α β γ δ : Type} [Stored σ κ] {E : Effect} {ρ : Ref → Ref} {F : Forest κ} {act : Act σ α} {act' : Act σ β}
  {w w' : σ} {lost : List Ref} {P : α → β → (Ref → Ref) → Forest κ → Store κ → Prop}
  {P' : γ → δ → (Ref → Ref) → Forest κ → Store κ → Prop} {Q : (Ref → Ref) → Forest κ → Store κ → Prop}

/-- What is lost unless the act is refused is lost only if it is not. -/
theorem ConcurOr.settle (h : ConcurOr (.losing lost) ρ F act w act' w' P fun _ F' _ => F.refs ⊆ F'.refs)
    (hl : ∀ x ∈ lost, x ∈ F.refs) :
    Concur (.losing (if (act.perform w).1.isOk then lost else [])) ρ F act w act' w' P := by
  obtain ⟨a, b, v, v', hrun, hrun', hp⟩ | ⟨f, v, v', hrun, hrun', ρ', F', ho, hs, hk⟩ := Tandem.cases h
  · rw [hrun]
    exact tandem_of_ok hrun hrun' hp
  · rw [hrun]
    exact tandem_of_error hrun hrun' ⟨ρ', F', ho.lossless hl hk, hs, trivial⟩

/-- Acts whose results are put into another form. -/
theorem ConcurOr.giving {f : α → γ} {f' : β → δ} (h : ConcurOr E ρ F act w act' w' P Q)
    (hp : ∀ a b ρ' F' t', P a b ρ' F' t' → P' (f a) (f' b) ρ' F' t') :
    ConcurOr E ρ F (do return f (← act)) w (do return f' (← act')) w' P' Q :=
  h.bind fun a b ρ' F' _ _ hv _ hab => hv.concur_pure (hp a b ρ' F' _ hab)

/-- Acts that lose nothing, with their results in another form. -/
theorem ConcurOr.yields {f : α → γ} {f' : β → δ} (h : ConcurOr (.losing []) ρ F act w act' w' P Q)
    (hp : ∀ a b ρ' F' t', P a b ρ' F' t' → P' (f a) (f' b) ρ' F' t') :
    ConcurOr (.losing []) ρ F (do return f (← act)) w (do return f' (← act')) w' P'
      fun _ F' _ => F.refs ⊆ F'.refs :=
  (h.giving hp).keeping fun _ => List.not_mem_nil

end Concur

/-! ## Calls on nodes -/

/-- Two results are the same node, or no node, on both sides. -/
structure Store.SameNode {κ : Type} (ρ : Ref → Ref) (F : Forest κ) (r r' : Option Ref) : Prop where
  same : r' = r.map ρ
  mem : ∀ x ∈ r, x ∈ F.refs

namespace NodeCall

variable {κ : Type} {ρ : Ref → Ref} {F : Forest κ} {t s : Store κ}

/-- **A call on nodes** that drops none and closes no cycle concurs. If it is refused, nothing is lost. -/
theorem concur (call : NodeCall κ) (h : Twins ρ F t s) (ho : ∀ r ∈ call.operands, r ∈ F.refs)
    (ht : ∀ x ∈ call.targets, t.HasSlot x.1 x.2) (hh : ∀ x ∈ call.hangs, ¬t.ClosesCycle x.1 x.2)
    (hd : call.dropped t = []) :
    ConcurOr (.losing (call.released.toList.flatMap t.postOrder)) ρ F call.act t (call.rename ρ).act s
      (fun r r' ρ' F' _ => SameNode ρ' F' r r') fun _ F' _ => F.refs ⊆ F'.refs := by
  have hnothing : ∀ (ρ' : Ref → Ref) (F' : Forest κ), SameNode ρ' F' none none := fun _ _ => ⟨rfl, by simp⟩
  have hnode : ∀ {ρ' : Ref → Ref} {F' : Forest κ} {r r' : Ref}, r' = ρ' r → r ∈ F'.refs →
      SameNode ρ' F' (some r) (some r') := fun hs hr => ⟨congrArg some hs, fun x hx => Option.some.inj hx ▸ hr⟩
  have hopt : ∀ {x : Option Ref}, (∀ r ∈ x.toList, r ∈ call.operands) → ∀ c, x = some c → c ∈ F.refs :=
    fun hx c hc => ho c (hx c (by simp [hc]))
  cases call with
  | newVar source name =>
    exact (h.concur_newVar source name).yields fun _ _ _ _ _ hr => hnode hr.2.1 hr.2.2.1
  | newLiteral source v =>
    exact (h.concur_newLiteral source v).yields fun _ _ _ _ _ hr => hnode hr.1 hr.2.1
  | newBinary source op left right =>
    have hl := hopt (x := left) fun _ hx => List.mem_append_left _ hx
    have hr := hopt (x := right) fun _ hx => List.mem_append_right _ hx
    exact (h.concur_newBinary source op hl hr fun _ _ => trivial).yields fun _ _ _ _ _ hm => hnode hm.same hm.mem
  | newUnary source op operand =>
    exact (h.concur_newUnary source op (hopt fun _ => id) fun _ _ => trivial).yields
      fun _ _ _ _ _ hm => hnode hm.same hm.mem
  | setSlot owner slot child =>
    -- what is in the slot would still refer back to a node that may be handed out again
    have hempty : child = none → t.slot? owner slot = none := by
      rintro rfl
      simpa [dropped] using hd
    refine (h.concur_setSlot (ho owner List.mem_cons_self) (ht _ List.mem_cons_self) hempty (fun c hc => ?_)
      fun _ _ => trivial).yields fun _ _ _ _ _ _ => hnothing _ _
    subst hc
    exact ⟨ho c (by simp [operands]), hh (owner, c) (by simp [hangs])⟩
  | replaceChild owner old new =>
    have hold := hopt (x := old) fun _ hx => by simp [operands, Option.mem_toList.mp hx]
    refine ((h.concur_replaceChild (ho owner (by simp [operands])) old new hold (fun c hc => ?_)
      fun _ => trivial).within (Effect.links_within _)).yields fun _ _ _ _ _ _ => hnothing _ _
    subst hc
    exact ⟨ho c (by simp [operands]), hh (owner, c) (by simp [hangs])⟩
  | detach owner child =>
    have hold := hopt (x := child) fun _ hx => by simp [operands, Option.mem_toList.mp hx]
    exact ((h.concur_replaceChild (ho owner (by simp [operands])) child none hold (by simp)
      fun _ => trivial).within (Effect.links_within _)).yields fun _ _ _ _ _ _ => hnothing _ _
  | copy r =>
    exact ((h.concur_copy (ho r List.mem_cons_self)).mono fun _ _ _ _ _ hg =>
      ⟨hg.same, fun x hx => (hg.root x hx).1⟩).keeping fun _ => List.not_mem_nil
  | release r =>
    cases r with
    | none => exact h.abreast.concur_pure (hnothing _ _)
    | some r =>
      refine ConcurOr.giving ((h.concur_release (ho r List.mem_cons_self) (fun y hy => ?_) fun _ _ => trivial).weaken
        (fun _ _ _ _ _ => id) fun _ _ _ => And.left) fun _ _ _ _ _ _ => hnothing _ _
      exact List.mem_flatMap.mpr ⟨r, by simp [released], hy⟩

end NodeCall

/-! ## Steps -/

/-- Two replies are the same but for the names of the nodes, and what they give is there on both sides. -/
structure Reply.Agree {κ : Type} (ρ : Ref → Ref) (F : Forest κ) (t : Store κ) (a b : Reply κ) : Prop where
  same : b = a.rename ρ
  nodes : ∀ r ∈ a.nodes, r ∈ F.refs
  expressions : ∀ e ∈ a.expressions, e.place < t.roots.size ∧ ∀ r ∈ t.root? e, r ∈ F.refs

namespace Reply

variable {κ : Type} {ρ : Ref → Ref} {F : Forest κ} {t : Store κ}

/-- Replies that give no nodes and no expressions. -/
theorem agree_of_eq {a : Reply κ} (hn : a.nodes = []) (he : a.expressions = []) (ha : a.rename ρ = a) :
    Agree ρ F t a a :=
  ⟨ha.symm, by simp [hn], by simp [he]⟩

theorem agree_flag {p q : Prop} [Decidable p] [Decidable q] (h : q ↔ p) :
    Agree ρ F t (flag (decide p)) (flag (decide q)) := by
  rw [decide_eq_decide.mpr h]
  exact agree_of_eq rfl rfl rfl

theorem agree_node {r r' : Option Ref} (h : SameNode ρ F r r') : Agree ρ F t (node r) (node r') :=
  ⟨congrArg node h.same, fun x hx => h.mem x (Option.mem_toList.mp hx), by simp [expressions]⟩

theorem agree_expression {e e' : Expression} {n m : Nat} (h : Opened n m e e' F t) :
    Agree ρ F t (expression e) (expression e') := by
  refine ⟨congrArg expression h.same, fun _ hr => (List.not_mem_nil hr).elim, fun d hd => ?_⟩
  obtain rfl := List.mem_singleton.mp hd
  exact ⟨h.placed, fun r hr => (h.root r hr).1⟩

end Reply

namespace Step

variable {κ : Type} {ρ : Ref → Ref} {F : Forest κ} {t s : Store κ} {w w' : Workspace κ}

/-- A step is careful and tidy, and all it uses is in the forest. -/
structure Ready (F : Forest κ) (s : Store κ) (step : Step κ) : Prop where
  operands : ∀ r ∈ step.operands, r ∈ F.refs
  opens : ∀ e ∈ step.opens, ∀ r ∈ s.root? e, r ∈ F.refs
  targets : ∀ x ∈ step.targets, s.HasSlot x.1 x.2
  hangs : ∀ x ∈ step.hangs s, ¬s.ClosesCycle x.1 x.2
  tidy : step.Tidy s

/-- What a step gives back was in the forest. -/
theorem Ready.released {step : Step κ} (hs : step.Ready F t) (h : t.Bears F) : ∀ x ∈ step.released t, x ∈ F.refs := by
  cases step with
  | nodes call =>
    cases call with
    | release r =>
      intro x hx
      obtain ⟨y, hy, hxy⟩ := List.mem_flatMap.mp hx
      exact h.subset_postOrder (hs.operands y hy) hxy
    | _ => exact fun _ hx => nomatch hx
  | library call =>
    cases call with
    | release e =>
      intro x hx
      have hx : x ∈ Simplifier.schedule t e := hx
      unfold Simplifier.schedule at hx
      cases hr : t.root? e with
      | none => rw [hr] at hx; cases hx
      | some r =>
        rw [hr] at hx
        exact h.subset_postOrder (hs.opens e List.mem_cons_self r hr) hx
    | _ => exact fun _ hx => nomatch hx
  | replaceSubtree e target new => exact fun x hx => h.subset_postOrder (hs.operands target List.mem_cons_self) hx
  | _ => exact fun _ hx => nomatch hx

/-- What is among the operands is in the forest. -/
theorem Ready.slot {step : Step κ} {r : Option Ref} (hs : step.Ready F t) (hr : ∀ x ∈ r.toList, x ∈ step.operands) :
    ∀ x, r = some x → x ∈ F.refs :=
  fun x hx => hs.operands x (hr x (Option.mem_toList.mpr hx))

variable [Scalar κ] [Literal κ]

/-- **Calls of the library** concur, but for simplifications. If one is refused, nothing is lost. -/
theorem concur_library (call : Call κ) (h : Abreast ρ F w w') (hs : (library call).Ready F w.store)
    (hsimplify : (library call).simplified = none) :
    ConcurOr (.losing ((library call).released w.store)) ρ F call.act w call.act w'
      (fun a b ρ' F' t' => a.Agree ρ' F' t' b) fun _ F' _ => F.refs ⊆ F'.refs := by
  have htwins : Twins ρ F w.store w'.store := h.twins
  cases call with
  | readFormula limit text =>
    exact (Work.concur_readFormula h limit text).yields fun _ _ _ _ _ => Reply.agree_expression
  | readPolish text =>
    exact (Work.concur_readPolish h text).yields fun _ _ _ _ _ => Reply.agree_expression
  | copy e =>
    have hlive := hs.opens e List.mem_cons_self
    exact (Work.concur_onStore h (htwins.concur_copyExpression hlive)).yields
      fun _ _ _ _ _ => Reply.agree_expression
  | differentiate e v order simplifier =>
    have hlive := hs.opens e List.mem_cons_self
    exact ((Work.concur_differentiate h v order simplifier hlive).of_beyond h).yields
      fun _ _ _ _ _ => Reply.agree_expression
  | simplify σ e => cases hsimplify
  | expand plan e =>
    have hlive := hs.opens e List.mem_cons_self
    refine ((plan.concur_build h hlive).of_beyond h).yields ?_
    rintro _ result ρ' F' t' ⟨rfl, ho⟩
    refine ⟨rfl, fun _ hr => (List.not_mem_nil hr).elim, fun e he => ?_⟩
    have hok : result.outcome = .ok e := by
      cases hout : result.outcome with
      | error f => simp [Reply.expressions, hout, Except.toOption] at he
      | ok d =>
        have : d = e := by simpa [Reply.expressions, hout, Except.toOption, eq_comm] using he
        rw [this]
    exact ⟨(ho e hok).placed, fun r hr => ((ho e hok).root r hr).1⟩
  | release e =>
    have hlive := hs.opens e List.mem_cons_self
    refine ((Work.concur_onStore h (htwins.concur_releaseExpression trivial hlive (fun r hr y hy => ?_)
      fun _ _ => trivial)).weaken (fun _ _ _ _ _ => id) fun _ _ _ => And.left).giving
      fun _ _ _ _ _ _ => Reply.agree_of_eq rfl rfl rfl
    show y ∈ Simplifier.schedule w.store e
    rw [Simplifier.schedule, hr]
    exact hy

/-- **Steps** concur, but for simplifications. If one is refused, nothing is lost. -/
theorem concur_released (step : Step κ) (h : Abreast ρ F w w') (hs : step.Ready F w.store)
    (hsimplify : step.simplified = none) :
    ConcurOr (.losing (step.released w.store)) ρ F step.act w (step.rename ρ).act w'
      (fun a b ρ' F' t' => a.Agree ρ' F' t' b) fun _ F' _ => F.refs ⊆ F'.refs := by
  have htwins : Twins ρ F w.store w'.store := h.twins
  cases step with
  | nodes call =>
    exact (Work.concur_onStore h (call.concur htwins hs.operands hs.targets hs.hangs hs.tidy.dropped)).giving
      fun _ _ _ _ _ => Reply.agree_node
  | library call => exact concur_library call h hs hsimplify
  | newExpression r =>
    have hlive := hs.slot (r := r) fun _ => id
    refine (Work.concur_onStore h (htwins.concur_newExpression hlive)).yields ?_
    rintro e _ _ _ _ ⟨rfl, rfl, rfl, rfl, rfl⟩
    refine ⟨rfl, fun _ hr => (List.not_mem_nil hr).elim, fun d hd => ?_⟩
    obtain rfl := List.mem_singleton.mp hd
    refine ⟨by simp, fun x hx => hlive x ?_⟩
    rwa [root?_push, if_pos rfl] at hx
  | setRoot e r =>
    exact (Work.concur_onStore h (htwins.concur_setRoot trivial (hs.slot fun _ => id))).yields
      fun _ _ _ _ _ _ => Reply.agree_of_eq rfl rfl rfl
  | replaceSubtree e target new =>
    have hlive := hs.opens e List.mem_cons_self
    refine (Work.concur_onStore h (htwins.concur_replaceSubtree trivial (hs.operands target List.mem_cons_self) hlive
      (fun _ => id) (fun c hc => ⟨?_, fun owner ho => ?_⟩) fun _ => trivial)).giving
      fun _ _ _ _ _ _ => Reply.agree_of_eq rfl rfl rfl
    · exact hs.slot (fun _ => List.mem_cons_of_mem _) c hc
    · exact hs.hangs (owner, c) (by simp [hangs, ho, hc])
  | derive v r =>
    exact (Work.concur_derive h v (hs.slot fun _ => id)).yields fun _ _ _ _ _ hg =>
      Reply.agree_node ⟨hg.same, fun x hx => (hg.root x hx).1⟩
  | rootOf e =>
    have hlive := hs.opens e List.mem_cons_self
    exact Work.concur_look (h.concur_pure (Reply.agree_node ⟨htwins.roots e hlive, hlive⟩))
  | childOf r slot =>
    have hr := hs.operands r List.mem_cons_self
    exact Work.concur_look (h.concur_pure (Reply.agree_node
      ⟨htwins.renames.slot?_eq hr slot, fun x hx => htwins.renames.slots hr hx⟩))
  | parentOf r =>
    have hr := hs.operands r List.mem_cons_self
    exact Work.concur_look (h.concur_pure (Reply.agree_node
      ⟨htwins.renames.parent?_eq hr, fun x hx => htwins.renames.parents hr hx⟩))
  | isChild r slot c =>
    have hr := hs.operands r List.mem_cons_self
    have hc := hs.operands c (by simp [operands])
    exact Work.concur_look (h.concur_pure (Reply.agree_flag (htwins.renames.slot?_eq_iff hr hc slot)))
  | isParent r p =>
    have hr := hs.operands r List.mem_cons_self
    have hp := hs.operands p (by simp [operands])
    exact Work.concur_look (h.concur_pure (Reply.agree_flag (htwins.renames.parent?_eq_iff hr hp)))
  | same r x =>
    have hr := hs.operands r List.mem_cons_self
    have hx := hs.operands x (by simp [operands])
    exact h.concur_pure (Reply.agree_flag (htwins.renames.eq_iff hr hx))
  | treeOf r =>
    refine Work.concur_look (h.concur_pure ?_)
    rw [htwins.tree_map (hs.slot fun _ => id)]
    exact Reply.agree_of_eq rfl rfl rfl
  | evaluate σ r =>
    refine (Work.concur_evaluate h σ (hs.slot fun _ => id)).yields ?_
    rintro v _ _ _ _ rfl
    exact Reply.agree_of_eq rfl rfl rfl

/-- What a step gives back that is no simplification. -/
theorem returned_eq {step : Step κ} (h : step.simplified = none) (w : Workspace κ) :
    step.returned w = if (step.act.perform w).1.isOk then step.released w.store else [] := by
  cases step with
  | library call =>
    cases call with
    | simplify σ e => cases h
    | _ => rfl
  | _ => rfl

/-- **What a step does at both pools.** It is answered the same, and nothing is lost but what it gives back. -/
theorem concur (step : Step κ) (h : Abreast ρ F w w') (hs : step.Ready F w.store) :
    Concur (.losing (step.returned w)) ρ F step.act w (step.rename ρ).act w'
      fun a b ρ' F' t' => a.Agree ρ' F' t' b := by
  cases hsimplify : step.simplified with
  | none =>
    rw [returned_eq hsimplify]
    exact (concur_released step h hs hsimplify).settle (hs.released h.twins.bears)
  | some e =>
    -- a simplification says itself what is left of the tree, refused or not
    obtain ⟨σ, rfl⟩ : ∃ σ, step = library (.simplify σ e) := by
      cases step with
      | library call =>
        cases call with
        | simplify σ d =>
          cases hsimplify
          exact ⟨σ, rfl⟩
        | _ => cases hsimplify
      | _ => cases hsimplify
    have hlive := hs.opens e List.mem_cons_self
    refine (σ.concur_run h trivial (fun r hr => ⟨hlive r hr, hs.tidy.simplified e rfl r hr⟩) (fun x hx hgone => ?_)
      fun _ _ => trivial).giving ?_
    · exact List.mem_filter.mpr ⟨hx, by simpa using hgone⟩
    · rintro c _ _ _ _ ⟨rfl, -⟩
      exact Reply.agree_of_eq rfl rfl rfl

end Step

/-! ## Scripts -/

namespace Desk

variable {κ : Type} {ρ ρ' : Ref → Ref} {F F' : Forest κ} {given lost : List Ref} {d d' : Desk κ} {w w' : Workspace κ}
  {script : List (Step κ)}

/-- Two desks are alike, the first one at a pool that keeps nothing. What the script was given and did not
give back is in the forest, under the same numbers on both sides. -/
structure Alike (ρ : Ref → Ref) (F : Forest κ) (given : List Ref) (d d' : Desk κ) : Prop where
  abreast : Abreast ρ F d.workspace d'.workspace
  length : d'.nodes.length = d.nodes.length
  nodes : ∀ (k : Nat) (r : Ref), d.nodes[k]? = some r → r ∉ given → r ∈ F.refs ∧ d'.nodes[k]? = some (ρ r)
  expressions : d'.expressions = d.expressions
  roots : ∀ e ∈ d.expressions, e.place < d.store.roots.size ∧ ∀ r ∈ d.store.root? e, r ∈ given ∨ r ∈ F.refs
  replies : d'.replies = d.replies

/-- A step that is careful and tidy at the first of two desks can be made at both. -/
theorem Alike.ready (h : Alike ρ F given d d') {step : Step κ} (hc : Careful given d step) (ht : Tidy given d step) :
    (d.actual step).Ready F d.store ∧ d'.actual step = (d.actual step).rename ρ := by
  have hlive : ∀ k ∈ step.operands, d.node k ∉ given := fun k hk =>
    hc.careful.operands _ (by rw [actual, Step.operands_rename]; exact List.mem_map_of_mem hk)
  have hnodes : ∀ k ∈ step.operands, d.node k ∈ F.refs ∧ d'.node k = ρ (d.node k) := by
    intro k hk
    have hat : d.nodes[k]? = some (d.node k) := by simp [node, List.getD, hc.numbers k hk]
    obtain ⟨hmem, hat'⟩ := h.nodes k _ hat (hlive k hk)
    exact ⟨hmem, by rw [node, List.getD, hat', Option.getD_some]⟩
  refine ⟨⟨fun r hr => ?_, fun e he r hr => ?_, hc.careful.targets, hc.careful.hangs, ht⟩,
    Step.rename_of_operands fun k hk => (hnodes k hk).2⟩
  · rw [actual, Step.operands_rename] at hr
    obtain ⟨k, hk, rfl⟩ := List.mem_map.mp hr
    exact (hnodes k hk).1
  · have hmem : e ∈ d.expressions := hc.expressions e (Step.mem_expressions_of_opens he)
    exact ((h.roots e hmem).2 r hr).resolve_left (hc.careful.opens e he r hr)

/-- Desks are alike as far as their stores went on as twins. -/
theorem Alike.onward (h : Alike ρ F given d d') (ho : Onward (.losing lost) ρ F d.store ρ' F' w.store w'.store)
    (hs : w.warnings = w'.warnings) :
    Alike ρ' F' (lost ++ given) { d with workspace := w } { d' with workspace := w' } := by
  refine ⟨⟨ho.twins, hs⟩, h.length, fun k r hk hlive => ?_, h.expressions, fun e he => ?_, h.replies⟩
  · obtain ⟨hmem, hname⟩ := h.nodes k r hk fun hm => hlive (List.mem_append_right _ hm)
    have hmem' : r ∈ F'.refs := ho.kept r hmem fun hm => hlive (List.mem_append_left _ hm)
    exact ⟨hmem', hname.trans (congrArg some (ho.name_eq h.abreast.twins hmem hmem').symm)⟩
  · obtain ⟨hplace, hroot⟩ := h.roots e he
    refine ⟨Nat.lt_of_lt_of_le hplace ho.places, fun r hr => ?_⟩
    -- the root is the one it was, or one that is there or was lost
    rcases ho.rooted e hplace with hsame | hnew
    · rcases hroot r (hsame ▸ hr) with hg | hmem
      · exact .inl (List.mem_append_right _ hg)
      · by_cases hl : r ∈ lost
        · exact .inl (List.mem_append_left _ hl)
        · exact .inr (ho.kept r hmem hl)
    · exact ((hnew r hr).symm).imp_left (List.mem_append_left _)

/-- Desks stay alike when the same reply is recorded. -/
theorem Alike.record (h : Alike ρ F given d d') {a b : Reply κ} (hab : a.Agree ρ F d.store b) :
    Alike ρ F given (d.record d.workspace (.ok a)) (d'.record d'.workspace (.ok b)) := by
  obtain rfl := hab.same
  refine ⟨h.abreast, ?_, fun k r hk hlive => ?_, ?_, fun e he => ?_, ?_⟩
  · simp [Desk.record, h.length, Reply.nodes_rename]
  · simp only [Desk.record, Reply.nodes_rename, List.getElem?_append, h.length] at hk ⊢
    by_cases hlt : k < d.nodes.length
    · rw [if_pos hlt] at hk ⊢
      exact h.nodes k r hk hlive
    · rw [if_neg hlt] at hk ⊢
      exact ⟨hab.nodes r (List.mem_of_getElem? hk), by rw [List.getElem?_map, hk, Option.map_some]⟩
  · simp [Desk.record, h.expressions, Reply.expressions_rename]
  · rcases List.mem_append.mp he with he | he
    · exact h.roots e he
    · exact (hab.expressions e he).imp_right fun hr r hm => .inr (hr r hm)
  · simp [Desk.record, h.replies, h.length, Reply.numbered_rename]

variable [Scalar κ] [Literal κ]

/-- **One step** keeps desks alike. -/
theorem Alike.perform (h : Alike ρ F given d d') {step : Step κ} (hc : Careful given d step)
    (ht : Tidy given d step) :
    ∃ ρ' F', Alike ρ' F' ((d.actual step).returned d.workspace ++ given) (d.perform step) (d'.perform step) := by
  obtain ⟨hready, hsame⟩ := h.ready hc ht
  unfold Desk.perform
  rw [hsame]
  obtain ⟨a, b, v, v', hrun, hrun', ρ', F', ho, hs, hab⟩ | ⟨f, v, v', hrun, hrun', ρ', F', ho, hs, -⟩ :=
    Tandem.cases (Step.concur (d.actual step) h.abreast hready)
  · rw [hrun, hrun']
    exact ⟨ρ', F', (h.onward ho hs).record hab⟩
  · rw [hrun, hrun']
    have hmoved := h.onward ho hs
    exact ⟨ρ', F', hmoved.abreast, hmoved.length, hmoved.nodes, hmoved.expressions, hmoved.roots,
      congrArg (· ++ [Except.error f]) h.replies⟩

/-- **A script** keeps desks alike. -/
theorem Alike.play (h : Alike ρ F given d d') (hc : Along Careful given d script) (ht : Along Tidy given d script) :
    ∃ ρ' F' given', Alike ρ' F' given' (d.play script) (d'.play script) := by
  induction script generalizing ρ F given d d' with
  | nil => exact ⟨ρ, F, given, h⟩
  | cons step script ih =>
    obtain ⟨ρ', F', h'⟩ := h.perform hc.1 ht.1
    exact ih h' hc.2 ht.2

omit [Scalar κ] [Literal κ] in
/-- New desks are alike. -/
theorem alike_opened [Coefficient κ] (level : Level) (initial room : Int) :
    Alike id ([] : Forest κ) [] (opened level 0 0) (opened level initial room) := by
  have hroots : ∀ initial room : Int, (stocked initial room : Store κ).roots = #[] := roots_stocked
  have hnone : ∀ (initial room : Int) (e : Expression), (stocked initial room : Store κ).root? e = none :=
    fun initial room e => by simp [root?, hroots]
  have hapart : ∀ initial room : Int, (stocked initial room : Store κ).Apart [] := fun initial room =>
    (stocked_linked initial room).apart
  have hbears : (stocked 0 0 : Store κ).Bears [] := ⟨by simp, by simp, hapart 0 0⟩
  have htwins : Twins id ([] : Forest κ) (stocked 0 0) (stocked initial room) := {
    idle := idle_stocked
    bears := hbears
    renames := hbears.renames List.nodup_nil (by simp)
    apart := hapart initial room
    places := congrArg Array.size ((hroots initial room).trans (hroots 0 0).symm)
    bound := fun e r hr => absurd hr (by simp [hnone])
    roots := fun e _ => by simp [hnone] }
  exact ⟨⟨htwins, rfl⟩, rfl, by simp [opened], rfl, by simp [opened], rfl⟩

/-- **Recycling is transparent.** A script that uses no node it gave back, and assigns nothing to a slot that
holds a node and simplifies no expression whose root was hung into a slot, is answered the same at every pool
as at one that keeps nothing, and gets the same warnings. -/
theorem play_transparent (level : Level) (initial room : Int) (script : List (Step κ))
    (hc : Along Careful [] (opened level 0 0) script) (ht : Along Tidy [] (opened level 0 0) script) :
    ((opened level initial room).play script).replies = ((opened level 0 0).play script).replies ∧
      ((opened level initial room).play script).workspace.warnings =
        ((opened level 0 0).play script).workspace.warnings := by
  obtain ⟨ρ, F, given, h⟩ := (alike_opened level initial room).play hc ht
  exact ⟨h.replies, h.abreast.said.symm⟩

/-- A script whose later nodes are handed out again from those of an expression that was given back. -/
def recycled : List (Step Float) :=
  [.library (.readFormula 100 "x+x"), .library (.differentiate ⟨0⟩ (some "x") 1 none), .library (.release ⟨0⟩),
    .nodes (.newVar .pool (some "y")), .nodes (.newUnary .pool (.known .sin) (some 0)), .derive (some "y") (some 0),
    .nodes (.detach 1 (some 0)), .nodes (.release (some 1)), .rootOf ⟨1⟩, .childOf 3 .left, .parentOf 4,
    .same 3 5, .isParent 0 2, .treeOf (some 2), .treeOf (some 3), .library (.readFormula 100 "y*(z+x")]

theorem play_transparent_recycled :
    Along Careful [] (opened .minimal 0 0) recycled ∧ Along Tidy [] (opened .minimal 0 0) recycled ∧
      ((opened .minimal 4 2).play recycled).replies = ((opened .minimal 0 0).play recycled).replies ∧
      ((opened .minimal 4 2).play recycled).workspace.warnings =
        ((opened .minimal 0 0).play recycled).workspace.warnings := by
  have hc : Along Careful [] (opened .minimal 0 0) recycled := by decide +kernel
  have ht : Along Tidy [] (opened .minimal 0 0) recycled := by decide +kernel
  exact ⟨hc, ht, play_transparent .minimal 4 2 recycled hc ht⟩

/-! ### Scripts that are not tidy -/

/-- What the last reply says, if it is a yes or no. -/
def verdict? {κ : Type} (replies : List (Except Fault (Reply κ))) : Option Bool :=
  match replies.getLast? with
  | some (.ok (.flag b)) => some b
  | _ => none

/-- Empties a slot by assignment, gives its owner back and makes another node; asks in the end whether what
was in the slot refers back to the new node. -/
def emptying : List (Step Float) :=
  [.nodes (.newVar .pool (some "x")), .nodes (.newUnary .pool (.known .sin) (some 0)),
    .nodes (.setSlot 1 .operand none), .nodes (.release (some 1)),
    .nodes (.newUnary .pool (.known .cos) none), .isParent 0 2]

/-- **The reference back that emptying a slot leaves behind** is one to the next node made, where the pool
hands the owner of the slot out again. -/
theorem emptying_betrays_recycling : Along Careful [] (opened .minimal 0 0) emptying ∧
    ((opened .minimal 400 500).play emptying).replies ≠ ((opened .minimal 0 0).play emptying).replies := by
  refine ⟨by decide +kernel, fun h => ?_⟩
  have hpooled : verdict? ((opened .minimal 400 500).play emptying).replies = some true := by decide +kernel
  have hbare : verdict? ((opened .minimal 0 0).play emptying).replies = some false := by decide +kernel
  rw [h, hbare] at hpooled
  cases hpooled

/-- Hangs the root of an expression into a slot, simplifies the expression and makes two nodes; asks in the
end whether they are the same. -/
def adopting : List (Step Float) :=
  [.nodes (.newVar .pool (some "x")), .nodes (.newVar .pool (some "x")),
    .nodes (.newBinary .pool (.known .sub) (some 0) (some 1)), .newExpression (some 2),
    .nodes (.newUnary .pool (.known .sin) (some 2)),
    .library (.simplify (.standard (some "x") (fun _ => none) 100) ⟨0⟩),
    .nodes (.newBinary .pool (.known .add) none none), .nodes (.newBinary .pool (.known .mul) none none),
    .same 4 5]

/-- **A root that was hung into a slot** is replaced there, not in the expression, and then simplified once
more. It is given back twice, and the pool hands it out twice. -/
theorem adopting_betrays_recycling : Along Careful [] (opened .minimal 0 0) adopting ∧
    ((opened .minimal 400 500).play adopting).replies ≠ ((opened .minimal 0 0).play adopting).replies := by
  refine ⟨by decide +kernel, fun h => ?_⟩
  have hpooled : verdict? ((opened .minimal 400 500).play adopting).replies = some true := by decide +kernel
  have hbare : verdict? ((opened .minimal 0 0).play adopting).replies = some false := by decide +kernel
  rw [h, hbare] at hpooled
  cases hpooled

end Desk

end Fluxion
