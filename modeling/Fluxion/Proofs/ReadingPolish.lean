import Fluxion.Proofs.PlainReading
import Fluxion.Proofs.Planting

/-!
# Reading Polish notation in the store

The reader of Polish notation is a loop over open brackets, the parser goes down one level for every
bracket. Reading a tree inside open brackets comes to the same as parsing it: where the parser gives a
tree, the loop has built this tree and goes on as if its root had just been put into the innermost
bracket; where the parser fails, the loop is refused with the same fault, and what the open brackets
held is given back with all that was made since. The two are compared on one tree at a time, by
induction on the levels of the parser, so a bracket is compared by way of its two trees.

* `Polish.Held` says which trees the open brackets hold.
* `Polish.makeNode_follows` makes a node of a bracket.
* `Polish.readTree_resumes` compares the loop with the parser.
* `Polish.read_follows` is about whole texts.
-/

namespace Fluxion

namespace Planted

variable {κ : Type}

theorem isNone_ref? (p : Planted κ) : p.ref?.isNone = p.tree.isAbsent := by
  cases p <;> rfl

theorem eq_absent_of_isAbsent {p : Planted κ} (h : p.tree.isAbsent = true) : p = absent := by
  cases p <;> first | rfl | cases h

end Planted

namespace Store

variable {κ : Type} {s t u : Store κ} {b : Int} {used : List Ref} {p : Planted κ}

theorem built_absent (h : s.Accounted b used) : Built b used s .absent s :=
  ⟨⟨trivial, h, .refl _ _⟩, Pool.drawn_refl _⟩

/-- An empty tree that was read behind another one makes no difference. -/
theorem Built.before_absent (hp : Built b used s p t) (h : Built b (p.refs ++ used) t .absent u) :
    Built b used s p u :=
  ⟨⟨hp.stands.kept h.kept (List.subset_append_left _ _), h.accounted,
    hp.kept.trans (h.kept.subset (List.subset_append_right _ _))⟩, hp.pool.trans h.pool⟩

/-- An empty tree that was read before another one makes no difference. -/
theorem Built.after_absent (h : Built b used s .absent t) (hp : Built b used t p u) :
    Built b used s p u := by
  refine ⟨⟨hp.stands, hp.accounted, h.kept.trans hp.kept⟩, ?_⟩
  simpa [Planted.tree, Tree.count] using h.pool.trans hp.pool

end Store

namespace Polish

open Act Store

variable {κ : Type} {text : String} {s t u : Store κ} {b : Int} {used : List Ref} {p q : Planted κ}
  {value : Token} {ts : List Token}

/-! ## Open brackets -/

/-- The open brackets hold these trees, which stand beside what is in use. -/
structure Held (b : Int) (used : List Ref) (frames : List Frame) (qs : List (Planted κ))
    (s : Store κ) : Prop where
  refs : qs.map (·.ref?) = held frames
  trees : ∀ q ∈ qs, q.In s none
  accounted : s.Accounted b (qs.flatMap (·.refs) ++ used)

variable {frames : List Frame} {slots : List (Option Ref)} {qs : List (Planted κ)}

theorem held_cons (value : Token) (slots : List (Option Ref)) (frames : List Frame) :
    held (⟨value, slots⟩ :: frames) = held frames ++ slots := by
  simp [held]

theorem Held.opened (h : Held b used frames qs s) (value : Token) :
    Held b used (⟨value, []⟩ :: frames) qs s :=
  ⟨by rw [held_cons, List.append_nil, h.refs], h.trees, h.accounted⟩

theorem Held.kept (h : Held b used frames qs s) (hk : Kept (qs.flatMap (·.refs) ++ used) s t)
    (ha : t.Accounted b (qs.flatMap (·.refs) ++ used)) : Held b used frames qs t :=
  ⟨h.refs, fun q hq => (h.trees q hq).kept hk fun _ hx =>
    List.mem_append_left _ (List.mem_flatMap_of_mem hq hx), ha⟩

/-- One tree more is held by the innermost bracket. -/
theorem Held.push (h : Held b used (⟨value, slots⟩ :: frames) qs s)
    (hp : Built b (qs.flatMap (·.refs) ++ used) s p t) :
    Held b used (⟨value, slots ++ [p.ref?]⟩ :: frames) (qs ++ [p]) t := by
  refine ⟨?_, ?_, ?_⟩
  · have hrefs := h.refs
    rw [held_cons] at hrefs ⊢
    rw [List.map_append, hrefs, List.append_assoc]
    rfl
  · intro q hq
    rcases List.mem_append.mp hq with hq | hq
    · exact (h.trees q hq).kept hp.kept fun _ hx =>
        List.mem_append_left _ (List.mem_flatMap_of_mem hq hx)
    · rw [List.mem_singleton.mp hq]
      exact hp.stands
  · refine hp.accounted.perm (List.perm_iff_count.mpr fun x => ?_)
    simp only [List.flatMap_append, List.flatMap_singleton, List.count_append]
    omega

/-- The number of nodes of each kind in some trees. -/
def counts (qs : List (Planted κ)) (k : Kind) : Nat := (qs.map (·.tree.count k)).sum

theorem counts_append (qs : List (Planted κ)) (p : Planted κ) (k : Kind) :
    counts (qs ++ [p]) k = p.tree.count k + counts qs k := by
  simp [counts]
  omega

/-- Giving up gives back all that the open brackets hold. -/
theorem Held.refuse (h : Held b used frames qs s) (f : Failure) {α : Type} :
    (refuse text frames f : Act (Store κ) α).Ensures s (fun _ _ => False) fun f' t =>
      f' = f.fault text ∧ Freed b used (counts qs) s t := by
  unfold Polish.refuse
  have hfree := forM_release_spec qs h.trees h.accounted
  rw [h.refs] at hfree
  exact hfree.bind fun _ t ht => ensures_throw ⟨rfl, ht⟩

/-! ## Making nodes -/

variable [Literal κ]

/-- **A node is made of two slots as the parser does.** Where the value does not fit, nothing is made. -/
theorem makeNode_follows (text : String) (value : Token) (ts : List Token) (hp : Built b used s p t)
    (hq : Built b (p.refs ++ used) t q u) :
    (makeNode text value p.ref? q.ref? ts).Follows u
      ((build value p.tree q.tree).mapError fun c => Failure.fault text ⟨c, ts⟩)
      (fun r tree v => BuiltAt b used s (some r) tree v)
      (fun v => v = u) := by
  unfold makeNode build
  simp only [Planted.isNone_ref?]
  split
  · exact follows_throw rfl
  cases Operation.ofSymbol? value.text with
  | some op =>
    dsimp only
    split
    · split
      · exact follows_throw rfl
      · exact (hp.newBinary (.known op) hq).follows_ok fun r v hv => ⟨_, rfl, rfl, hv⟩
    · split
      · exact follows_throw rfl
      · rename_i hab
        simp only [Bool.or_eq_true, Bool.not_eq_true', not_or, Bool.not_eq_false] at hab
        obtain rfl := Planted.eq_absent_of_isAbsent hab.2
        exact ((hp.before_absent hq).newUnary (.known op)).follows_ok fun r v hv => ⟨_, rfl, rfl, hv⟩
  | none =>
    dsimp only
    split
    · exact follows_throw rfl
    rename_i hab
    simp only [Bool.or_eq_true, Bool.not_eq_true', not_or, Bool.not_eq_false] at hab
    obtain rfl := Planted.eq_absent_of_isAbsent hab.1
    obtain rfl := Planted.eq_absent_of_isAbsent hab.2
    have hu := hp.before_absent hq
    split
    · rename_i hletter
      exact (newVar_built hu.accounted hletter).follows_ok fun r v hv =>
        ⟨_, rfl, rfl, hu.after_absent hv⟩
    · cases Numeral.read? value.chars with
      | none => exact follows_throw rfl
      | some n =>
        exact (newLiteral_built hu.accounted _).follows_ok fun r v hv =>
          ⟨_, rfl, rfl, hu.after_absent hv⟩

/-! ## Closing brackets -/

section

variable (h : Held b used frames qs s) (hp : Built b (qs.flatMap (·.refs) ++ used) s p t)
  (hq : Built b ((qs ++ [p]).flatMap (·.refs) ++ used) t q u)

omit [Literal κ] in
include h hp hq in
/-- Giving back what a bracket with two children and the brackets around it hold. -/
theorem givenUp_of_held (value : Token) :
    ((held (⟨value, [p.ref?, q.ref?]⟩ :: frames)).forM release).Succeeds u fun _ v =>
      GivenUp b used (counts qs) s v := by
  have hboth : Held b used (⟨value, [p.ref?, q.ref?]⟩ :: frames) (qs ++ [p] ++ [q]) u :=
    ((h.opened value).push hp).push hq
  have hfree := forM_release_spec _ hboth.trees hboth.accounted
  rw [hboth.refs] at hfree
  refine hfree.mono fun _ v hv => ?_
  have hfirst : GivenUp b used (counts (qs ++ [p])) t v :=
    hq.givenUp (List.subset_append_right _ _) hv.givenUp (counts_append _ _)
  exact hp.givenUp (List.subset_append_right _ _) hfirst (counts_append _ _)

omit [Literal κ] in
include h in
/-- Giving back a node that was made and what the brackets around it hold. -/
theorem refuse_of_made {n : Planted κ} {v : Store κ} (hn : Built b (qs.flatMap (·.refs) ++ used) s n v)
    (f : Failure) {α γ : Type} {link : α → γ → Store κ → Prop} :
    (do release n.ref?; refuse text frames f : Act (Store κ) α).Follows v (.error (f.fault text)) link
      (GivenUp b used (counts qs) s) := by
  refine (release_spec hn.stands hn.accounted).follows fun _ w hw => ?_
  have hkept : Held b used frames qs w := h.kept (hn.kept.trans hw.kept) hw.accounted
  refine (hkept.refuse f).mono (fun _ _ => False.elim) ?_
  rintro _ x ⟨rfl, hx⟩
  refine ⟨rfl, hn.givenUp (List.subset_append_right _ _) (hw.trans hx).givenUp fun _ => rfl⟩

include h hp hq in
/-- **A bracket is closed as the parser does**; where that fails, what all brackets held is given back. -/
theorem closeBracket_follows (text : String) (value : Token) (ts : List Token) :
    (closeBracket text value p.ref? q.ref? frames ts).Follows u
      ((close value p.tree q.tree ts).mapError (Failure.fault text))
      (fun x y v => x.2 = y.2 ∧ BuiltAt b (qs.flatMap (·.refs) ++ used) s (some x.1) y.1 v)
      (GivenUp b used (counts qs) s) := by
  have hq' : Built b (p.refs ++ (qs.flatMap (·.refs) ++ used)) t q u :=
    hq.perm (by simpa using (List.perm_append_comm_assoc _ _ _))
  have hmake := (makeNode_follows text value ts hp hq').onMalformed (fun _ => ⟨_, _, _, rfl⟩)
    fun _ _ v hv => hv ▸ givenUp_of_held h hp hq value
  unfold closeBracket close
  generalize build value p.tree q.tree = result at hmake ⊢
  apply Follows.branch result hmake (fun _ => rfl)
  rintro r tree v ⟨n, hr, rfl, hn⟩
  rw [← hr]
  cases ts with
  | nil => exact refuse_of_made h hn _
  | cons c rest =>
    dsimp only
    split
    · exact follows_pure ⟨rfl, n, hr, rfl, hn⟩
    · exact refuse_of_made h hn _

end

/-! ## The loop -/

/-- Goes on with a node that was just finished. -/
def resume (text : String) (rounds : Nat) (node : Option Ref) (frames : List Frame) (ts : List Token) :
    Act (Store κ) (Option Ref × List Token) := do
  match ← fill text node frames ts with
  | .finished root rest => pure (root, rest)
  | .inside frames rest => readTree text rounds frames rest

/-- What the loop comes to inside open brackets where the parser makes `result` of the tokens: it goes
on behind the tree that was parsed, or all is given back. -/
def Resumes (text : String) (b : Int) (used : List Ref) (frames : List Frame) (qs : List (Planted κ))
    (s : Store κ) (ts : List Token) (run : Act (Store κ) (Option Ref × List Token)) :
    Except Failure (Tree κ × List Token) → Prop
  | .ok (tree, rest) => ∃ (p : Planted κ) (t : Store κ) (rounds : Nat), p.tree = tree ∧
      Built b (qs.flatMap (·.refs) ++ used) s p t ∧ rest.length < ts.length ∧ rest.length < rounds ∧
      run.perform s = (resume text rounds p.ref? frames rest).perform t
  | .error f => run.Ensures s (fun _ _ => False) fun f' t =>
      f' = f.fault text ∧ GivenUp b used (counts qs) s t

/-- A second child closes its bracket. -/
theorem resume_second (rounds : Nat) (value : Token) (l r : Option Ref) (frames : List Frame)
    (ts : List Token) :
    (resume text rounds r (⟨value, [l]⟩ :: frames) ts : Act (Store κ) (Option Ref × List Token)) =
      closeBracket text value l r frames ts >>= fun x => resume text rounds (some x.1) frames x.2 := by
  simp only [resume, fill, List.cons_append, List.nil_append, bind_assoc]

theorem length_of_close {l r : Tree κ} {x : Tree κ × List Token} (h : close value l r ts = .ok x) :
    x.2.length < ts.length := by
  unfold close at h
  split at h
  · cases h
  split at h
  · cases h
  split at h
  · cases h
    exact Nat.lt_succ_self _
  · cases h

/-- The loop goes on behind a bracket that was closed. -/
theorem resumes_close {rounds : Nat} {before : List Token} (h : Held b used frames qs s)
    (hp : Built b (qs.flatMap (·.refs) ++ used) s p t)
    (hq : Built b ((qs ++ [p]).flatMap (·.refs) ++ used) t q u) (hts : ts.length < before.length)
    (hr : ts.length < rounds) {run : Act (Store κ) (Option Ref × List Token)}
    (hrun : run.perform s =
      (resume text rounds q.ref? (⟨value, [p.ref?]⟩ :: frames) ts).perform u) :
    Resumes text b used frames qs s before run (close value p.tree q.tree ts) := by
  have hclose := closeBracket_follows h hp hq text value ts
  rw [resume_second] at hrun
  cases hc : close value p.tree q.tree ts with
  | error f =>
    rw [hc] at hclose
    exact (hclose.refused.bind fun _ _ => False.elim).of_perform hrun
  | ok x =>
    rw [hc] at hclose
    have hlt := length_of_close hc
    obtain ⟨⟨node, rest⟩, v, hv, rfl, n, hn, htree, hbuilt⟩ := hclose.succeeds.exists
    refine ⟨n, v, rounds, htree, hbuilt, by omega, by omega, ?_⟩
    rw [hrun, perform_bind, hv, hn]

/-- The loop goes on behind the second tree of a bracket, once it stands behind the first one. -/
theorem resumes_second {rounds : Nat} {rest before : List Token} {result : Except Failure (Tree κ × List Token)}
    (h : Held b used frames qs s) (hp : Built b (qs.flatMap (·.refs) ++ used) s p t)
    (hrest : rest.length < before.length) {run : Act (Store κ) (Option Ref × List Token)}
    (hrun : run.perform s = (readTree text rounds (⟨value, [p.ref?]⟩ :: frames) rest).perform t) :
    Resumes text b used (⟨value, [p.ref?]⟩ :: frames) (qs ++ [p]) t rest
        (readTree text rounds (⟨value, [p.ref?]⟩ :: frames) rest) result →
      Resumes text b used frames qs s before run
        (match result with
        | .error f => .error f
        | .ok (r, rest) => close value p.tree r rest) := by
  intro hright
  cases result with
  | error f =>
    refine (Ensures.mono hright (fun _ _ => id) ?_).of_perform hrun
    rintro _ u ⟨hf, hu⟩
    exact ⟨hf, hp.givenUp (List.subset_append_right _ _) hu (counts_append _ _)⟩
  | ok y =>
    obtain ⟨r, rest'⟩ := y
    obtain ⟨q, u, rounds, rfl, hq, hlt, hr, hrun'⟩ := hright
    exact resumes_close h hp hq (by omega) hr (hrun.trans hrun')

/-- **The loop goes on behind a tree as the parser does**, whatever brackets are open. -/
theorem readTree_resumes (text : String) {levels : Nat} (rounds : Nat) (ts : List Token)
    (h : Held b used frames qs s) (hl : ts.length < levels) (hr : ts.length < rounds) :
    Resumes text b used frames qs s ts (readTree text rounds frames ts)
      (tree levels ts : Except Failure (Tree κ × List Token)) := by
  induction levels generalizing rounds frames qs s ts with
  | zero => exact absurd hl (Nat.not_lt_zero _)
  | succ levels ih =>
    obtain ⟨rounds, rfl⟩ : ∃ n, rounds = n + 1 := ⟨rounds - 1, by omega⟩
    have hrefuse : ∀ f, (refuse text frames f : Act (Store κ) (Option Ref × List Token)).Ensures s
        (fun _ _ => False) fun f' t => f' = f.fault text ∧ GivenUp b used (counts qs) s t := fun f =>
      (h.refuse f).mono (fun _ _ => id) fun _ _ ⟨hf, hfree⟩ => ⟨hf, hfree.givenUp⟩
    cases ts with
    | nil => exact hrefuse _
    | cons c ts =>
      unfold readTree tree
      split
      · cases ts with
        | nil => exact hrefuse _
        | cons value ts =>
          simp only [List.length_cons] at hl hr
          have hleft := ih rounds ts (h.opened value) (by omega) (by omega)
          dsimp only
          cases hl' : (tree levels ts : Except Failure (Tree κ × List Token)) with
          | error f =>
            rw [hl'] at hleft
            exact hleft
          | ok x =>
            rw [hl'] at hleft
            obtain ⟨l, rest⟩ := x
            obtain ⟨p, t, rounds, rfl, hp, hlt, hr, hrun⟩ := hleft
            have hright := ih rounds rest ((h.opened value).push hp) (by omega) hr
            exact resumes_second h hp (Nat.lt_succ_of_lt (Nat.lt_succ_of_lt hlt)) hrun hright
      · split
        · refine ⟨.absent, s, rounds, rfl, ?_, ?_, ?_, rfl⟩
          · exact built_absent h.accounted
          · exact Nat.lt_succ_self _
          · exact Nat.lt_of_succ_lt_succ hr
        · exact hrefuse _

/-- **A text in Polish notation is read as it is parsed**, and where it does not read nothing is left
behind. -/
theorem read_follows (text : String) (h : s.Accounted b used) :
    (read text).Follows s
      ((parse text.toList : Except Failure (Tree κ)).mapError (Failure.fault text))
      (fun r tree t => BuiltAt b used s r tree t) (Undone b used s) := by
  have hnone : Held b used [] [] s := ⟨rfl, by simp, h⟩
  have htree := readTree_resumes text _ _ hnone (Nat.lt_succ_self (tokens text.toList).length)
    (Nat.lt_succ_self _)
  unfold read parse
  dsimp only
  cases htree' : (tree ((tokens text.toList).length + 1) (tokens text.toList) :
      Except Failure (Tree κ × List Token)) with
  | error f =>
    rw [htree'] at htree
    refine Ensures.bind (Ensures.mono htree (fun _ _ => id) ?_) fun _ _ => False.elim
    rintro _ t ⟨rfl, ht⟩
    exact ⟨rfl, ht⟩
  | ok x =>
    rw [htree'] at htree
    obtain ⟨tree, rest⟩ := x
    obtain ⟨p, t, rounds, rfl, hp, -, -, hrun⟩ := htree
    have hp : Built b used s p t := hp
    have hread : (readTree text ((tokens text.toList).length + 1) [] (tokens text.toList)).Succeeds s
        fun x t' => x = (p.ref?, rest) ∧ t' = t := ensures_of_ok hrun ⟨rfl, rfl⟩
    refine hread.follows ?_
    rintro _ _ ⟨rfl, rfl⟩
    cases rest with
    | nil => exact follows_pure ⟨p, rfl, rfl, hp⟩
    | cons next rest =>
      exact (release_spec hp.stands hp.accounted).follows fun _ u hu =>
        follows_throw (hp.undone hu fun _ => rfl)

end Polish

end Fluxion
