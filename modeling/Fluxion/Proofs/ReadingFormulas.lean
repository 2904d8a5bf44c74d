import Fluxion.Proofs.PlainReading
import Fluxion.Proofs.Planting

/-!
# Reading formulas in the store

A reader of formulas follows the parser of the same part. Where the parser gives a tree, the reader
has built this tree beside all that is in use, and has taken just its nodes from the pool. Where the
parser fails, the reader is refused with the same fault and has given back every node it took. The
second half is what the releases on the way out are for: a reader that holds finished subtrees gives
up what failed below it together with its own.

* `Formula.Faithful` says that a reader follows a parser.
* `Formula.faithful_sum` and the lemmas before it go through the grammar, part by part.
* `Formula.read_follows` is about whole texts.
-/

namespace Fluxion

namespace Formula

open Act Store

variable {κ α γ : Type} {text : String} {s t u : Store κ} {b : Int} {used : List Ref} {p q : Planted κ}

/-- An act follows what a parser gives: it reads the same tree, or is refused with the same failure and
leaves nothing behind. -/
abbrev Tracks (text : String) (b : Int) (used : List Ref) (s₀ : Store κ) (act : Act (Store κ) (Ref × List Char))
    (s : Store κ) (result : Except Failure (Tree κ × List Char)) : Prop :=
  act.Follows s (result.mapError (Failure.fault text))
    (fun x y t => x.2 = y.2 ∧ BuiltAt b used s₀ (some x.1) y.1 t) (Undone b used s₀)

/-- A reader follows a parser from every store. -/
def Faithful (text : String) (reader : Reader κ) (parser : Parser κ) : Prop :=
  ∀ {s : Store κ} {b : Int} {used : List Ref} (rest : List Char), s.Accounted b used →
    Tracks text b used s (reader rest) s (parser rest)

/-! ## Giving back on the way out -/

/-- What fails while a reader holds a tree: the tree is given back too. -/
theorem follows_orRelease {act : Act (Store κ) α} {result : Except Failure γ}
    {link : α → γ → Store κ → Prop} {r : Ref} (hr : p.ref? = some r) (hp : Built b used s p t)
    (h : act.Follows t (result.mapError (Failure.fault text)) link (Undone b (p.refs ++ used) t)) :
    (orRelease r act).Follows t (result.mapError (Failure.fault text)) link (Undone b used s) := by
  refine h.onMalformed (fun _ => ⟨_, _, _, rfl⟩) fun _ _ u hu => ?_
  have hpu : p.In u none := hp.stands.kept hu.kept (List.subset_append_left _ _)
  rw [← hr]
  refine (release_spec hpu hu.accounted).mono fun _ v hv => ?_
  exact hp.givenUp (List.Subset.refl _) (hu.freed hv) fun k => by omega

theorem release_none (h : s.Accounted b used) :
    (([] : List Ref).forM fun r => release (some r)).Succeeds s fun _ t => Undone b used s t :=
  ensures_pure (undone_refl h)

/-- Giving back one tree that is held. -/
theorem release_one {r : Ref} (hr : p.ref? = some r) (hp : Built b used s p t) :
    ([r].forM fun r => release (some r)).Succeeds t fun _ u => Undone b used s u := by
  have hfree := forM_release_spec [p] (by simpa using hp.stands) (by simpa using hp.accounted)
  rw [List.map_singleton, hr] at hfree
  exact hfree.mono fun _ u hu => hp.undone hu fun k => by simp

/-- Giving back two trees that are held, the second of which was read behind the first. -/
theorem release_two {r r' : Ref} (hr : p.ref? = some r) (hr' : q.ref? = some r') (hp : Built b used s p t)
    (hq : Built b (p.refs ++ used) t q u) :
    ([r, r'].forM fun r => release (some r)).Succeeds u fun _ v => Undone b used s v := by
  have hpu : p.In u none := hp.stands.kept hq.kept (List.subset_append_left _ _)
  have hfree := forM_release_spec [p, q] (by simpa using ⟨hpu, hq.stands⟩)
    (hq.accounted.perm (by simpa using List.perm_append_comm_assoc _ _ _))
  rw [List.map_cons, List.map_singleton, hr, hr'] at hfree
  refine hfree.mono fun _ v hv => ?_
  have hsecond : GivenUp b used (p.tree.count ·) t v :=
    hq.givenUp (List.subset_append_right _ _) hv.givenUp fun k => by simp; omega
  exact hp.givenUp (List.Subset.refl _) hsecond fun _ => rfl

/-- Taking a token: where another one stands, the trees that are held are given back. -/
theorem takeToken_follows (text : String) (wanted : Char) (rest : List Char) {partials : List Ref}
    (hfree : (partials.forM fun r => release (some r)).Succeeds t fun _ u => Undone b used s u) :
    (takeToken text wanted partials rest).Follows t ((expect wanted rest).mapError (Failure.fault text))
      (fun x y u => x = y ∧ u = t) (Undone b used s) := by
  unfold takeToken
  cases expect wanted rest with
  | ok rest => exact follows_pure ⟨rfl, rfl⟩
  | error f => exact hfree.follows fun _ u hu => follows_throw hu

/-! ## Making nodes -/

/-- A node over two trees that were read one behind the other. -/
theorem tracks_newBinary (op : Operator) {r r' : Ref} (hr : p.ref? = some r) (hr' : q.ref? = some r')
    (hp : Built b used s p t) (hq : Built b (p.refs ++ used) t q u) (rest : List Char) :
    Tracks text b used s (do return (← newBinary .pool op (some r) (some r'), rest)) u
      (.ok (.binary op p.tree q.tree, rest)) := by
  rw [← hr, ← hr']
  exact (hp.newBinary op hq).follows fun node v hv => follows_pure ⟨rfl, _, rfl, rfl, hv⟩

theorem tracks_newUnary (op : Operator) {r : Ref} (hr : p.ref? = some r) (hp : Built b used s p t)
    (rest : List Char) :
    Tracks text b used s (do return (← newUnary .pool op (some r), rest)) t
      (.ok (.unary op p.tree, rest)) := by
  rw [← hr]
  exact (hp.newUnary op).follows fun node u hu => follows_pure ⟨rfl, _, rfl, rfl, hu⟩

/-! ## The parts of the grammar -/

variable {sign : Char → Option Operation} {operand : Reader κ} {plainOperand : Parser κ}
  {inner exponent : Reader κ} {plainInner plainExponent : Parser κ}

/-- A chain that has come as far as `p`. -/
theorem tracks_chainTail (ho : Faithful text operand plainOperand) (rounds : Nat) {r : Ref}
    (hr : p.ref? = some r) (hp : Built b used s p t) (rest : List Char) :
    Tracks text b used s (readChainTail sign operand rounds r rest) t
      (chainTail sign plainOperand rounds p.tree rest) := by
  induction rounds generalizing p r t rest with
  | zero =>
    unfold readChainTail chainTail
    cases Text.skipBlanks rest with
    | nil => exact follows_pure ⟨rfl, p, hr, rfl, hp⟩
    | cons c x =>
      dsimp only
      cases sign c <;> exact follows_pure ⟨rfl, p, hr, rfl, hp⟩
  | succ rounds ih =>
    unfold readChainTail chainTail
    cases Text.skipBlanks rest with
    | nil => exact follows_pure ⟨rfl, p, hr, rfl, hp⟩
    | cons c x =>
      dsimp only
      cases sign c with
      | none => exact follows_pure ⟨rfl, p, hr, rfl, hp⟩
      | some op =>
        have hoperand := follows_orRelease hr hp (ho x hp.accounted)
        dsimp only
        generalize plainOperand x = result at hoperand ⊢
        apply Follows.branch result hoperand (fun _ => rfl)
        rintro ⟨r', rest⟩ ⟨_, _⟩ u ⟨rfl, q, hr', rfl, hq⟩
        rw [← hr, ← hr']
        exact (hp.newBinary (.known op) hq).follows fun node v hv => ih rfl hv rest

theorem faithful_chain (ho : Faithful text operand plainOperand) :
    Faithful text (readChain sign operand) (chain sign plainOperand) := by
  intro s b used rest h
  have hoperand := ho rest h
  unfold readChain chain
  generalize plainOperand rest = result at hoperand ⊢
  apply Follows.branch result hoperand (fun _ => rfl)
  rintro ⟨r, rest⟩ ⟨_, _⟩ t ⟨rfl, p, hr, rfl, hp⟩
  exact tracks_chainTail ho _ hr hp _

theorem faithful_sumOf (ho : Faithful text operand plainOperand) :
    Faithful text (readSumOf operand) (sumOf plainOperand) :=
  faithful_chain (faithful_chain ho)

theorem faithful_tooDeep (limit : Int) :
    Faithful text (readTooDeep text limit : Reader κ) (tooDeep limit) := fun _ h =>
  follows_throw (undone_refl h)

theorem faithful_bracket (hi : Faithful text inner plainInner) :
    Faithful text (readBracket text inner) (bracket plainInner) := by
  intro s b used rest h
  have hinner := hi rest h
  unfold readBracket bracket
  generalize plainInner rest = result at hinner ⊢
  apply Follows.branch result hinner (fun _ => rfl)
  rintro ⟨r, rest⟩ ⟨_, _⟩ t ⟨rfl, p, hr, rfl, hp⟩
  have hclose := takeToken_follows text ')' rest (release_one hr hp)
  dsimp only
  generalize expect ')' rest = result at hclose ⊢
  apply Follows.branch result hclose (fun _ => rfl)
  rintro rest _ _ ⟨rfl, rfl⟩
  exact follows_pure ⟨rfl, p, hr, rfl, hp⟩

/-- The arguments of a function whose symbol was taken. -/
theorem faithful_call (op : Operation) (hi : Faithful text inner plainInner) :
    Faithful text (readCall text op inner) (call op plainInner) := by
  intro s b used rest h
  have hopen := takeToken_follows text '(' rest (release_none h)
  unfold readCall call
  generalize expect '(' rest = result at hopen ⊢
  apply Follows.branch result hopen (fun _ => rfl)
  rintro rest _ _ ⟨rfl, rfl⟩
  have hfirst := hi rest h
  dsimp only
  generalize plainInner rest = result at hfirst ⊢
  apply Follows.branch result hfirst (fun _ => rfl)
  rintro ⟨r, rest⟩ ⟨_, _⟩ t ⟨rfl, p, hr, rfl, hp⟩
  dsimp only at hr ⊢
  by_cases hone : op.arity = 1
  · have hclose := takeToken_follows text ')' rest (release_one hr hp)
    simp only [if_pos hone]
    generalize expect ')' rest = result at hclose ⊢
    apply Follows.branch result hclose (fun _ => rfl)
    rintro rest _ _ ⟨rfl, rfl⟩
    exact tracks_newUnary _ hr hp _
  · have hcomma := takeToken_follows text ',' rest (release_one hr hp)
    simp only [if_neg hone]
    generalize expect ',' rest = result at hcomma ⊢
    apply Follows.branch result hcomma (fun _ => rfl)
    rintro rest _ _ ⟨rfl, rfl⟩
    have hsecond := follows_orRelease hr hp (hi rest hp.accounted)
    dsimp only
    generalize plainInner rest = result at hsecond ⊢
    apply Follows.branch result hsecond (fun _ => rfl)
    rintro ⟨r', rest⟩ ⟨_, _⟩ u ⟨rfl, q, hr', rfl, hq⟩
    have hclose := takeToken_follows text ')' rest (release_two hr hr' hp hq)
    dsimp only at hr' hclose ⊢
    generalize expect ')' rest = result at hclose ⊢
    apply Follows.branch result hclose (fun _ => rfl)
    rintro rest _ _ ⟨rfl, rfl⟩
    exact tracks_newBinary _ hr hr' hp hq _

variable [Literal κ]

theorem faithful_primary (hi : Faithful text inner plainInner) :
    Faithful text (readPrimary text inner) (primary plainInner) := by
  intro s b used rest h
  unfold readPrimary primary
  dsimp only
  cases Operation.function? (Text.skipBlanks rest) with
  | some op => exact faithful_call op hi _ h
  | none =>
    cases Text.skipBlanks rest with
    | nil => exact follows_throw (undone_refl h)
    | cons c x =>
      dsimp only
      by_cases hopen : c = '('
      · simp only [if_pos hopen]
        exact faithful_bracket hi x h
      simp only [if_neg hopen]
      by_cases hletter : c.isAlpha = true
      · have hname : Name.isLetter (some (String.singleton c)) = true := by simpa [Name.isLetter] using hletter
        simp only [if_pos hletter]
        refine (newVar_built h hname).follows fun r t ht => ?_
        exact follows_pure ⟨rfl, _, rfl, rfl, ht⟩
      simp only [if_neg hletter]
      cases Decimal.scan? (c :: x) with
      | none => exact follows_throw (undone_refl h)
      | some d =>
        refine (newLiteral_built h _).follows fun r t ht => ?_
        exact follows_pure ⟨rfl, _, rfl, rfl, ht⟩

theorem faithful_powerWith (hi : Faithful text inner plainInner)
    (he : Faithful text exponent plainExponent) :
    Faithful text (readPowerWith text inner exponent) (powerWith plainInner plainExponent) := by
  intro s b used rest h
  have hbase := faithful_primary hi rest h
  unfold readPowerWith powerWith
  generalize primary plainInner rest = result at hbase ⊢
  apply Follows.branch result hbase (fun _ => rfl)
  rintro ⟨r, rest⟩ ⟨_, _⟩ t ⟨rfl, p, hr, rfl, hp⟩
  dsimp only at hr ⊢
  by_cases hx : ∃ x, Text.skipBlanks rest = '^' :: x
  · obtain ⟨x, hx⟩ := hx
    have hexponent := follows_orRelease hr hp (he x hp.accounted)
    simp only [hx]
    generalize plainExponent x = result at hexponent ⊢
    apply Follows.branch result hexponent (fun _ => rfl)
    rintro ⟨r', rest⟩ ⟨_, _⟩ u ⟨rfl, q, hr', rfl, hq⟩
    exact tracks_newBinary _ hr hr' hp hq _
  · simp only [not_exists] at hx
    simp only
    exact follows_pure ⟨rfl, p, hr, rfl, hp⟩

/-- Powers are read as they are parsed, at every level of nesting. -/
theorem faithful_power (limit : Int) (levels : Nat) :
    Faithful text (readPower text limit levels : Reader κ) (power limit levels) := by
  induction levels with
  | zero => exact faithful_powerWith (faithful_tooDeep limit) (faithful_tooDeep limit)
  | succ levels ih => exact faithful_powerWith (faithful_sumOf ih) ih

theorem faithful_sum (limit : Int) (levels : Nat) :
    Faithful text (readSum text limit levels : Reader κ) (sum limit levels) := by
  cases levels with
  | zero => exact faithful_tooDeep limit
  | succ levels => exact faithful_sumOf (faithful_power limit levels)

/-- **A formula is read as it is parsed**, and where it does not read nothing is left behind. -/
theorem read_follows (text : String) (limit : Int) (h : s.Accounted b used) :
    (read text limit).Follows s
      ((parse limit text.toList : Except Failure (Tree κ)).mapError (Failure.fault text))
      (fun r tree t => BuiltAt b used s (some r) tree t) (Undone b used s) := by
  have hsum : Tracks text b used s (readSum text limit limit.toNat text.toList) s
      (sum limit limit.toNat text.toList : Except Failure (Tree κ × List Char)) :=
    faithful_sum limit _ _ h
  unfold read parse
  generalize (sum limit limit.toNat text.toList : Except Failure (Tree κ × List Char)) = result at hsum ⊢
  apply Follows.branch result hsum (fun _ => rfl)
  rintro ⟨r, rest⟩ ⟨_, _⟩ t ⟨rfl, p, hr, rfl, hp⟩
  dsimp only at hr ⊢
  cases Text.skipBlanks rest with
  | nil => exact follows_pure ⟨p, hr, rfl, hp⟩
  | cons c x =>
    rw [← hr]
    exact (release_spec hp.stands hp.accounted).follows fun _ u hu =>
      follows_throw (hp.undone hu fun _ => rfl)

end Formula

end Fluxion
