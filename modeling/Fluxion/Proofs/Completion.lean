import Fluxion.Proofs.Grammar
import Fluxion.Proofs.Numerals

/-!
# What stands before a complaint can be completed

A formula that does not read is refused at a position. Unless it was refused for its nesting, everything before
that position is the beginning of a sentence: an operand that is due can be written, a function can be given
its arguments, and what is open can be closed.

What is added begins with a blank. No number and no name of a function goes on over a blank, so the tokens
before it are found again as they were, and with them the parts that they make. Where a reader fails, the parts
before the failure stay, and the parts around it are completed from the inside out.

* `Formula.BrokenOff` relates a text to one that is broken off somewhere and goes on with a blank.
* `Formula.Robust` holds of what is found again before a text that is broken off; `Formula.Reads.robust`: every
  part is.
* `Formula.Completable` says that what was read of a part before a failure can be completed.
* `Formula.viable_sum`: it can be, wherever a reader fails.
* `Work.readFormula_viable` is the statement on the positions of complaints.
-/

namespace Fluxion

/-- A complaint: no exponent follows the number, so that a comma is wanted where the letter stands. What is
before the letter can be completed. -/
theorem Work.readFormula_base : ((Work.readFormula 100 "arcsin(s*log(2.e").perform
    (⟨.stocked 4 2, .opened .minimal, []⟩ : Workspace Float)).1 =
      .error (.malformed (.wantedInstead ',' 'e') 15 "arcsin(s*log(2.e") := by decide +kernel

namespace Text

/-- Blanks at the front are skipped, whatever comes behind them. -/
theorem exists_blanks (s : List Char) :
    ∃ b, s = b ++ skipBlanks s ∧ ∀ r, skipBlanks (b ++ r) = skipBlanks r := by
  refine ⟨s.takeWhile isBlank, List.takeWhile_append_dropWhile.symm, fun r => ?_⟩
  exact List.dropWhile_append_of_pos fun c hc => List.all_eq_true.mp List.all_takeWhile c hc

/-- No blank is skipped from before a token. -/
theorem skipBlanks_token {n : List Char} (hne : n ≠ []) (hn : ∀ c ∈ n, isBlank c = false) (r : List Char) :
    skipBlanks (n ++ r) = n ++ r := by
  cases n with
  | nil => exact absurd rfl hne
  | cons c n => exact skipBlanks_cons (hn c List.mem_cons_self)

end Text

namespace Formula

/-! ## Texts broken off -/

/-- The second text begins like the first, is broken off somewhere, and goes on with a blank. -/
inductive BrokenOff : List Char → List Char → Prop
  | after (x y z : List Char) : BrokenOff (x ++ y) (x ++ ' ' :: z)

/-- The text `s` goes on with `r`, and `A` holds of it even if `r` is broken off. -/
def Robust (A : List Char → List Char → Prop) (s r : List Char) : Prop :=
  ∃ u, s = u ++ r ∧ ∀ r', BrokenOff r r' → A (u ++ r') r'

variable {s r r' y rest : List Char} {c : Char} {op : Operation} {d : Decimal}
  {A B : List Char → List Char → Prop}

theorem BrokenOff.append (h : BrokenOff r r') (u : List Char) : BrokenOff (u ++ r) (u ++ r') := by
  cases h with
  | after x y z =>
    rw [← List.append_assoc, ← List.append_assoc]
    exact .after (u ++ x) y z

/-- A token at the front of the broken text was there before. -/
theorem BrokenOff.starts_with {n : List Char} (h : BrokenOff r r') (hn : ∀ c ∈ n, Text.isBlank c = false)
    (hr : n <+: r') : n <+: r := by
  obtain ⟨x, y, z⟩ := h
  have hx : x ++ [' '] <+: x ++ ' ' :: z := ⟨z, by simp⟩
  have hnot : ¬x ++ [' '] <+: n := fun hp => by
    have hblank := hn ' ' (hp.subset (by simp))
    exact absurd hblank (by decide)
  rcases List.prefix_or_prefix_of_prefix hr hx with hp | hp
  · rcases List.prefix_concat_iff.mp hp with rfl | hp
    · exact absurd List.prefix_rfl hnot
    · exact hp.trans (List.prefix_append x y)
  · exact absurd hp hnot

theorem robust_eq (s : List Char) : Robust Eq s s := ⟨[], rfl, fun _ _ => rfl⟩

theorem Robust.mono (h : Robust A s r) (hAB : ∀ s r, A s r → B s r) : Robust B s r := by
  obtain ⟨u, hs, hu⟩ := h
  exact ⟨u, hs, fun r' hr => hAB _ _ (hu r' hr)⟩

/-- One thing after another. -/
theorem Robust.trans {x : List Char} (h : Robust A s x) (h' : Robust B x r) :
    Robust (fun s r => ∃ x, A s x ∧ B x r) s r := by
  obtain ⟨u, rfl, hu⟩ := h
  obtain ⟨v, rfl, hv⟩ := h'
  refine ⟨u ++ v, (List.append_assoc ..).symm, fun r' hr => ⟨v ++ r', ?_, hv r' hr⟩⟩
  rw [List.append_assoc]
  exact hu _ (hr.append v)

/-! ## Tokens -/

theorem Next.robust (h : Next c s r) : Robust (Next c) s r := by
  obtain ⟨b, hs, hb⟩ := Text.exists_blanks s
  unfold Next at h
  refine ⟨b ++ [c], ?_, fun r' _ => ?_⟩
  · rw [List.append_assoc, List.singleton_append, ← h]
    exact hs
  · unfold Next
    rw [List.append_assoc, hb]
    exact Text.skipBlanks_cons (Text.isBlank_head_skipBlanks h)

theorem symbol_token (f : Operation) :
    f.symbol.toList ≠ [] ∧ ∀ c ∈ f.symbol.toList, Text.isBlank c = false := by
  have hall : f.symbol.toList.all (fun c => !Text.isBlank c) = true := by cases f <;> rfl
  refine ⟨by cases f <;> exact List.cons_ne_nil _ _, fun c hc => ?_⟩
  simpa using List.all_eq_true.mp hall c hc

theorem noneStandsAt_of_brokenOff (h : Operation.NoneStandsAt r) (hr : BrokenOff r r') :
    Operation.NoneStandsAt r' :=
  fun f hf hp => h f hf (hr.starts_with (symbol_token f).2 hp)

/-- A letter stays a letter: no name of a function comes up where none was. -/
theorem robust_letter (hc : Next c s r) (hno : Operation.NoneStandsAt (c :: r)) :
    Robust (fun s r => Next c s r ∧ Operation.NoneStandsAt (c :: r)) s r := by
  obtain ⟨u, hs, hu⟩ := hc.robust
  exact ⟨u, hs, fun r' hr => ⟨hu r' hr, noneStandsAt_of_brokenOff hno (hr.append [c])⟩⟩

/-- The name of a function stays its name. -/
theorem robust_name (h : op.StandsAt (Text.skipBlanks s) r) :
    Robust (fun s r => op.StandsAt (Text.skipBlanks s) r) s r := by
  obtain ⟨b, hs, hb⟩ := Text.exists_blanks s
  obtain ⟨hname, before, after, hfunctions, hfirst⟩ := h
  obtain ⟨hne, htoken⟩ := symbol_token op
  refine ⟨b ++ op.symbol.toList, ?_, fun r' hr => ?_⟩
  · rw [List.append_assoc, ← hname]
    exact hs
  · dsimp only
    rw [List.append_assoc, hb, Text.skipBlanks_token hne htoken]
    refine ⟨rfl, before, after, hfunctions, fun f hf hp => hfirst f hf ?_⟩
    rw [hname]
    exact (hr.append _).starts_with (symbol_token f).2 hp

/-- A number stays the number it is, and gets no longer. -/
theorem robust_number (h : Decimal.NumberAt (Text.skipBlanks s) d r) :
    Robust (fun s r => Decimal.NumberAt (Text.skipBlanks s) d r) s r := by
  obtain ⟨b, hs, hb⟩ := Text.exists_blanks s
  obtain ⟨n, hnumber, hn, hlongest⟩ := h
  have htoken : ∀ {n' d'}, Decimal.NumberText n' d' → ∀ c ∈ n', Text.isBlank c = false := fun hn' c hc =>
    (Numeral.isBlank_of_isNumberChar (Numeral.isNumberChar_of_numberText hn' c hc)).1
  have hne : n ≠ [] := by
    obtain ⟨c, x, rfl, -⟩ := hn.exists_cons
    exact List.cons_ne_nil c x
  refine ⟨b ++ n, ?_, fun r' hr => ?_⟩
  · rw [List.append_assoc, ← hnumber]
    exact hs
  · dsimp only
    rw [List.append_assoc, hb, Text.skipBlanks_token hne (htoken hn)]
    refine ⟨n, rfl, hn, fun n' d' hn' hp => hlongest n' d' hn' ?_⟩
    rw [hnumber]
    exact (hr.append n).starts_with (htoken hn') hp

variable {κ : Type} [Literal κ] {P Q : Part} {n : Nat} {t : Tree κ} {inner exponent operand : Parser κ}
  {f : Failure} {sign : Char → Option Operation}

/-- **Every part is found again** before a text that is broken off. -/
theorem Reads.robust (h : Reads P s n t r) : Robust (fun s r => Reads P s n t r) s r := by
  induction h with
  | term _ ih => exact ih.mono fun _ _ => .term
  | summand _ hc hop _ ihl ihr =>
    refine ((ihl.trans hc.robust).trans ihr).mono ?_
    rintro s r ⟨_, ⟨_, hl, hc⟩, hr⟩
    exact .summand hl hc hop hr
  | factor _ ih => exact ih.mono fun _ _ => .factor
  | multiplier _ hc hop _ ihl ihr =>
    refine ((ihl.trans hc.robust).trans ihr).mono ?_
    rintro s r ⟨_, ⟨_, hl, hc⟩, hr⟩
    exact .multiplier hl hc hop hr
  | base _ ih => exact ih.mono fun _ _ => .base
  | exponent _ hc _ ihb ihe =>
    refine ((ihb.trans hc.robust).trans ihe).mono ?_
    rintro s r ⟨_, ⟨_, hb, hc⟩, he⟩
    exact .exponent hb hc he
  | letter hc hno hletter => exact (robust_letter hc hno).mono fun _ _ h => .letter h.1 h.2 hletter
  | number hd => exact (robust_number hd).mono fun _ _ => .number
  | bracket ho _ hc ih =>
    refine ((ho.robust.trans ih).trans hc.robust).mono ?_
    rintro s r ⟨_, ⟨_, ho, hsum⟩, hc⟩
    exact .bracket ho hsum hc
  | call₁ hop hone ho _ hc ih =>
    refine ((((robust_name hop).trans ho.robust).trans ih).trans hc.robust).mono ?_
    rintro s r ⟨_, ⟨_, ⟨_, hop, ho⟩, hx⟩, hc⟩
    exact .call₁ hop hone ho hx hc
  | call₂ hop htwo ho _ hm _ hc ihx ihy =>
    refine ((((((robust_name hop).trans ho.robust).trans ihx).trans hm.robust).trans ihy).trans hc.robust).mono ?_
    rintro s r ⟨_, ⟨_, ⟨_, ⟨_, ⟨_, hop, ho⟩, hx⟩, hm⟩, hy⟩, hc⟩
    exact .call₂ hop htwo ho hx hm hy hc

/-! ## Completing a part -/

/-- What stands in `s` before `rest`, a blank and some more text are a part, whatever follows. -/
def Completable (κ : Type) [Literal κ] (P : Part) (s rest : List Char) : Prop :=
  ∃ x, s = x ++ rest ∧ ∃ more, ∀ tail, ∃ n, ∃ t : Tree κ, Reads P (x ++ ' ' :: (more ++ tail)) n t tail

theorem Completable.mono (h : Completable κ P s rest)
    (hPQ : ∀ {s r n} {t : Tree κ}, Reads P s n t r → Reads Q s n t r) : Completable κ Q s rest := by
  obtain ⟨x, hs, more, hmore⟩ := h
  refine ⟨x, hs, more, fun tail => ?_⟩
  obtain ⟨n, t, ht⟩ := hmore tail
  exact ⟨n, t, hPQ ht⟩

/-- A part inside another one can be completed; then `close` completes the one around it. -/
theorem Completable.inside (h : Completable κ Q y rest) (hA : Robust A s y) (close : List Char)
    (hP : ∀ {s y n tail} {t : Tree κ}, A s y → Reads Q y n t (close ++ tail) → ∃ n, ∃ t : Tree κ, Reads P s n t tail) :
    Completable κ P s rest := by
  obtain ⟨u, rfl, hu⟩ := hA
  obtain ⟨x, rfl, more, hmore⟩ := h
  refine ⟨u ++ x, (List.append_assoc ..).symm, more ++ close, fun tail => ?_⟩
  obtain ⟨n, t, ht⟩ := hmore (close ++ tail)
  rw [← List.append_assoc] at ht
  rw [List.append_assoc]
  exact hP (hu _ (.after x rest _)) ht

/-- Another token was due than the one that comes next; then `close` begins with the one that was due. -/
theorem Robust.completable (hA : Robust A s r) (close : List Char)
    (hP : ∀ {s r tail}, A s r → Text.skipBlanks r = Text.skipBlanks (close ++ tail) →
      ∃ n, ∃ t : Tree κ, Reads P s n t tail) : Completable κ P s (Text.skipBlanks r) := by
  obtain ⟨u, rfl, hu⟩ := hA
  obtain ⟨b, hr, hb⟩ := Text.exists_blanks r
  refine ⟨u ++ b, ?_, close, fun tail => ?_⟩
  · rw [List.append_assoc, ← hr]
  · rw [List.append_assoc]
    exact hP (hu _ (hr ▸ .after b _ _)) (hb _)

/-- A letter that begins no name of a function. -/
theorem reads_x (h : Next 'x' s r) : Reads .primary s 0 (.var (some (String.singleton 'x')) : Tree κ) r := by
  refine .letter h ?_ rfl
  have hnot : ∀ f ∈ Operation.functions, f.symbol.toList.head? ≠ some 'x' := by decide
  intro f hf hp
  refine hnot f hf ?_
  obtain ⟨hne, -⟩ := symbol_token f
  obtain ⟨z, hz⟩ := hp
  rw [← List.head?_append_of_ne_nil _ hne, hz]
  rfl

theorem sum_x (r : List Char) : Reads .sum ('x' :: r) 0 (.var (some (String.singleton 'x')) : Tree κ) r :=
  .term (.factor (.base (reads_x rfl)))

/-- An operand is due. -/
theorem completable_operand (s : List Char) : Completable κ .primary s (Text.skipBlanks s) := by
  refine (robust_eq s).completable ['x'] ?_
  rintro s r tail rfl hx
  exact ⟨0, _, reads_x hx⟩

/-! ## Where readers fail -/

/-- Wherever a reader of a part fails, other than for the nesting, what it read can be completed. -/
def Viable (P : Part) (parser : Parser κ) : Prop :=
  ∀ s f, parser s = .error f → (∀ limit, f.complaint ≠ .tooDeep limit) → Completable κ P s f.rest

theorem viable_tooDeep (P : Part) (limit : Int) : Viable P (tooDeep limit : Parser κ) := by
  rintro s f ⟨⟩ hf
  exact absurd rfl (hf limit)

omit [Literal κ] in
theorem rest_of_expect (h : expect c s = .error f) :
    f.rest = Text.skipBlanks s := by
  unfold expect at h
  split at h
  · rename_i hs
    cases h
    exact hs.symm
  · rename_i hs
    split at h
    · cases h
    · cases h
      exact hs.symm

omit [Literal κ] in
theorem rest_unexpected (s : List Char) : (unexpected s).rest = s := by
  cases s <;> rfl

/-- What closes the arguments of a function behind the first one. -/
def closing (op : Operation) : List Char := if op.arity = 1 then [')'] else [',', 'x', ')']

/-- A function with its first argument, up to where it is closed. -/
def Opened (op : Operation) (s r : List Char) : Prop :=
  ∃ x, op.StandsAt (Text.skipBlanks s) x ∧ Next '(' x r

theorem Opened.call {tail : List Char} (h : Opened op s y) (hx : Reads .sum y n t r)
    (hr : Text.skipBlanks r = Text.skipBlanks (closing op ++ tail)) :
    ∃ n, ∃ t : Tree κ, Reads .primary s n t tail := by
  obtain ⟨x, hop, ho⟩ := h
  unfold closing at hr
  split at hr
  · rename_i hone
    exact ⟨_, _, .call₁ hop hone ho hx hr⟩
  · rename_i hone
    exact ⟨_, _, .call₂ hop (op.arity_eq.resolve_left hone) ho hx hr (sum_x _) rfl⟩

section

variable {bound : Nat}

/-- The arguments of a function. -/
theorem completable_call (hi : Viable .sum inner) (hj : Justified .sum bound inner)
    (hop : op.StandsAt (Text.skipBlanks s) r) (h : call op inner r = .error f)
    (hf : ∀ limit, f.complaint ≠ .tooDeep limit) : Completable κ .primary s f.rest := by
  have hname := robust_name hop
  unfold call at h
  split at h
  · rename_i hopen
    cases h
    rw [rest_of_expect hopen]
    refine hname.completable ('(' :: 'x' :: closing op) ?_
    intro s r tail hop hr
    exact Opened.call ⟨r, hop, hr⟩ (sum_x _) rfl
  rename_i r₁ hopen
  have hopened : Robust (Opened op) s r₁ := hname.trans (expect_eq_ok.mp hopen).robust
  split at h
  · rename_i hfirst
    cases h
    exact (hi _ _ hfirst hf).inside hopened (closing op) fun ho hx => ho.call hx rfl
  rename_i first r₂ hfirst
  obtain ⟨m, r₂', -, hx, hr₂⟩ := hj hfirst
  have hargument := hopened.trans hx.robust
  -- whatever is missing behind the first argument, the call can be closed there
  have hstop : Completable κ .primary s (Text.skipBlanks r₂') := by
    refine hargument.completable (closing op) ?_
    rintro s r tail ⟨y, ho, hx⟩ hr
    exact ho.call hx hr
  split at h
  · rename_i hone
    split at h
    · rename_i hclose
      cases h
      rwa [rest_of_expect hclose, hr₂]
    · cases h
  · rename_i hone
    have htwo : op.arity = 2 := op.arity_eq.resolve_left hone
    split at h
    · rename_i hcomma
      cases h
      rwa [rest_of_expect hcomma, hr₂]
    rename_i r₃ hcomma
    have hnext : Next ',' r₂' r₃ := hr₂.symm.trans (expect_eq_ok.mp hcomma)
    have hsecond := hargument.trans hnext.robust
    split at h
    · rename_i hfail
      cases h
      refine (hi _ _ hfail hf).inside hsecond [')'] ?_
      rintro s y n tail t ⟨_, ⟨_, ⟨_, hop, ho⟩, hx⟩, hm⟩ hy
      exact ⟨_, _, .call₂ hop htwo ho hx hm hy rfl⟩
    rename_i second r₄ hread
    obtain ⟨n, r₄', -, hy, hr₄⟩ := hj hread
    split at h
    · rename_i hclose
      cases h
      rw [rest_of_expect hclose, hr₄]
      refine (hsecond.trans hy.robust).completable [')'] ?_
      rintro s r tail ⟨_, ⟨_, ⟨_, ⟨_, hop, ho⟩, hx⟩, hm⟩, hy⟩ hr
      exact ⟨_, _, .call₂ hop htwo ho hx hm hy hr⟩
    · cases h

/-- A sum in brackets. -/
theorem completable_bracket (hi : Viable .sum inner) (hj : Justified .sum bound inner) (ho : Next '(' s r)
    (h : bracket inner r = .error f) (hf : ∀ limit, f.complaint ≠ .tooDeep limit) :
    Completable κ .primary s f.rest := by
  unfold bracket at h
  split at h
  · rename_i hfail
    cases h
    exact (hi _ _ hfail hf).inside ho.robust [')'] fun ho hsum => ⟨_, _, .bracket ho hsum rfl⟩
  · rename_i t r₁ hread
    obtain ⟨n, r₁', -, hsum, hr₁⟩ := hj hread
    split at h
    · rename_i hclose
      cases h
      rw [rest_of_expect hclose, hr₁]
      refine (ho.robust.trans hsum.robust).completable [')'] ?_
      rintro s r tail ⟨_, ho, hsum⟩ hr
      exact ⟨_, _, .bracket ho hsum hr⟩
    · cases h

theorem viable_primary (hi : Viable .sum inner) (hj : Justified .sum bound inner) :
    Viable .primary (primary inner) := by
  intro s f h hf
  unfold primary at h
  dsimp only at h
  split at h
  · rename_i op hop
    exact completable_call hi hj (Operation.function?_eq_some_iff.mp hop) h hf
  · split at h
    · cases h
      rw [rest_unexpected]
      exact completable_operand s
    · rename_i c r hs
      split at h
      · rename_i hc
        exact completable_bracket hi hj (hc ▸ hs) h hf
      · split at h
        · cases h
        · split at h
          · cases h
          · cases h
            rw [rest_unexpected]
            exact completable_operand s

theorem viable_powerWith (hi : Viable .sum inner) (hj : Justified .sum bound inner)
    (he : Viable .power exponent) : Viable .power (powerWith inner exponent) := by
  intro s f h hf
  unfold powerWith at h
  split at h
  · rename_i hfail
    cases h
    exact (viable_primary hi hj _ _ hfail hf).mono .base
  · rename_i b r hread
    obtain ⟨m, -, hb⟩ := justified_primary hj hread
    split at h
    · rename_i x hx
      split at h
      · rename_i hfail
        cases h
        have hc : Next '^' r x := hx
        refine (he _ _ hfail hf).inside (hb.robust.trans hc.robust) [] ?_
        rintro s y n tail t ⟨_, hb, hc⟩ hexp
        exact ⟨_, _, .exponent hb hc hexp⟩
      · cases h
    · cases h

/-- A chain, behind its first operand. -/
theorem completable_chainTail (ho : Viable Q operand) (hj : Justified Q bound operand)
    (hextend : ∀ {s r₁ r₂ r₃ m n c op} {l t : Tree κ}, Reads P s m l r₁ → Next c r₁ r₂ →
      sign c = some op → Reads Q r₂ n t r₃ → Reads P s (max m n) (.apply₂ op l t) r₃)
    (rounds : Nat) {s x x' : List Char} {l : Tree κ} {m : Nat} {f : Failure} (hl : Reads P s m l x')
    (hx : Text.skipBlanks x = Text.skipBlanks x') (h : chainTail sign operand rounds l x = .error f)
    (hf : ∀ limit, f.complaint ≠ .tooDeep limit) : Completable κ P s f.rest := by
  -- by induction on the rounds: the chain so far is a part, and a round extends it or fails behind a sign
  induction rounds generalizing x x' l m with
  | zero =>
    unfold chainTail at h
    split at h
    · cases h
    · split at h
      · contradiction
      · cases h
  | succ rounds ih =>
    unfold chainTail at h
    split at h
    · cases h
    rename_i c y hc
    have hnext : Next c x' y := hx.symm.trans hc
    split at h
    · rename_i op k hop hk
      cases hk
      split at h
      · rename_i hfail
        cases h
        refine (ho _ _ hfail hf).inside (hl.robust.trans hnext.robust) [] ?_
        rintro s y n tail t ⟨_, hl, hc⟩ hr
        exact ⟨_, _, hextend hl hc hop hr⟩
      · rename_i u z hu
        obtain ⟨n, z', -, hr, hz⟩ := hj hu
        exact ih (hextend hl hnext hop hr) hz h
    · cases h

/-- A chain, at an operand. -/
theorem viable_chain (ho : Viable Q operand) (hj : Justified Q bound operand)
    (hlift : ∀ {s n r} {t : Tree κ}, Reads Q s n t r → Reads P s n t r)
    (hextend : ∀ {s r₁ r₂ r₃ m n c op} {l t : Tree κ}, Reads P s m l r₁ → Next c r₁ r₂ →
      sign c = some op → Reads Q r₂ n t r₃ → Reads P s (max m n) (.apply₂ op l t) r₃) :
    Viable P (chain sign operand) := by
  intro s f h hf
  unfold chain at h
  split at h
  · rename_i hfail
    cases h
    exact (ho _ _ hfail hf).mono hlift
  · rename_i u x hu
    obtain ⟨n, x', -, hr, hx⟩ := hj hu
    exact completable_chainTail ho hj hextend _ (hlift hr) hx h hf

theorem viable_sumOf (ho : Viable .power operand) (hj : Justified .power bound operand) :
    Viable .sum (sumOf operand) :=
  viable_chain (viable_chain ho hj .factor .multiplier) (justified_chain hj .factor .multiplier) .term .summand

end

theorem viable_power (limit : Int) (levels : Nat) : Viable .power (power limit levels : Parser κ) := by
  induction levels with
  | zero =>
    exact viable_powerWith (viable_tooDeep _ limit) (justified_tooDeep _ limit 0) (viable_tooDeep _ limit)
  | succ levels ih =>
    have hj : Justified .power (levels + 1) (power limit levels : Parser κ) := justified_power limit levels
    exact viable_powerWith (viable_sumOf ih hj) (justified_sumOf hj) ih

theorem viable_sum (limit : Int) (levels : Nat) : Viable .sum (sum limit levels : Parser κ) := by
  cases levels with
  | zero => exact viable_tooDeep _ limit
  | succ levels => exact viable_sumOf (viable_power limit levels) (justified_power limit levels)

/-- **Where a text does not read**, other than for its nesting, it begins like a sentence. -/
theorem exists_sentence_of_error {limit : Int} (h : (parse limit s : Except Failure (Tree κ)) = .error f)
    (hf : ∀ limit, f.complaint ≠ .tooDeep limit) :
    ∃ x, s = x ++ f.rest ∧ ∃ more n, ∃ t : Tree κ, Sentence (x ++ more) n t := by
  unfold parse at h
  split at h
  · rename_i hfail
    cases h
    obtain ⟨x, hs, more, hmore⟩ := viable_sum limit _ _ _ hfail hf
    obtain ⟨n, t, ht⟩ := hmore []
    exact ⟨x, hs, _, _, t, n, [], ht, rfl, rfl⟩
  · rename_i t r hread
    obtain ⟨n, r', -, hsum, hr⟩ := justified_sum limit _ hread
    split at h
    · cases h
    · rename_i c y hcons
      cases h
      -- everything up to what is left over is a sum, and it stays one before a blank
      obtain ⟨u, rfl, hu⟩ := hsum.robust
      obtain ⟨b, hb, hskip⟩ := Text.exists_blanks r'
      rw [rest_unexpected, ← hcons, hr]
      refine ⟨u ++ b, by rw [List.append_assoc, ← hb], [' '], _, t, n, b ++ [' '], ?_, hskip [' '], rfl⟩
      rw [List.append_assoc]
      exact hu _ (hb ▸ .after b _ [])

end Formula

/-! ## Positions of complaints -/

namespace Work

variable {κ : Type} [Literal κ] {w : Workspace κ}

/-- A sentence reads from every workspace, if the nesting allowed is enough. -/
theorem succeeds_of_sentence {text : String} {n : Nat} {t : Tree κ} (hs : Formula.Sentence text.toList n t)
    {limit : Int} (hn : n ≤ limit) (h : w.store.StrictlyOwned) :
    (readFormula limit text).Succeeds w fun e w' => w'.store.expressionTree e = t :=
  (readFormula_tree h (Formula.parse_of_sentence hs hn)).mono fun _ _ => And.left

/-- **A complaint points behind something that can be completed.** A text that does not read is refused with a
position in it. Unless it is refused for its nesting, the text before the position goes on to one that reads
wherever enough nesting is allowed. -/
theorem readFormula_viable (h : w.store.StrictlyOwned) (limit : Int) (text : String) :
    (readFormula limit text).Ensures w (fun _ _ => True) fun f _ =>
      ∃ complaint position, f = .malformed complaint position text ∧ position ≤ text.toList.length ∧
        ((∀ l, complaint ≠ .tooDeep l) →
          ∃ (more : String) (t : Tree κ) (enough : Int), ∀ limit' ≥ enough, ∀ w' : Workspace κ,
            w'.store.StrictlyOwned →
              (readFormula limit' (String.ofList (text.toList.take position) ++ more)).Succeeds w' fun e w'' =>
                w''.store.expressionTree e = t) := by
  cases hp : (Formula.parse limit text.toList : Except (Formula.Failure) (Tree κ)) with
  | ok t => exact (readFormula_tree h hp).ensures.mono (fun _ _ _ => trivial) fun _ _ => id
  | error failure =>
    obtain ⟨b, own, h⟩ := h.holds
    refine (readFormula_of_error h hp).mono (fun _ _ => id) ?_
    rintro _ w' ⟨rfl, -⟩
    refine ⟨failure.complaint, _, rfl, Nat.sub_le _ _, fun hdeep => ?_⟩
    obtain ⟨x, hx, more, n, t, hs⟩ := Formula.exists_sentence_of_error hp hdeep
    have hbefore : text.toList.take (text.toList.length - failure.rest.length) = x := by
      rw [hx, List.length_append, Nat.add_sub_cancel, List.take_left]
    refine ⟨String.ofList more, t, n, fun limit' hn w' hw' => succeeds_of_sentence ?_ hn hw'⟩
    rw [hbefore, String.toList_append, String.toList_ofList, String.toList_ofList]
    exact hs

/-- The base of a logarithm in an argument is a number that an exponent does not follow. -/
theorem readFormula_viable_base :
    (Store.stocked 4 2 : Store Float).StrictlyOwned ∧
      ((readFormula 100 "arcsin(s*log(2.e").perform (⟨.stocked 4 2, .opened .minimal, []⟩ : Workspace Float)).1 =
        .error (.malformed (.wantedInstead ',' 'e') 15 "arcsin(s*log(2.e") ∧
      ∃ (more : String) (t : Tree Float) (enough : Int), ∀ limit' ≥ enough, ∀ w' : Workspace Float,
        w'.store.StrictlyOwned → (readFormula limit' ("arcsin(s*log(2." ++ more)).Succeeds w' fun e w'' =>
          w''.store.expressionTree e = t := by
  have howned : (Store.stocked 4 2 : Store Float).StrictlyOwned := Store.stocked_strictlyOwned 4 2
  have herror := readFormula_base
  have hbefore : String.ofList ("arcsin(s*log(2.e".toList.take 15) = "arcsin(s*log(2." := rfl
  refine ⟨howned, herror, ?_⟩
  -- the text is hidden, or matching statements would read it
  generalize "arcsin(s*log(2.e" = text at herror hbefore ⊢
  have hviable := readFormula_viable (w := ⟨.stocked 4 2, .opened .minimal, []⟩) howned 100 text
  obtain ⟨complaint, position, hf, -, hmore⟩ := hviable.of_error (Prod.ext herror rfl)
  cases hf
  rw [← hbefore]
  exact hmore nofun

end Work

end Fluxion
