import Fluxion.Proofs.NumberText
import Fluxion.Proofs.Reading
import Fluxion.Scalar.Double

/-!
# The grammar of formulas

The grammar, with blanks allowed before every token:

* a sum is a product, or a sum, a `+` or `-`, and a product;
* a product is a power, or a product, a `*` or `/`, and a power;
* a power is a primary, or a primary, a `^`, and a power;
* a primary is a letter, an unsigned number, a sum in brackets, or the name of a function and its
  arguments in brackets.

Where a primary is due, the first function in order of declaration whose symbol stands there is its
name, even if the text could be read as a letter; and a number is the longest one that stands there.
The nesting of a part is the number of brackets, arguments and exponents around the innermost of its
letters and numbers; that of a sentence is one more, since the whole text counts as well.

The relations below say what the grammar derives. The reader derives the same:

* `Formula.Reads` are the rules of the grammar, and `Formula.Sentence` the texts that are sums.
* `Formula.sentence_of_parse`: a text that reads is a sentence.
* `Formula.parse_of_sentence`: a sentence reads, within its nesting.
* `Work.readFormula_sentence`: a text is made into an expression with its tree if it is a sentence
  of the nesting allowed, and refused as malformed otherwise.
-/

namespace Fluxion

namespace Text

theorem skipBlanks_cons {c : Char} {r : List Char} (h : isBlank c = false) :
    skipBlanks (c :: r) = c :: r := by
  rw [skipBlanks, List.dropWhile_cons_of_neg (by simp [h])]

theorem skipBlanks_skipBlanks (s : List Char) : skipBlanks (skipBlanks s) = skipBlanks s := by
  cases h : skipBlanks s with
  | nil => rfl
  | cons c r => exact skipBlanks_cons (isBlank_head_skipBlanks h)

end Text

namespace Operation

/-- The symbol of a function stands at the front of `s`, that of no function declared before it does,
and `r` follows it. -/
def StandsAt (op : Operation) (s r : List Char) : Prop :=
  s = op.symbol.toList ++ r ∧
    ∃ before after, functions = before ++ op :: after ∧ ∀ f ∈ before, ¬f.symbol.toList <+: s

/-- The symbol of no function stands at the front of a text. -/
def NoneStandsAt (s : List Char) : Prop := ∀ f ∈ functions, ¬f.symbol.toList <+: s

variable {op : Operation} {s r : List Char}

theorem function?_eq_some_iff :
    function? s = some op ↔ op.StandsAt s (s.drop op.symbol.length) := by
  unfold function? StandsAt
  rw [List.find?_eq_some_iff_append]
  simp only [List.isPrefixOf_iff_prefix, Bool.not_eq_true', ← Bool.not_eq_true]
  refine and_congr_left fun _ => ?_
  rw [← String.length_toList]
  exact List.prefix_iff_eq_append.trans eq_comm

theorem function?_eq_none_iff : function? s = none ↔ NoneStandsAt s := by
  unfold function? NoneStandsAt
  simp only [List.find?_eq_none, List.isPrefixOf_iff_prefix]

/-- What follows the symbol of a function. -/
theorem StandsAt.drop_eq (h : op.StandsAt s r) : s.drop op.symbol.length = r := by
  rw [h.1, ← String.length_toList, List.drop_left]

theorem StandsAt.function? (h : op.StandsAt s r) : Operation.function? s = some op := by
  rw [function?_eq_some_iff, h.drop_eq]
  exact h

end Operation

namespace Formula

/-! ## The rules -/

/-- The parts that formulas are made of. -/
inductive Part where
  | sum
  | product
  | power
  | primary

/-- The token `c` is the next one in `s`, and `r` follows it. -/
def Next (c : Char) (s r : List Char) : Prop := Text.skipBlanks s = c :: r

/-- The grammar: at the front of `s` stands a part of nesting `n` with the tree `t`, and `r` follows
it. -/
inductive Reads {κ : Type} [Literal κ] : Part → List Char → Nat → Tree κ → List Char → Prop
  | term {s r : List Char} {n : Nat} {t : Tree κ} (product : Reads .product s n t r) :
      Reads .sum s n t r
  | summand {s r₁ r₂ r₃ : List Char} {m n : Nat} {l t : Tree κ} {c : Char} {op : Operation}
      (left : Reads .sum s m l r₁) (sign : Next c r₁ r₂) (means : sumSign c = some op)
      (right : Reads .product r₂ n t r₃) : Reads .sum s (max m n) (.apply₂ op l t) r₃
  | factor {s r : List Char} {n : Nat} {t : Tree κ} (power : Reads .power s n t r) :
      Reads .product s n t r
  | multiplier {s r₁ r₂ r₃ : List Char} {m n : Nat} {l t : Tree κ} {c : Char} {op : Operation}
      (left : Reads .product s m l r₁) (sign : Next c r₁ r₂) (means : productSign c = some op)
      (right : Reads .power r₂ n t r₃) : Reads .product s (max m n) (.apply₂ op l t) r₃
  | base {s r : List Char} {n : Nat} {t : Tree κ} (primary : Reads .primary s n t r) :
      Reads .power s n t r
  | exponent {s r₁ r₂ r₃ : List Char} {m n : Nat} {b e : Tree κ}
      (base : Reads .primary s m b r₁) (sign : Next '^' r₁ r₂) (power : Reads .power r₂ n e r₃) :
      Reads .power s (max m (n + 1)) (.apply₂ .pow b e) r₃
  | letter {s r : List Char} {c : Char} (next : Next c s r)
      (no_function : Operation.NoneStandsAt (c :: r)) (letter : c.isAlpha = true) :
      Reads .primary s 0 (.var (some (String.singleton c))) r
  | number {s r : List Char} {d : Decimal} (number : Decimal.NumberAt (Text.skipBlanks s) d r) :
      Reads .primary s 0 (.literal (Literal.ofNumeral (.finite false d))) r
  | bracket {s r₁ r₂ r₃ : List Char} {n : Nat} {t : Tree κ} (opening : Next '(' s r₁)
      (sum : Reads .sum r₁ n t r₂) (closing : Next ')' r₂ r₃) : Reads .primary s (n + 1) t r₃
  | call₁ {s r₁ r₂ r₃ r₄ : List Char} {n : Nat} {x : Tree κ} {op : Operation}
      (name : op.StandsAt (Text.skipBlanks s) r₁) (arity : op.arity = 1) (opening : Next '(' r₁ r₂)
      (argument : Reads .sum r₂ n x r₃) (closing : Next ')' r₃ r₄) :
      Reads .primary s (n + 1) (.apply₁ op x) r₄
  | call₂ {s r₁ r₂ r₃ r₄ r₅ r₆ : List Char} {m n : Nat} {x y : Tree κ} {op : Operation}
      (name : op.StandsAt (Text.skipBlanks s) r₁) (arity : op.arity = 2) (opening : Next '(' r₁ r₂)
      (first : Reads .sum r₂ m x r₃) (comma : Next ',' r₃ r₄) (second : Reads .sum r₄ n y r₅)
      (closing : Next ')' r₅ r₆) : Reads .primary s (max m n + 1) (.apply₂ op x y) r₆

/-- A text is a sentence of nesting `n` with the tree `t`. -/
def Sentence {κ : Type} [Literal κ] (s : List Char) (n : Nat) (t : Tree κ) : Prop :=
  ∃ m r, Reads .sum s m t r ∧ Text.skipBlanks r = [] ∧ n = m + 1

/-! ## What reads is a sentence -/

variable {κ : Type} {s r : List Char} {t : Tree κ} {sign : Char → Option Operation}
  {inner exponent operand : Parser κ} {c : Char}

theorem expect_eq_ok : expect c s = .ok r ↔ Next c s r := by
  unfold expect Next
  split
  · simp [*]
  · rename_i x y hs
    rw [hs]
    by_cases hx : x = c
    · simp [hx]
    · simp [hx]

variable [Literal κ]

/-- What a parser reads is derived by the grammar as a part of nesting below `bound`. Blanks behind
the part may be skipped. -/
def Justified (P : Part) (bound : Nat) (parser : Parser κ) : Prop :=
  ∀ {s t r}, parser s = .ok (t, r) →
    ∃ n r', n < bound ∧ Reads P s n t r' ∧ Text.skipBlanks r = Text.skipBlanks r'

theorem justified_tooDeep (P : Part) (limit : Int) (bound : Nat) :
    Justified P bound (tooDeep limit : Parser κ) := by
  intro s t r h
  cases h

omit [Literal κ] in
/-- What a round of a chain can do: stop, or take a sign and an operand and go on. -/
theorem chainTail_cases {rounds : Nat} {l : Tree κ} (h : chainTail sign operand rounds l s = .ok (t, r)) :
    t = l ∧ r = Text.skipBlanks s ∨
      ∃ c x op k u y, rounds = k + 1 ∧ Next c s x ∧ sign c = some op ∧ operand x = .ok (u, y) ∧
        chainTail sign operand k (.apply₂ op l u) y = .ok (t, r) := by
  unfold chainTail at h
  split at h
  · rename_i hnil
    cases h
    exact .inl ⟨rfl, hnil.symm⟩
  · rename_i c x hcons
    split at h
    · rename_i op k hop
      split at h
      · cases h
      · rename_i u y hu
        exact .inr ⟨c, x, op, k, u, y, rfl, hcons, hop, hu, h⟩
    · cases h
      exact .inl ⟨rfl, hcons.symm⟩

/-- A chain is justified if its operands are: a chain may be an operand alone, and goes on with a sign
and an operand. -/
theorem justified_chain {P Q : Part} {bound : Nat} (ho : Justified Q bound operand)
    (hlift : ∀ {s n r} {t : Tree κ}, Reads Q s n t r → Reads P s n t r)
    (hextend : ∀ {s r₁ r₂ r₃ m n c op} {l t : Tree κ}, Reads P s m l r₁ → Next c r₁ r₂ →
      sign c = some op → Reads Q r₂ n t r₃ → Reads P s (max m n) (.apply₂ op l t) r₃) :
    Justified P bound (chain sign operand) := by
  -- by induction on the rounds: what was read so far is derived, and a round extends it
  have htail : ∀ (rounds : Nat) {s x x' r : List Char} {l t : Tree κ} {m : Nat}, m < bound →
      Reads P s m l x' → Text.skipBlanks x = Text.skipBlanks x' →
      chainTail sign operand rounds l x = .ok (t, r) →
        ∃ n r', n < bound ∧ Reads P s n t r' ∧ Text.skipBlanks r = Text.skipBlanks r' := by
    intro rounds
    induction rounds with
    | zero =>
      intro s x x' r l t m hm hl hx h
      rcases chainTail_cases h with ⟨rfl, rfl⟩ | ⟨_, _, _, _, _, _, hzero, _⟩
      · exact ⟨m, x', hm, hl, by rw [Text.skipBlanks_skipBlanks, hx]⟩
      · cases hzero
    | succ rounds ih =>
      intro s x x' r l t m hm hl hx h
      rcases chainTail_cases h with ⟨rfl, rfl⟩ | ⟨c, y, op, k, u, z, hk, hc, hop, hu, hrest⟩
      · exact ⟨m, x', hm, hl, by rw [Text.skipBlanks_skipBlanks, hx]⟩
      · cases hk
        obtain ⟨n, z', hn, hr, hz⟩ := ho hu
        have hnext : Next c x' y := hx.symm.trans hc
        exact ih (Nat.max_lt.mpr ⟨hm, hn⟩) (hextend hl hnext hop hr) hz hrest
  intro s t r h
  unfold chain at h
  split at h
  · cases h
  · rename_i u x hu
    obtain ⟨n, x', hn, hr, hx⟩ := ho hu
    exact htail _ hn (hlift hr) hx h

theorem justified_sumOf {bound : Nat} (h : Justified .power bound operand) :
    Justified .sum bound (sumOf operand) :=
  justified_chain (justified_chain h .factor .multiplier) .term .summand

theorem justified_bracket {bound : Nat} (hi : Justified .sum bound inner) (hs : Next '(' s r)
    {x : List Char} (h : bracket inner r = .ok (t, x)) :
    ∃ n, n < bound + 1 ∧ Reads .primary s n t x := by
  unfold bracket at h
  split at h
  · cases h
  · rename_i u y hu
    obtain ⟨n, y', hn, hsum, hy⟩ := hi hu
    split at h
    · cases h
    · rename_i z hz
      cases h
      have hclose : Next ')' y' x := hy.symm.trans (expect_eq_ok.mp hz)
      exact ⟨n + 1, Nat.succ_lt_succ hn, .bracket hs hsum hclose⟩

theorem justified_call {bound : Nat} (hi : Justified .sum bound inner) {op : Operation}
    (hop : op.StandsAt (Text.skipBlanks s) r) {x : List Char} (h : call op inner r = .ok (t, x)) :
    ∃ n, n < bound + 1 ∧ Reads .primary s n t x := by
  unfold call at h
  split at h
  · cases h
  rename_i r₁ hopen
  split at h
  · cases h
  rename_i first r₂ hfirst
  obtain ⟨m, r₂', hm, hx, hr₂⟩ := hi hfirst
  split at h
  · rename_i hone
    split at h
    · cases h
    · rename_i hclose
      cases h
      have hclose : Next ')' r₂' x := hr₂.symm.trans (expect_eq_ok.mp hclose)
      exact ⟨m + 1, Nat.succ_lt_succ hm, .call₁ hop hone (expect_eq_ok.mp hopen) hx hclose⟩
  · rename_i hone
    split at h
    · cases h
    rename_i r₃ hcomma
    split at h
    · cases h
    rename_i second r₄ hsecond
    obtain ⟨n, r₄', hn, hy, hr₄⟩ := hi hsecond
    split at h
    · cases h
    · rename_i hclose
      cases h
      have hcomma : Next ',' r₂' r₃ := hr₂.symm.trans (expect_eq_ok.mp hcomma)
      have hclose : Next ')' r₄' x := hr₄.symm.trans (expect_eq_ok.mp hclose)
      have htwo : op.arity = 2 := op.arity_eq.resolve_left hone
      exact ⟨max m n + 1, Nat.succ_lt_succ (Nat.max_lt.mpr ⟨hm, hn⟩),
        .call₂ hop htwo (expect_eq_ok.mp hopen) hx hcomma hy hclose⟩

theorem justified_primary {bound : Nat} (hi : Justified .sum bound inner)
    (h : primary inner s = .ok (t, r)) : ∃ n, n < bound + 1 ∧ Reads .primary s n t r := by
  unfold primary at h
  dsimp only at h
  split at h
  · rename_i op hop
    exact justified_call hi (Operation.function?_eq_some_iff.mp hop) h
  · rename_i hnone
    split at h
    · cases h
    · rename_i c x hs
      split at h
      · rename_i hc
        exact justified_bracket hi (hc ▸ hs) h
      · split at h
        · rename_i hletter
          cases h
          rw [hs] at hnone
          exact ⟨0, Nat.succ_pos _, .letter hs (Operation.function?_eq_none_iff.mp hnone) hletter⟩
        · split at h
          · rename_i d y hscan
            cases h
            exact ⟨0, Nat.succ_pos _, .number (Decimal.scan?_eq_some_iff.mp hscan)⟩
          · cases h

theorem justified_powerWith {bound : Nat} (hi : Justified .sum bound inner)
    (he : Justified .power bound exponent) : Justified .power (bound + 1) (powerWith inner exponent) := by
  intro s t r h
  unfold powerWith at h
  split at h
  · cases h
  · rename_i b x hb
    obtain ⟨m, hm, hbase⟩ := justified_primary hi hb
    split at h
    · rename_i y hy
      split at h
      · cases h
      · rename_i u z hu
        obtain ⟨n, z', hn, hexp, hz⟩ := he hu
        cases h
        exact ⟨max m (n + 1), z', Nat.max_lt.mpr ⟨hm, Nat.succ_lt_succ hn⟩, .exponent hbase hy hexp, hz⟩
    · cases h
      exact ⟨m, x, hm, .base hbase, Text.skipBlanks_skipBlanks x⟩

theorem justified_power (limit : Int) (levels : Nat) :
    Justified .power (levels + 1) (power limit levels : Parser κ) := by
  induction levels with
  | zero => exact justified_powerWith (justified_tooDeep _ limit 0) (justified_tooDeep _ limit 0)
  | succ levels ih => exact justified_powerWith (justified_sumOf ih) ih

theorem justified_sum (limit : Int) (levels : Nat) :
    Justified .sum levels (sum limit levels : Parser κ) := by
  cases levels with
  | zero => exact justified_tooDeep _ limit 0
  | succ levels => exact justified_sumOf (justified_power limit levels)

/-- **What reads is a sentence**, of the nesting allowed. -/
theorem sentence_of_parse {limit : Int} (h : parse limit s = .ok t) :
    ∃ n : Nat, n ≤ limit ∧ Sentence s n t := by
  unfold parse at h
  split at h
  · cases h
  · rename_i u x hu
    obtain ⟨m, x', hm, hsum, hx⟩ := justified_sum limit _ hu
    split at h
    · rename_i hnil
      cases h
      exact ⟨m + 1, by omega, m, x', hsum, hx.symm.trans hnil, rfl⟩
    · cases h

/-! ## Sentences read -/

omit [Literal κ] in
theorem chainTail_skipBlanks (rounds : Nat) (l : Tree κ) :
    chainTail sign operand rounds l (Text.skipBlanks s) = chainTail sign operand rounds l s := by
  rw [chainTail, chainTail, Text.skipBlanks_skipBlanks]

omit [Literal κ] in
theorem chainTail_stop {rounds : Nat} (h : ∀ c x, Next c s x → sign c = none) :
    chainTail sign operand rounds t s = .ok (t, Text.skipBlanks s) := by
  unfold chainTail
  split
  · rename_i hnil
    rw [hnil]
  · rename_i c x hcons
    rw [h c x hcons, hcons]

omit [Literal κ] in
theorem chainTail_round {rounds : Nat} {l u : Tree κ} {op : Operation} {x y : List Char}
    (hc : Next c s x) (hop : sign c = some op) (hu : operand x = .ok (u, y)) :
    chainTail sign operand (rounds + 1) l s = chainTail sign operand rounds (.apply₂ op l u) y := by
  rw [chainTail, hc]
  simp only [hop, hu]

/-- Reading a chain comes to the point where `t` is read and `r` is left, with rounds enough to go on. -/
def Reaches (sign : Char → Option Operation) (operand : Parser κ) (s : List Char) (t : Tree κ)
    (r : List Char) : Prop :=
  ∃ rounds, (Text.skipBlanks r).length ≤ rounds ∧
    chain sign operand s = chainTail sign operand rounds t r

omit [Literal κ] in
theorem reaches_operand (h : operand s = .ok (t, Text.skipBlanks r)) : Reaches sign operand s t r := by
  refine ⟨_, Nat.le_refl _, ?_⟩
  rw [← chainTail_skipBlanks]
  unfold chain
  rw [h]

omit [Literal κ] in
theorem Reaches.round {l : Tree κ} {op : Operation} {x y : List Char} (h : Reaches sign operand s l r)
    (hc : Next c r x) (hop : sign c = some op) (hu : operand x = .ok (t, Text.skipBlanks y))
    (hle : y.length ≤ x.length) : Reaches sign operand s (.apply₂ op l t) y := by
  obtain ⟨rounds, hrounds, hchain⟩ := h
  rw [hc, List.length_cons] at hrounds
  have hskip := Text.skipBlanks_length_le y
  cases rounds with
  | zero => exact absurd hrounds (Nat.not_succ_le_zero _)
  | succ rounds =>
    refine ⟨rounds, by omega, ?_⟩
    rw [hchain, chainTail_round hc hop hu, chainTail_skipBlanks]

omit [Literal κ] in
theorem Reaches.stop (h : Reaches sign operand s t r) (hr : ∀ c x, Next c r x → sign c = none) :
    chain sign operand s = .ok (t, Text.skipBlanks r) := by
  obtain ⟨rounds, -, hchain⟩ := h
  rw [hchain, chainTail_stop hr]

/-- Deriving a part leaves no more text than there was. -/
theorem Reads.length_le {P : Part} {n : Nat} (h : Reads P s n t r) : r.length ≤ s.length := by
  have hnext : ∀ {c : Char} {s r : List Char}, Next c s r → r.length < s.length := by
    intro c s r h
    have hle := Text.skipBlanks_length_le s
    rw [h, List.length_cons] at hle
    exact hle
  have hname : ∀ {op : Operation} {s r : List Char}, op.StandsAt (Text.skipBlanks s) r →
      r.length ≤ s.length := by
    intro op s r h
    have hle := Text.skipBlanks_length_le s
    rw [h.1, List.length_append] at hle
    omega
  induction h with
  | term _ ih => exact ih
  | summand _ hc _ _ ihl ihr => have := hnext hc; omega
  | factor _ ih => exact ih
  | multiplier _ hc _ _ ihl ihr => have := hnext hc; omega
  | base _ ih => exact ih
  | exponent _ hc _ ihb ihe => have := hnext hc; omega
  | letter hc => exact Nat.le_of_lt (hnext hc)
  | @number s r d hd =>
    obtain ⟨n, hs, -⟩ := hd
    have hle := Text.skipBlanks_length_le s
    rw [hs, List.length_append] at hle
    omega
  | bracket ho _ hc ih => have := hnext ho; have := hnext hc; omega
  | call₁ hn _ ho _ hc ih => have := hname hn; have := hnext ho; have := hnext hc; omega
  | call₂ hn _ ho _ hm _ hc ihx ihy =>
    have := hname hn; have := hnext ho; have := hnext hm; have := hnext hc; omega

/-- The reader follows a derivation: it takes the part and nothing after it, if enough levels are
allowed and nothing comes next that it would take as well. A chain is followed up to the point where
it might stop. -/
def Recognised (limit : Int) : Part → List Char → Nat → Tree κ → List Char → Prop
  | .primary, s, n, t, r => ∀ levels, n ≤ levels → primary (sum limit levels) s = .ok (t, r)
  | .power, s, n, t, r => ∀ levels, n ≤ levels → (∀ x, ¬Next '^' r x) →
      power limit levels s = .ok (t, Text.skipBlanks r)
  | .product, s, n, t, r => ∀ levels, n ≤ levels → (∀ x, ¬Next '^' r x) →
      Reaches productSign (power limit levels) s t r
  | .sum, s, n, t, r => ∀ levels, n ≤ levels →
      (∀ c x, Next c r x → c ≠ '^' ∧ productSign c = none) →
      Reaches sumSign (chain productSign (power limit levels)) s t r

variable {limit : Int} {n : Nat}

theorem Next.unique {c' : Char} {x : List Char} (h : Next c s r) (h' : Next c' s x) : c' = c := by
  unfold Next at h h'
  rw [h] at h'
  cases h'
  rfl

/-- A sum is read up to a bracket, a comma or the end. -/
theorem Recognised.sum_eq (h : Recognised limit .sum s n t r) {levels : Nat} (hn : n < levels)
    (hr : ∀ c x, Next c r x → c = ')' ∨ c = ',') : sum limit levels s = .ok (t, Text.skipBlanks r) := by
  obtain ⟨levels, rfl⟩ : ∃ k, levels = k + 1 := ⟨levels - 1, by omega⟩
  have hends : ∀ c x, Next c r x → c ≠ '^' ∧ productSign c = none ∧ sumSign c = none := by
    intro c x hc
    rcases hr c x hc with rfl | rfl <;> decide
  have hreach := h levels (by omega) fun c x hc => ⟨(hends c x hc).1, (hends c x hc).2.1⟩
  exact hreach.stop fun c x hc => (hends c x hc).2.2

/-- A sum and the token that closes it. -/
theorem Recognised.sum_expect (h : Recognised limit .sum s n t r) {levels : Nat} (hn : n < levels)
    {x : List Char} (hc : Next c r x) (hclose : c = ')' ∨ c = ',') :
    sum limit levels s = .ok (t, Text.skipBlanks r) ∧ expect c (Text.skipBlanks r) = .ok x := by
  refine ⟨h.sum_eq hn fun c' y hc' => hc.unique hc' ▸ hclose, ?_⟩
  rw [expect_eq_ok]
  unfold Next
  rw [Text.skipBlanks_skipBlanks]
  exact hc

theorem power_succ (limit : Int) (levels : Nat) :
    (power limit (levels + 1) : Parser κ) = powerWith (sum limit (levels + 1)) (power limit levels) :=
  rfl

theorem power_eq_of_primary {levels : Nat} (h : primary (sum limit levels) s = .ok (t, r))
    (hr : ∀ x, ¬Next '^' r x) : power limit levels s = .ok (t, Text.skipBlanks r) := by
  have hpower : ∀ exponent, powerWith (sum limit levels) exponent s = .ok (t, Text.skipBlanks r) := by
    intro exponent
    unfold powerWith
    rw [h]
    dsimp only
    split
    · rename_i hx
      exact absurd hx (hr _)
    · rfl
  cases levels with
  | zero => exact hpower _
  | succ levels => exact hpower _

/-- No function is called by anything but letters. -/
theorem noneStandsAt_of_not_letter (h : c.isAlpha = false) : Operation.NoneStandsAt (c :: r) := by
  have hsymbols : ∀ f ∈ Operation.functions, f.symbol.toList.head?.any Char.isAlpha = true := by
    decide
  intro f hf hprefix
  have hletter := hsymbols f hf
  cases hsymbol : f.symbol.toList with
  | nil => simp [hsymbol] at hletter
  | cons a as =>
    rw [hsymbol, List.cons_prefix_cons] at hprefix
    rw [hsymbol, List.head?_cons, Option.any_some, hprefix.1, h] at hletter
    cases hletter

/-- A number begins with neither a bracket nor a letter. -/
theorem exists_head_of_numberAt {d : Decimal} (h : Decimal.NumberAt s d r) :
    ∃ c x, s = c :: x ∧ c ≠ '(' ∧ c.isAlpha = false := by
  obtain ⟨n, rfl, hn, -⟩ := h
  obtain ⟨c, x, rfl, hc | rfl⟩ := hn.exists_cons
  · obtain ⟨v, hv⟩ := Option.isSome_iff_exists.mp hc
    refine ⟨c, _, rfl, ?_, Text.isAlpha_of_digitValue? hv⟩
    rintro rfl
    exact absurd (Text.toNat_of_digitValue? hv) (by decide)
  · exact ⟨'.', _, rfl, by decide⟩

/-! The rules for primaries, one by one. -/

theorem primary_of_function {op : Operation} (h : op.StandsAt (Text.skipBlanks s) r) :
    primary inner s = call op inner r := by
  unfold primary
  dsimp only
  rw [h.function?]
  simp only [h.drop_eq]

theorem primary_of_none (hs : Next c s r) (h : Operation.NoneStandsAt (c :: r)) :
    primary inner s =
      if c = '(' then bracket inner r
      else if c.isAlpha then .ok (.var (some (String.singleton c)), r)
      else
        match Decimal.scan? (c :: r) with
        | some (d, rest) => .ok (.literal (Literal.ofNumeral (.finite false d)), rest)
        | none => .error (unexpected (c :: r)) := by
  unfold primary
  dsimp only
  rewrite [hs, Operation.function?_eq_none_iff.mpr h]
  rfl

theorem recognised_letter (hc : Next c s r) (hno : Operation.NoneStandsAt (c :: r))
    (hletter : c.isAlpha = true) :
    Recognised limit .primary s 0 (.var (some (String.singleton c)) : Tree κ) r := by
  intro levels _
  have hopen : c ≠ '(' := by
    rintro rfl
    cases hletter
  rw [primary_of_none hc hno, if_neg hopen, if_pos hletter]

theorem recognised_number {d : Decimal} (hd : Decimal.NumberAt (Text.skipBlanks s) d r) :
    Recognised limit .primary s 0 (.literal (Literal.ofNumeral (.finite false d)) : Tree κ) r := by
  intro levels _
  obtain ⟨c, x, hs, hopen, hletter⟩ := exists_head_of_numberAt hd
  have hscan := Decimal.scan?_eq_some_iff.mpr hd
  rw [hs] at hscan
  rw [primary_of_none hs (noneStandsAt_of_not_letter hletter), if_neg hopen, hletter, hscan]
  rfl

theorem recognised_bracket {x y : List Char} (ho : Next '(' s x)
    (hsum : Recognised limit .sum x n t y) (hc : Next ')' y r) :
    Recognised limit .primary s (n + 1) t r := by
  intro levels hn
  obtain ⟨hread, hexpect⟩ := hsum.sum_expect hn hc (.inl rfl)
  rw [primary_of_none ho (noneStandsAt_of_not_letter rfl), if_pos rfl]
  simp only [bracket, hread, hexpect]

theorem recognised_call₁ {op : Operation} {x y z : List Char}
    (hop : op.StandsAt (Text.skipBlanks s) x) (hone : op.arity = 1) (ho : Next '(' x y)
    (hsum : Recognised limit .sum y n t z) (hc : Next ')' z r) :
    Recognised limit .primary s (n + 1) (.apply₁ op t) r := by
  intro levels hn
  obtain ⟨hread, hexpect⟩ := hsum.sum_expect hn hc (.inl rfl)
  rw [primary_of_function hop]
  simp only [call, expect_eq_ok.mpr ho, hread, if_pos hone, hexpect]

theorem recognised_call₂ {op : Operation} {x y z z' v : List Char} {m : Nat} {u : Tree κ}
    (hop : op.StandsAt (Text.skipBlanks s) x) (htwo : op.arity = 2) (ho : Next '(' x y)
    (hfirst : Recognised limit .sum y m t z) (hm : Next ',' z z')
    (hsecond : Recognised limit .sum z' n u v) (hc : Next ')' v r) :
    Recognised limit .primary s (max m n + 1) (.apply₂ op t u) r := by
  intro levels hn
  have hm' : m < levels := by omega
  have hn' : n < levels := by omega
  obtain ⟨hread, hcomma⟩ := hfirst.sum_expect hm' hm (.inr rfl)
  obtain ⟨hread', hexpect⟩ := hsecond.sum_expect hn' hc (.inl rfl)
  have hone : op.arity ≠ 1 := by omega
  rw [primary_of_function hop]
  simp only [call, expect_eq_ok.mpr ho, hread, if_neg hone, hcomma, hread', hexpect]

theorem recognised_exponent {b e : Tree κ} {m : Nat} {x y : List Char}
    (hb : Recognised limit .primary s m b x) (hc : Next '^' x y)
    (he : Recognised limit .power y n e r) :
    Recognised limit .power s (max m (n + 1)) (.apply₂ .pow b e) r := by
  intro levels hn hr
  obtain ⟨levels, rfl⟩ : ∃ k, levels = k + 1 := ⟨levels - 1, by omega⟩
  rw [power_succ]
  unfold powerWith
  rw [hb (levels + 1) (by omega)]
  dsimp only
  rw [hc]
  simp only [he levels (by omega) hr]

/-- **The reader follows every derivation.** -/
theorem recognised_of_reads (limit : Int) {P : Part} (h : Reads P s n t r) :
    Recognised limit P s n t r := by
  induction h with
  | term _ ih =>
    intro levels hn hr
    have hreach := ih levels hn fun x hx => (hr _ x hx).1 rfl
    exact reaches_operand (hreach.stop fun c x hc => (hr c x hc).2)
  | @summand s r₁ r₂ r₃ m n l t c op _ hc hop hright ihl ihr =>
    intro levels hn hr
    have hreach := ihr levels (by omega) fun x hx => (hr _ x hx).1 rfl
    have hleft : ∀ c' x, Next c' r₁ x → c' ≠ '^' ∧ productSign c' = none := by
      intro c' x hc'
      obtain rfl := hc.unique hc'
      unfold sumSign at hop
      split at hop
      · decide
      · decide
      · cases hop
    exact (ihl levels (by omega) hleft).round hc hop (hreach.stop fun c x hc => (hr c x hc).2)
      hright.length_le
  | factor _ ih =>
    intro levels hn hr
    exact reaches_operand (ih levels hn hr)
  | @multiplier s r₁ r₂ r₃ m n l t c op _ hc hop hright ihl ihr =>
    intro levels hn hr
    have hleft : ∀ x, ¬Next '^' r₁ x := by
      intro x hx
      obtain rfl := hc.unique hx
      cases hop
    exact (ihl levels (by omega) hleft).round hc hop (ihr levels (by omega) hr) hright.length_le
  | base _ ih =>
    intro levels hn hr
    exact power_eq_of_primary (ih levels hn) hr
  | exponent hb hc he ihb ihe => exact recognised_exponent ihb hc ihe
  | letter hc hno hletter => exact recognised_letter hc hno hletter
  | number hd => exact recognised_number hd
  | bracket ho _ hc ih => exact recognised_bracket ho ih hc
  | call₁ hop hone ho _ hc ih => exact recognised_call₁ hop hone ho ih hc
  | call₂ hop htwo ho _ hm _ hc ihx ihy => exact recognised_call₂ hop htwo ho ihx hm ihy hc

/-- **A sentence reads**, if its nesting is allowed. -/
theorem parse_of_sentence (h : Sentence s n t) (hn : n ≤ limit) : parse limit s = .ok t := by
  obtain ⟨m, r, hsum, hr, rfl⟩ := h
  have hread : sum limit limit.toNat s = .ok (t, Text.skipBlanks r) := by
    refine (recognised_of_reads limit hsum).sum_eq (by omega) fun c x hc => ?_
    unfold Next at hc
    rw [hr] at hc
    cases hc
  unfold parse
  simp only [hread, hr]
  rfl

/-- **The reader accepts the sentences of the grammar**, each with its tree. -/
theorem parse_eq_ok_iff : parse limit s = .ok t ↔ ∃ n : Nat, n ≤ limit ∧ Sentence s n t :=
  ⟨sentence_of_parse, fun ⟨_, hn, h⟩ => parse_of_sentence h hn⟩

end Formula

/-! ## Reading into the store -/

namespace Work

variable {κ : Type} [Literal κ] {w : Workspace κ}

/-- **Reading a formula.** A text that is a sentence of the nesting allowed becomes an expression with
the one tree that the grammar gives it, and every other text is refused as malformed. -/
theorem readFormula_sentence (h : w.store.StrictlyOwned) (limit : Int) (text : String) :
    (readFormula limit text).Ensures w
      (fun e w' => ∀ t : Tree κ, (∃ n : Nat, n ≤ limit ∧ Formula.Sentence text.toList n t) ↔
        t = w'.store.expressionTree e)
      fun f _ => (∀ (n : Nat) (t : Tree κ), Formula.Sentence text.toList n t → limit < n) ∧
        ∃ complaint position, f = .malformed complaint position text := by
  cases hp : (Formula.parse limit text.toList : Except (Formula.Failure) (Tree κ)) with
  | ok t =>
    refine (readFormula_tree h hp).ensures.mono ?_ fun _ _ => id
    rintro e w' ⟨rfl, -⟩ t
    rw [← Formula.parse_eq_ok_iff, hp]
    exact ⟨fun ht => (Except.ok.inj ht).symm, fun ht => ht ▸ rfl⟩
  | error failure =>
    obtain ⟨b, own, h⟩ := h.holds
    refine (readFormula_of_error h hp).mono (fun _ _ => id) ?_
    rintro _ w' ⟨rfl, -⟩
    refine ⟨fun n t hs => ?_, _, _, rfl⟩
    by_contra hn
    have hread := Formula.parse_of_sentence hs (Int.not_lt.mp hn)
    rw [hp] at hread
    cases hread

/-- An exponent in the argument of a function is on the third level. -/
theorem readFormula_arcsine :
    (Store.stocked 4 2 : Store Float).StrictlyOwned ∧
      (∃ (n : Nat) (t : Tree Float), n ≤ (3 : Int) ∧ Formula.Sentence "arcsin(s-1-x^2)".toList n t) ∧
      ∀ (n : Nat) (t : Tree Float), Formula.Sentence "arcsin(s-1-x^2)".toList n t → (2 : Int) < n := by
  let w : Workspace Float := ⟨.stocked 4 2, .opened .minimal, []⟩
  have howned : w.store.StrictlyOwned := Store.stocked_strictlyOwned 4 2
  have hok : ((readFormula 3 "arcsin(s-1-x^2)").perform w).1 = .ok ⟨0⟩ := by decide +kernel
  have herror : ((readFormula 2 "arcsin(s-1-x^2)").perform w).1 =
      .error (.malformed (.tooDeep 2) 13 "arcsin(s-1-x^2)") := by decide +kernel
  -- the text is hidden, or matching statements would read it
  generalize "arcsin(s-1-x^2)" = text at hok herror ⊢
  refine ⟨howned, ?_, ?_⟩
  · obtain ⟨n, hn, ht⟩ := ((readFormula_sentence howned 3 text).of_ok (Prod.ext hok rfl) _).mpr rfl
    exact ⟨n, _, hn, ht⟩
  · exact ((readFormula_sentence howned 2 text).of_error (Prod.ext herror rfl)).1

end Work

end Fluxion
