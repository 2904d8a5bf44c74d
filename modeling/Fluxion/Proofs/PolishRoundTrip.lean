import Fluxion.Proofs.Reading
import Fluxion.Proofs.Respelling
import Fluxion.Proofs.ShortestDecimal
import Fluxion.Proofs.StackLoops
import Fluxion.Scalar.Double

/-!
# Polish notation is read as it is written

The writer makes a list of tokens with spaces between them, the reader cuts a text at blanks and at
brackets. Since no token of a valid tree has a blank or a bracket inside it, the reader gets the tokens that
were written. They spell the tree: a bracket opens a node, a value in a node with two empty slots is a
letter or a number, and no number is spelled like a symbol or like a letter.

What comes back is the tree with its literals read from their numerals, so a zero loses its sign. It has
the same text, and reading that text changes nothing any more.

* `Polish.chars_tokensFrom_spaced` cuts a text into the tokens that it was made of.
* `Polish.spells_polishTokens` reads the tokens of a tree.
* `Polish.polishTokens_readBack` says that what was read is written alike.
* `Work.readPolish_polish` is the round trip for expressions over doubles.
-/

namespace Fluxion

namespace Polish

/-! ## Tokens -/

/-- A run of characters that are neither blanks nor brackets. -/
def IsWord (cs : List Char) : Prop :=
  cs ≠ [] ∧ ∀ c ∈ cs, Text.isBlank c = false ∧ c ≠ '(' ∧ c ≠ ')'

instance (cs : List Char) : Decidable (IsWord cs) := @instDecidableAnd _ _ _ (List.decidableBAll _ _)

/-- A token is a bracket or a word. -/
def IsToken (cs : List Char) : Prop := cs = openToken ∨ cs = closeToken ∨ IsWord cs

theorem chars_wordToken {word : List Char} (h : word ≠ []) (p : Nat) :
    (wordToken word p).map Token.chars = [word.reverse] := by
  cases word with
  | nil => exact absurd rfl h
  | cons c r => rfl

theorem tokensFrom_word {cs : List Char} (h : ∀ c ∈ cs, Text.isBlank c = false ∧ c ≠ '(' ∧ c ≠ ')')
    (word r : List Char) (p : Nat) :
    tokensFrom word p (cs ++ r) = tokensFrom (cs.reverse ++ word) (p + cs.length) r := by
  induction cs generalizing word p with
  | nil => rfl
  | cons c cs ih =>
    obtain ⟨hc, hcs⟩ := List.forall_mem_cons.mp h
    rw [List.cons_append, tokensFrom, if_neg (by simp [hc.1]), if_neg (by simp [hc.2]), ih hcs,
      List.reverse_cons, List.append_assoc, List.length_cons, Nat.add_comm cs.length, Nat.add_assoc]
    rfl

theorem spaced_singleton (t : List Char) : spaced [t] = t := by
  simp [spaced, List.intercalate]

/-- A token, up to the end or to a space. -/
theorem exists_tokensFrom {cs : List Char} (h : IsToken cs) (p : Nat) {r : List Char}
    (hr : r = [] ∨ ∃ r', r = ' ' :: r') :
    ∃ q, (tokensFrom [] p (cs ++ r)).map Token.chars =
      cs :: (tokensFrom [] q r).map Token.chars := by
  rcases h with rfl | rfl | ⟨hne, hword⟩
  · exact ⟨p + 1, rfl⟩
  · exact ⟨p + 1, rfl⟩
  · have hrev : cs.reverse ++ [] ≠ [] := by simpa using hne
    rw [tokensFrom_word hword]
    rcases hr with rfl | ⟨r', rfl⟩
    · refine ⟨p, ?_⟩
      rw [tokensFrom, chars_wordToken hrev]
      simp [tokensFrom, wordToken]
    · refine ⟨p + cs.length, ?_⟩
      have hblank : Text.isBlank ' ' = true := rfl
      rw [tokensFrom, if_pos hblank, tokensFrom, if_pos hblank, List.map_append, chars_wordToken hrev]
      simp [wordToken]

/-- **Tokens with spaces between them are cut where the spaces are.** -/
theorem chars_tokensFrom_spaced {ts : List (List Char)} (h : ∀ t ∈ ts, IsToken t) (p : Nat) :
    (tokensFrom [] p (spaced ts)).map Token.chars = ts := by
  induction ts generalizing p with
  | nil => rfl
  | cons t ts ih =>
    obtain ⟨ht, hts⟩ := List.forall_mem_cons.mp h
    cases ts with
    | nil =>
      obtain ⟨q, hq⟩ := exists_tokensFrom ht p (.inl rfl)
      rw [List.append_nil] at hq
      rw [spaced_singleton]
      exact hq
    | cons t' ts =>
      obtain ⟨q, hq⟩ := exists_tokensFrom ht p (.inr ⟨spaced (t' :: ts), rfl⟩)
      exact hq.trans (congrArg (t :: ·) (ih hts (q + 1)))

theorem isToken_symbol (op : Operation) : IsToken op.symbol.toList := by
  refine .inr (.inr ?_)
  cases op <;> decide

theorem isToken_nil : IsToken nilToken := .inr (.inr (by decide))

/-- A number in a tree is a word, and neither a symbol nor a letter. -/
theorem plainChars_distinct {n : Numeral} (h : n.IsLowest) :
    IsWord n.plainChars ∧ (∀ op : Operation, op.symbol.toList ≠ n.plainChars) ∧
      Name.isLetter (some (String.ofList n.plainChars)) = false := by
  cases n with
  | nan =>
    refine ⟨by decide, ?_, rfl⟩
    intro op
    cases op <;> decide
  | infinite negative =>
    cases negative
    all_goals
      refine ⟨by decide, ?_, rfl⟩
      intro op
      cases op <;> decide
  | finite negative d =>
    have htext := Numeral.numberText_plainChars h
    obtain ⟨c, r, hcons, hc⟩ := htext.exists_cons
    have hchars := Numeral.isNumberChar_of_numberText htext
    have hsymbol : ∀ op : Operation, ∃ a as, op.symbol.toList = a :: as ∧
        Text.isDigit a = false ∧ a ≠ '.' ∧ (a = '-' → as = []) := by
      intro op
      cases op <;> exact ⟨_, _, rfl, by decide, by decide, by decide⟩
    rw [Numeral.plainChars_finite h]
    cases negative && d.digits != 0 with
    | false =>
      rw [Numeral.signed_false]
      refine ⟨⟨?_, fun c hc => Numeral.isBlank_of_isNumberChar (hchars c hc)⟩, ?_, ?_⟩
      · rw [hcons]
        exact List.cons_ne_nil c r
      · intro op heq
        obtain ⟨a, as, hop, hdigit, hpoint, -⟩ := hsymbol op
        rw [hop, hcons] at heq
        cases heq
        rcases hc with hc | hc
        · rw [hdigit] at hc
          cases hc
        · exact hpoint hc
      · rw [hcons, Name.isLetter, String.toList_ofList]
        cases r with
        | nil =>
          rcases hc with hc | rfl
          · obtain ⟨v, hv⟩ := Option.isSome_iff_exists.mp hc
            exact Text.isAlpha_of_digitValue? hv
          · rfl
        | cons _ _ => rfl
    | true =>
      rw [Numeral.signed, if_pos rfl]
      refine ⟨⟨List.cons_ne_nil _ _, List.forall_mem_cons.mpr ⟨by decide, fun c hc =>
        Numeral.isBlank_of_isNumberChar (hchars c hc)⟩⟩, ?_, ?_⟩
      · intro op heq
        obtain ⟨a, as, hop, -, -, hminus⟩ := hsymbol op
        rw [hop, hcons] at heq
        cases heq
        cases hminus rfl
      · rw [hcons, Name.isLetter, String.toList_ofList]

theorem isWord_letter {n : Name} (h : n.isLetter = true) : IsWord n.shown.toList := by
  obtain ⟨c, hc, hletter⟩ := Name.exists_letter h
  rw [hc]
  refine ⟨List.cons_ne_nil c [], ?_⟩
  rw [List.forall_mem_singleton]
  refine ⟨Text.isBlank_of_isAlpha hletter, ?_, ?_⟩ <;> rintro rfl <;> cases hletter

theorem operatorToken_of_resolve {o : Operator} {op : Operation} (h : o.resolve = some op) :
    operatorToken o = op.symbol.toList := by
  rw [operatorToken, h]

variable {κ : Type} [Literal κ]

/-- Every token of a valid tree is one. -/
theorem isToken_of_mem_polishTokens (hκ : Literal.Lawful κ) {t : Tree κ} (ht : t.Valid) :
    ∀ cs ∈ t.polishTokens, IsToken cs := by
  have hleaf : ∀ word, IsWord word →
      ∀ cs ∈ [openToken, word, nilToken, nilToken, closeToken], IsToken cs := by
    intro word hword
    simp only [List.forall_mem_cons]
    exact ⟨.inl rfl, .inr (.inr hword), isToken_nil, isToken_nil, .inr (.inl rfl), List.forall_mem_nil _⟩
  have hoperator : ∀ (op : Operator) (n : Nat), (op.resolveArity n).isSome = true →
      IsToken (operatorToken op) := by
    intro op n hop
    obtain ⟨o, -, hresolve⟩ := Operator.exists_resolve hop
    rw [operatorToken_of_resolve hresolve]
    exact isToken_symbol o
  rcases ht with rfl | ht
  · exact List.forall_mem_singleton.mpr isToken_nil
  · induction t with
    | absent => cases ht
    | literal v => exact hleaf _ (plainChars_distinct (hκ.isLowest v)).1
    | var n => exact hleaf _ (isWord_letter ht)
    | binary op l r ihl ihr =>
      simp only [Tree.isWellFormed, Bool.and_eq_true] at ht
      simp only [Tree.polishTokens, List.forall_mem_cons, List.forall_mem_append]
      exact ⟨.inl rfl, hoperator op 2 ht.1.1, ⟨ihl ht.1.2, ihr ht.2⟩, .inr (.inl rfl),
        List.forall_mem_nil _⟩
    | unary op x ih =>
      simp only [Tree.isWellFormed, Bool.and_eq_true] at ht
      simp only [Tree.polishTokens, List.forall_mem_cons, List.forall_mem_append]
      exact ⟨.inl rfl, hoperator op 1 ht.1, ih ht.2, isToken_nil, .inr (.inl rfl),
        List.forall_mem_nil _⟩

/-! ## Nodes -/

theorem ofSymbol?_symbol (op : Operation) : Operation.ofSymbol? op.symbol = some op := by
  cases op <;> rfl

variable {value : Token} {l r x : Tree κ} {op : Operation}

/-- At the symbol of an operation the operands are counted. -/
theorem build_symbol (hv : value.chars = op.symbol.toList) :
    build value l r =
      if op.arity = 2 then
        if l.isAbsent || r.isAbsent then .error (.wantsTwoOperands value.text)
        else .ok (.apply₂ op l r)
      else if l.isAbsent || !r.isAbsent then .error (.wantsOneOperand value.text)
      else .ok (.apply₁ op l) := by
  have htext : value.text = op.symbol := by rw [Token.text, hv, String.ofList_toList]
  have hbracket : ¬(value.chars = openToken ∨ value.chars = closeToken) := by
    rw [hv]
    cases op <;> decide
  unfold build
  dsimp only
  rewrite [if_neg (by simpa using hbracket), htext, ofSymbol?_symbol]
  rfl

theorem build_apply₂ (hv : value.chars = op.symbol.toList) (ha : op.arity = 2)
    (hl : l.isAbsent = false) (hr : r.isAbsent = false) :
    build value l r = .ok (.apply₂ op l r) := by
  rw [build_symbol hv, if_pos ha, hl, hr, if_neg (by decide)]

theorem build_apply₁ (hv : value.chars = op.symbol.toList) (ha : op.arity = 1)
    (hx : x.isAbsent = false) : build value x .absent = .ok (.apply₁ op x) := by
  have hne : op.arity ≠ 2 := ha ▸ by decide
  rw [build_symbol hv, if_neg hne, hx, Tree.isAbsent_absent, if_neg (by decide)]

/-- A leaf is a letter or a number where no operation is meant. -/
theorem build_leaf (hop : ∀ op : Operation, op.symbol.toList ≠ value.chars)
    (hbracket : value.chars ≠ openToken ∧ value.chars ≠ closeToken) :
    (build value .absent .absent : Except Complaint (Tree κ)) =
      if Name.isLetter (some value.text) then .ok (.var (some value.text))
      else
        match Numeral.read? value.chars with
        | some n => .ok (.literal (Literal.ofNumeral n))
        | none => .error (.unknownValue value.text) := by
  have hnone : Operation.ofSymbol? value.text = none := by
    refine List.find?_eq_none.mpr fun op _ => ?_
    rw [beq_iff_eq]
    intro heq
    exact hop op (by rw [heq, Token.text, String.toList_ofList])
  unfold build
  dsimp only
  rewrite [hnone, if_neg (by simpa using hbracket)]
  rfl

theorem build_var {n : Name} (hv : value.chars = n.shown.toList) (hn : n.isLetter = true) :
    (build value .absent .absent : Except Complaint (Tree κ)) = .ok (.var n) := by
  cases n with
  | none => cases hn
  | some s =>
    have htext : value.text = s := by rw [Token.text, hv, Name.shown, String.ofList_toList]
    obtain ⟨c, hc, hletter⟩ := Name.exists_letter hn
    rw [Name.shown] at hc
    rw [Name.shown, hc] at hv
    have hop : ∀ op : Operation, op.symbol.toList ≠ value.chars := by
      intro op heq
      rw [hv] at heq
      have hnot : ∀ op : Operation, op.symbol.length = 1 →
          op.symbol.toList.all (fun c => !c.isAlpha) = true := by
        intro op
        cases op <;> decide
      have hone : op.symbol.length = 1 := by rw [← String.length_toList, heq, List.length_singleton]
      have hfalse := hnot op hone
      rw [heq, List.all_cons, hletter] at hfalse
      cases hfalse
    have hbracket : value.chars ≠ openToken ∧ value.chars ≠ closeToken := by
      rw [hv]
      constructor <;> rintro ⟨⟩ <;> cases hletter
    rw [build_leaf hop hbracket, htext, if_pos hn]

theorem build_literal {n : Numeral} (hv : value.chars = n.plainChars) (hn : n.IsLowest) :
    (build value .absent .absent : Except Complaint (Tree κ)) =
      .ok (.literal (Literal.ofNumeral n.settled)) := by
  obtain ⟨hword, hop, hletter⟩ := plainChars_distinct hn
  have hbracket : value.chars ≠ openToken ∧ value.chars ≠ closeToken := by
    rw [hv]
    constructor
    · intro heq
      exact (hword.2 '(' (by rw [heq]; exact List.mem_singleton_self _)).2.1 rfl
    · intro heq
      exact (hword.2 ')' (by rw [heq]; exact List.mem_singleton_self _)).2.2 rfl
  rw [build_leaf (hv ▸ hop) hbracket, Token.text, hv, hletter, Numeral.read?_plainChars hn]
  rfl

/-! ## Whole texts -/

/-- The tree that is read where `t` was written. -/
def readBack (t : Tree κ) : Tree κ :=
  t.respelled fun v => .literal (Literal.ofNumeral (Literal.toNumeral v).settled)

theorem isAbsent_readBack (t : Tree κ) : (readBack t).isAbsent = t.isAbsent := by
  cases t <;> rfl

/-- With more than `n` levels, the tokens are read as the tree. -/
def Spells (n : Nat) (us : List Token) (t : Tree κ) : Prop :=
  ∀ levels rest, n < levels → tree levels (us ++ rest) = .ok (t, rest)

theorem spells_nil {u : Token} (h : u.chars = nilToken) : Spells 0 [u] (.absent : Tree κ) := by
  intro levels rest hlevels
  obtain ⟨levels, rfl⟩ := Nat.exists_eq_succ_of_ne_zero (Nat.ne_of_gt hlevels)
  have hne : ¬nilToken = openToken := by decide
  rw [List.singleton_append]
  unfold tree
  rw [h, if_neg hne, if_pos rfl]

/-- A value, two slots and the brackets. -/
theorem Spells.node {m n : Nat} {o b : Token} {ls rs : List Token} {t : Tree κ}
    (ho : o.chars = openToken) (hl : Spells m ls l) (hr : Spells n rs r)
    (ht : build value l r = .ok t) (hb : b.chars = closeToken) :
    Spells (max m n + 1) (o :: value :: (ls ++ rs ++ [b])) t := by
  intro levels rest hlevels
  obtain ⟨levels, rfl⟩ := Nat.exists_eq_succ_of_ne_zero (Nat.ne_of_gt (Nat.zero_lt_of_lt hlevels))
  have hleft := hl levels (rs ++ b :: rest) (by omega)
  have hright := hr levels (b :: rest) (by omega)
  have hclose : close value l r (b :: rest) = .ok (t, rest) := by
    rw [close, ht]
    exact if_pos hb
  rw [List.cons_append, List.cons_append, List.append_assoc, List.append_assoc,
    List.singleton_append, tree, if_pos ho, hleft]
  dsimp only
  rw [hright]
  exact hclose

/-- A value without operands. -/
theorem spells_leaf {word : List Char} {us : List Token} {t : Tree κ}
    (hus : us.map Token.chars = [openToken, word, nilToken, nilToken, closeToken])
    (ht : ∀ value : Token, value.chars = word → build value .absent .absent = .ok t) :
    Spells 1 us t := by
  simp only [List.map_eq_cons_iff, List.map_eq_nil_iff] at hus
  obtain ⟨o, _, rfl, ho, value, _, rfl, hv, x, _, rfl, hx, y, _, rfl, hy, b, _, rfl, hb, rfl⟩ := hus
  exact .node ho (spells_nil hx) (spells_nil hy) (ht value hv) hb

/-- **The tokens of a valid tree are read as the tree.** -/
theorem spells_polishTokens (hκ : Literal.Lawful κ) {t : Tree κ} (ht : t.isWellFormed = true) :
    ∀ {us : List Token}, us.map Token.chars = t.polishTokens → Spells t.depth us (readBack t) := by
  have hpresent : ∀ {x : Tree κ}, x.isWellFormed = true → (readBack x).isAbsent = false := by
    intro x hx
    rw [isAbsent_readBack, Tree.isAbsent_of_isWellFormed hx]
  induction t with
  | absent => cases ht
  | literal v =>
    intro us hus
    exact spells_leaf hus fun value hv => build_literal hv (hκ.isLowest v)
  | var n =>
    intro us hus
    exact spells_leaf hus fun value hv => build_var hv ht
  | binary op l r ihl ihr =>
    intro us hus
    simp only [Tree.isWellFormed, Bool.and_eq_true] at ht
    obtain ⟨⟨hop, hl⟩, hr⟩ := ht
    obtain ⟨o, harity, hresolve⟩ := Operator.exists_resolve hop
    have hnamed := Operator.named_of_resolve hresolve
    rw [Tree.polishTokens, operatorToken_of_resolve hresolve] at hus
    simp only [List.map_eq_cons_iff, List.map_eq_append_iff, List.map_eq_nil_iff] at hus
    obtain ⟨u, _, rfl, hu, value, _, rfl, hv, _, _, rfl, ⟨ls, rs, rfl, hls, hrs⟩, b, _, rfl, hb, rfl⟩ := hus
    have hbuild := build_apply₂ hv harity (hpresent hl) (hpresent hr)
    rw [Tree.apply₂, ← hnamed] at hbuild
    exact .node hu (ihl hl hls) (ihr hr hrs) hbuild hb
  | unary op x ih =>
    intro us hus
    simp only [Tree.isWellFormed, Bool.and_eq_true] at ht
    obtain ⟨hop, hx⟩ := ht
    obtain ⟨o, harity, hresolve⟩ := Operator.exists_resolve hop
    have hnamed := Operator.named_of_resolve hresolve
    rw [Tree.polishTokens, operatorToken_of_resolve hresolve] at hus
    simp only [List.map_eq_cons_iff, List.map_eq_append_iff, List.map_eq_nil_iff] at hus
    obtain ⟨u, _, rfl, hu, value, _, rfl, hv, xs, _, rfl, hxs, y, _, rfl, hy, b, _, rfl, hb, rfl⟩ := hus
    have hbuild := build_apply₁ hv harity (hpresent hx)
    rw [Tree.apply₁, ← hnamed] at hbuild
    have hnode := Spells.node hu (ih hx hxs) (spells_nil hy) hbuild hb
    rw [Nat.max_zero, List.append_assoc] at hnode
    exact hnode

/-- Every level of a tree takes a token. -/
theorem depth_le_length_polishTokens (t : Tree κ) : t.depth ≤ t.polishTokens.length := by
  induction t with
  | absent => exact Nat.zero_le _
  | literal v => exact Nat.succ_le_succ (Nat.zero_le _)
  | var n => exact Nat.succ_le_succ (Nat.zero_le _)
  | binary op l r ihl ihr =>
    rw [Tree.polishTokens, Tree.depth]
    simp only [List.length_cons, List.length_append]
    omega
  | unary op x ih =>
    rw [Tree.polishTokens, Tree.depth]
    simp only [List.length_cons, List.length_append]
    omega

/-- **A valid tree is read from its text.** -/
theorem parse_spaced (hκ : Literal.Lawful κ) {t : Tree κ} (ht : t.Valid) :
    parse (spaced t.polishTokens) = .ok (readBack t) := by
  have hus : (tokens (spaced t.polishTokens)).map Token.chars = t.polishTokens :=
    chars_tokensFrom_spaced (isToken_of_mem_polishTokens hκ ht) 0
  have hlength : (tokens (spaced t.polishTokens)).length = t.polishTokens.length :=
    (List.length_map ..).symm.trans (congrArg List.length hus)
  have hspells : Spells t.depth (tokens (spaced t.polishTokens)) (readBack t) := by
    rcases ht with rfl | ht
    · exact spells_nil rfl
    · exact spells_polishTokens hκ ht hus
  have hread := hspells ((tokens (spaced t.polishTokens)).length + 1) []
    (by rw [hlength]; exact Nat.lt_succ_of_le (depth_le_length_polishTokens t))
  rw [List.append_nil] at hread
  unfold parse
  dsimp only
  rw [hread]

omit [Literal κ] in
/-- Every operator of a valid tree has a symbol. -/
theorem unwritable?_eq_none {t : Tree κ} (ht : t.Valid) : t.unwritable? = none := by
  have hresolve : ∀ {op : Operator} {n : Nat}, (op.resolveArity n).isSome = true →
      op.resolve.isNone = false := by
    intro op n hop
    obtain ⟨o, -, hresolve⟩ := Operator.exists_resolve hop
    rw [hresolve]
    rfl
  rcases ht with rfl | ht
  · rfl
  · induction t with
    | absent => rfl
    | literal v => rfl
    | var n => rfl
    | binary op l r ihl ihr =>
      simp only [Tree.isWellFormed, Bool.and_eq_true] at ht
      simp [Tree.unwritable?, hresolve ht.1.1, ihl ht.1.2, ihr ht.2]
    | unary op x ih =>
      simp only [Tree.isWellFormed, Bool.and_eq_true] at ht
      simp [Tree.unwritable?, hresolve ht.1, ih ht.2]

theorem polish_eq_ok {t : Tree κ} (ht : t.Valid) :
    t.polish = .ok (String.ofList (spaced t.polishTokens)) := by
  rw [Tree.polish_eq, unwritable?_eq_none ht]

/-! ## The text of what was read -/

/-- Only the sign of a zero does not come back. -/
theorem toNumeral_ofNumeral_settled (hκ : Literal.Lawful κ) (v : κ) :
    Literal.toNumeral (Literal.ofNumeral (Literal.toNumeral v).settled : κ) =
      (Literal.toNumeral v).settled := by
  rcases Numeral.settled_eq (Literal.toNumeral v) with h | h
  · rw [h, hκ.ofNumeral_toNumeral]
  · rw [h, hκ.toNumeral_unsigned]

/-- **The tree that is read back has the same text.** -/
theorem polishTokens_readBack (hκ : Literal.Lawful κ) (t : Tree κ) :
    (readBack t).polishTokens = t.polishTokens := by
  have hoperator : ∀ op : Operator, operatorToken op.named = operatorToken op := by
    intro op
    rw [operatorToken, Operator.resolve_named, operatorToken]
  unfold readBack
  induction t with
  | absent => rfl
  | literal v =>
    have hchars : (Literal.toNumeral (Literal.ofNumeral (Literal.toNumeral v).settled : κ)).plainChars =
        (Literal.toNumeral v).plainChars := by
      rw [toNumeral_ofNumeral_settled hκ, Numeral.plainChars_settled (hκ.isLowest v)]
    simp only [Tree.respelled, Tree.polishTokens, hchars]
  | var n => rfl
  | binary op l r ihl ihr =>
    simp only [Tree.respelled, Tree.polishTokens, hoperator, ihl, ihr]
  | unary op x ih => simp only [Tree.respelled, Tree.polishTokens, hoperator, ih]

theorem valid_readBack {t : Tree κ} (ht : t.Valid) : (readBack t).Valid := ht.respelled fun _ => rfl

end Polish

/-! ## Expressions -/

namespace Tree

/-- The tree with its operations by themselves and no sign on a zero. -/
def settled (t : Tree Float) : Tree Float :=
  t.respelled fun v => .literal (if v == 0.0 then 0.0 else v)

theorem readBack_eq_settled (t : Tree Float) : Polish.readBack t = t.settled := by
  unfold Polish.readBack settled
  simp only [Literal.ofNumeral_settled_float]

end Tree

namespace Work

open Polish

variable {w : Workspace Float}

/-- The text of a valid tree is read as the tree and is the text of what was read. -/
theorem exists_readPolish (h : w.store.StrictlyOwned) {t : Tree Float} (ht : t.Valid) :
    ∃ c, t.polish = .ok c ∧ (readPolish c).Succeeds w fun e w' =>
      w'.store.expressionTree e = t.settled ∧ (w'.store.expressionTree e).Valid ∧
        (w'.store.expressionTree e).polish = .ok c := by
  refine ⟨_, polish_eq_ok ht, ?_⟩
  have hparse := parse_spaced Literal.lawful_float ht
  rw [← String.toList_ofList (l := spaced t.polishTokens)] at hparse
  refine (readPolish_tree h hparse).mono ?_
  rintro e w' ⟨htree, -⟩
  rw [htree]
  refine ⟨Tree.readBack_eq_settled t, valid_readBack ht, ?_⟩
  rw [polish_eq_ok (valid_readBack ht), polishTokens_readBack Literal.lawful_float]

/-- **Polish notation is read as it is written.** A valid tree has a text, which is read as the same tree
but for the signs of zeros; and where a text is read, the text of the result is a canonical form of it,
which is read as the same tree and written as itself. -/
theorem readPolish_polish (h : w.store.StrictlyOwned) :
    (∀ t : Tree Float, t.Valid → ∃ c, t.polish = .ok c ∧ (readPolish c).Succeeds w fun e w' =>
      w'.store.expressionTree e = t.settled ∧ (w'.store.expressionTree e).Valid) ∧
    ∀ s, (readPolish s).Ensures w
      (fun e w' => ∃ c, (w'.store.expressionTree e).polish = .ok c ∧
        (readPolish c).Succeeds w' fun e' w'' =>
          w''.store.expressionTree e' = (w'.store.expressionTree e).settled ∧
            (w''.store.expressionTree e').polish = .ok c)
      fun _ _ => True := by
  constructor
  · intro t ht
    obtain ⟨c, hc, hread⟩ := exists_readPolish h ht
    exact ⟨c, hc, hread.mono fun e w' he => ⟨he.1, he.2.1⟩⟩
  · intro s
    cases hp : (parse s.toList : Except Failure (Tree Float)) with
    | error failure =>
      obtain ⟨b, own, h⟩ := h.holds
      exact (readPolish_of_error h hp).mono (fun _ _ => id) fun _ _ _ => trivial
    | ok t =>
      refine (readPolish_tree h hp).ensures.mono ?_ fun _ _ => id
      rintro e w' ⟨rfl, howned⟩
      obtain ⟨c, hc, hread⟩ := exists_readPolish howned (valid_of_parse hp)
      exact ⟨c, hc, hread.mono fun e' w'' he => ⟨he.1, he.2.2⟩⟩

/-- The other zero loses its sign. -/
theorem readPolish_minusZero :
    (Store.stocked 4 2 : Store Float).StrictlyOwned ∧
      (Tree.apply₂ .sub (.literal (-0.0)) (.var (some "x")) : Tree Float).polish =
        .ok "( - ( 0 nil nil ) ( x nil nil ) )" ∧
      (readPolish "( - ( 0 nil nil ) ( x nil nil ) )").Succeeds
        (⟨.stocked 4 2, .opened .minimal, []⟩ : Workspace Float) fun e w' =>
          w'.store.expressionTree e = .apply₂ .sub (.literal 0.0) (.var (some "x")) := by
  have howned : (Store.stocked 4 2 : Store Float).StrictlyOwned := Store.stocked_strictlyOwned 4 2
  have hpolish : (Tree.apply₂ .sub (.literal (-0.0)) (.var (some "x")) : Tree Float).polish =
      .ok "( - ( 0 nil nil ) ( x nil nil ) )" := by decide +kernel
  have hvalid : (Tree.apply₂ .sub (.literal (-0.0)) (.var (some "x")) : Tree Float).Valid :=
    .inr (by decide)
  have hsettled : (Tree.apply₂ .sub (.literal (-0.0)) (.var (some "x")) : Tree Float).settled =
      .apply₂ .sub (.literal 0.0) (.var (some "x")) := by decide +kernel
  generalize "( - ( 0 nil nil ) ( x nil nil ) )" = text at hpolish ⊢
  obtain ⟨c, hc, hread⟩ := (readPolish_polish
    (w := ⟨.stocked 4 2, .opened .minimal, []⟩) howned).1 _ hvalid
  rw [hpolish] at hc
  cases hc
  exact ⟨howned, hpolish, hread.mono fun e w' he => he.1.trans hsettled⟩

end Work

end Fluxion
