import Fluxion.Polish.Reader
import Fluxion.Formula.Reader
import Fluxion.Proofs.Shape

/-!
# Reading without a store

What a reader makes of a text can be said without nodes: a parser takes the text that is left and
gives a tree and what is left after it, or the failure. The parsers have the shape of the grammar, and
the parser of Polish notation goes down one level for every bracket. They say which trees the readers
plant and which failures they report; how the readers come by their nodes and what they do with them is
no concern here.

* `Formula.parse` and `Polish.parse` read whole texts.
* `Formula.isWellFormed_of_parse` and `Polish.valid_of_parse` say which trees parsers give.
-/

namespace Fluxion

namespace Tree

variable {κ : Type} {op : Operation} {l r x : Tree κ}

theorem isWellFormed_apply₂ (ho : op.arity = 2) (hl : l.isWellFormed = true)
    (hr : r.isWellFormed = true) : (apply₂ op l r).isWellFormed = true := by
  simp [apply₂, isWellFormed, Operator.resolveArity_known ho, hl, hr]

theorem isWellFormed_apply₁ (ho : op.arity = 1) (hx : x.isWellFormed = true) :
    (apply₁ op x).isWellFormed = true := by
  simp [apply₁, isWellFormed, Operator.resolveArity_known ho, hx]

end Tree

/-! ## Formulas -/

namespace Formula

/-- A parser of one part of a formula. -/
abbrev Parser (κ : Type) := List Char → Except Failure (Tree κ × List Char)

section

variable {κ : Type}

/-- Extends the chain `left` as long as a sign follows. Every round takes at least a sign, so the
length of the text bounds the number of rounds. -/
def chainTail (sign : Char → Option Operation) (operand : Parser κ) :
    Nat → Tree κ → Parser κ
  | rounds, left, s =>
    match Text.skipBlanks s with
    | [] => .ok (left, [])
    | c :: r =>
      match sign c, rounds with
      | some op, rounds + 1 =>
        match operand r with
        | .error f => .error f
        | .ok (right, rest) => chainTail sign operand rounds (.apply₂ op left right) rest
      | _, _ => .ok (left, c :: r)

/-- Reads a chain of operands with signs between them. -/
def chain (sign : Char → Option Operation) (operand : Parser κ) : Parser κ := fun s =>
  match operand s with
  | .error f => .error f
  | .ok (t, rest) => chainTail sign operand rest.length t rest

/-- Reads the arguments of a function whose symbol was taken. -/
def call (op : Operation) (argument : Parser κ) : Parser κ := fun s =>
  match expect '(' s with
  | .error f => .error f
  | .ok s =>
    match argument s with
    | .error f => .error f
    | .ok (first, s) =>
      if op.arity = 1 then
        match expect ')' s with
        | .error f => .error f
        | .ok s => .ok (.apply₁ op first, s)
      else
        match expect ',' s with
        | .error f => .error f
        | .ok s =>
          match argument s with
          | .error f => .error f
          | .ok (second, s) =>
            match expect ')' s with
            | .error f => .error f
            | .ok s => .ok (.apply₂ op first second, s)

/-- Reads a sum and the bracket that closes it. -/
def bracket (inner : Parser κ) : Parser κ := fun s =>
  match inner s with
  | .error f => .error f
  | .ok (t, s) =>
    match expect ')' s with
    | .error f => .error f
    | .ok s => .ok (t, s)

variable [Literal κ]

/-- Reads a primary; `inner` reads what stands in brackets. -/
def primary (inner : Parser κ) : Parser κ := fun s =>
  let s := Text.skipBlanks s
  match Operation.function? s with
  | some op => call op inner (s.drop op.symbol.length)
  | none =>
    match s with
    | [] => .error (unexpected s)
    | c :: r =>
      if c = '(' then bracket inner r
      else if c.isAlpha then .ok (.var (some (String.singleton c)), r)
      else
        match Decimal.scan? s with
        | some (d, rest) => .ok (.literal (Literal.ofNumeral (.finite false d)), rest)
        | none => .error (unexpected s)

/-- Reads a power; `inner` reads what stands in brackets and `exponent` what stands after `^`. -/
def powerWith (inner exponent : Parser κ) : Parser κ := fun s =>
  match primary inner s with
  | .error f => .error f
  | .ok (base, rest) =>
    match Text.skipBlanks rest with
    | '^' :: r =>
      match exponent r with
      | .error f => .error f
      | .ok (e, rest) => .ok (.apply₂ .pow base e, rest)
    | rest => .ok (base, rest)

/-- Reads a sum, given a reader of powers. -/
def sumOf (power : Parser κ) : Parser κ := chain sumSign (chain productSign power)

/-- Refuses to go one level deeper. -/
def tooDeep (limit : Int) : Parser κ := fun s => .error ⟨.tooDeep limit, s⟩

/-- Reads a power with `levels` more levels of nesting allowed inside it. -/
def power (limit : Int) : Nat → Parser κ
  | 0 => powerWith (tooDeep limit) (tooDeep limit)
  | levels + 1 => powerWith (sumOf (power limit levels)) (power limit levels)

/-- Reads a sum that opens a level of nesting, with `levels` levels allowed. -/
def sum (limit : Int) : Nat → Parser κ
  | 0 => tooDeep limit
  | levels + 1 => sumOf (power limit levels)

/-- Reads a whole text. -/
def parse (limit : Int) (s : List Char) : Except Failure (Tree κ) :=
  match sum limit limit.toNat s with
  | .error f => .error f
  | .ok (t, rest) =>
    match Text.skipBlanks rest with
    | [] => .ok t
    | c :: r => .error (unexpected (c :: r))

end

variable {κ : Type}

/-- A parser gives well-formed trees. -/
def Sound (parser : Parser κ) : Prop := ∀ {s t r}, parser s = .ok (t, r) → t.isWellFormed = true

variable {operand inner exponent : Parser κ} {sign : Char → Option Operation}

theorem arity_sumSign {c : Char} {op : Operation} (h : sumSign c = some op) : op.arity = 2 := by
  unfold sumSign at h
  split at h <;> cases h <;> rfl

theorem arity_productSign {c : Char} {op : Operation} (h : productSign c = some op) :
    op.arity = 2 := by
  unfold productSign at h
  split at h <;> cases h <;> rfl

/-- A chain is well-formed as far as it has come. -/
theorem sound_chainTail (hsign : ∀ {c op}, sign c = some op → op.arity = 2) (ho : Sound operand)
    (rounds : Nat) {left : Tree κ} (hl : left.isWellFormed = true) :
    Sound (chainTail sign operand rounds left) := by
  induction rounds generalizing left with
  | zero =>
    intro s t r h
    unfold chainTail at h
    split at h
    · cases h
      exact hl
    · split at h
      · contradiction
      · cases h
        exact hl
  | succ rounds ih =>
    intro s t r h
    unfold chainTail at h
    split at h
    · cases h
      exact hl
    · split at h
      · rename_i op n hop hn
        obtain rfl : rounds = n := Nat.succ.inj hn
        split at h
        · cases h
        · exact ih (Tree.isWellFormed_apply₂ (hsign hop) hl (ho ‹_›)) h
      · cases h
        exact hl

theorem sound_chain (hsign : ∀ {c op}, sign c = some op → op.arity = 2) (ho : Sound operand) :
    Sound (chain sign operand) := by
  intro s t r h
  unfold chain at h
  split at h
  · cases h
  · exact sound_chainTail hsign ho _ (ho ‹_›) h

theorem sound_call (op : Operation) (hi : Sound inner) : Sound (call op inner) := by
  intro s t r h
  unfold call at h
  split at h
  · cases h
  split at h
  · cases h
  rename_i first _ hfirst
  have hfirst := hi hfirst
  split at h
  · rename_i hone
    split at h
    · cases h
    · cases h
      exact Tree.isWellFormed_apply₁ hone hfirst
  · rename_i hone
    split at h
    · cases h
    split at h
    · cases h
    rename_i second _ hsecond
    have hsecond := hi hsecond
    split at h
    · cases h
    · cases h
      exact Tree.isWellFormed_apply₂ (op.arity_eq.resolve_left hone) hfirst hsecond

theorem sound_bracket (hi : Sound inner) : Sound (bracket inner) := by
  intro s t r h
  unfold bracket at h
  split at h
  · cases h
  rename_i ht
  split at h
  · cases h
  · cases h
    exact hi ht

theorem sound_tooDeep (limit : Int) : Sound (tooDeep limit : Parser κ) := by
  intro s t r h
  cases h

variable [Literal κ]

theorem sound_primary (hi : Sound inner) : Sound (primary inner) := by
  intro s t r h
  unfold primary at h
  dsimp only at h
  split at h
  · exact sound_call _ hi h
  split at h
  · cases h
  split at h
  · exact sound_bracket hi h
  split at h
  · rename_i hc
    cases h
    simpa [Tree.isWellFormed, Name.isLetter] using hc
  split at h
  · cases h
    rfl
  · cases h

theorem sound_powerWith (hi : Sound inner) (he : Sound exponent) : Sound (powerWith inner exponent) := by
  intro s t r h
  unfold powerWith at h
  split at h
  · cases h
  rename_i hbase
  have hbase := sound_primary hi hbase
  split at h
  · split at h
    · cases h
    · cases h
      exact Tree.isWellFormed_apply₂ rfl hbase (he ‹_›)
  · cases h
    exact hbase

omit [Literal κ] in
theorem sound_sumOf (hp : Sound operand) : Sound (sumOf operand) :=
  sound_chain arity_sumSign (sound_chain arity_productSign hp)

/-- Powers are parsed soundly at every level of nesting. -/
theorem sound_power (limit : Int) (levels : Nat) : Sound (power limit levels : Parser κ) := by
  induction levels with
  | zero => exact sound_powerWith (sound_tooDeep limit) (sound_tooDeep limit)
  | succ levels ih => exact sound_powerWith (sound_sumOf ih) ih

theorem sound_sum (limit : Int) (levels : Nat) : Sound (sum limit levels : Parser κ) := by
  cases levels with
  | zero => exact sound_tooDeep limit
  | succ levels => exact sound_sumOf (sound_power limit levels)

/-- **A formula that reads is well-formed.** -/
theorem isWellFormed_of_parse {limit : Int} {s : List Char} {t : Tree κ} (h : parse limit s = .ok t) :
    t.isWellFormed = true := by
  unfold parse at h
  split at h
  · cases h
  · rename_i hsum
    split at h
    · cases h
      exact sound_sum limit _ hsum
    · cases h

end Formula

/-! ## Polish notation -/

namespace Polish

variable {κ : Type} [Literal κ]

/-- The node with a value and two slots. -/
def build (value : Token) (l r : Tree κ) : Except Complaint (Tree κ) :=
  let text := value.text
  if value.chars = openToken || value.chars = closeToken then .error (.bracketAsValue text)
  else
    match Operation.ofSymbol? text with
    | some op =>
      if op.arity = 2 then
        if l.isAbsent || r.isAbsent then .error (.wantsTwoOperands text) else .ok (.apply₂ op l r)
      else if l.isAbsent || !r.isAbsent then .error (.wantsOneOperand text)
      else .ok (.apply₁ op l)
    | none =>
      if !l.isAbsent || !r.isAbsent then .error (.leafWithChildren text)
      else if Name.isLetter (some text) then .ok (.var (some text))
      else
        match Numeral.read? value.chars with
        | some n => .ok (.literal (Literal.ofNumeral n))
        | none => .error (.unknownValue text)

/-- Finishes a node: builds it and takes its closing bracket. -/
def close (value : Token) (l r : Tree κ) (ts : List Token) :
    Except Failure (Tree κ × List Token) :=
  match build value l r with
  | .error c => .error ⟨c, ts⟩
  | .ok t =>
    match ts with
    | [] => .error ⟨.notClosed, []⟩
    | b :: rest =>
      if b.chars = closeToken then .ok (t, rest) else .error ⟨.notClosed, b :: rest⟩

/-- Reads one tree. Every level of nesting takes a token, so the number of tokens bounds the
levels. -/
def tree : Nat → List Token → Except Failure (Tree κ × List Token)
  | 0, ts => .error ⟨.treeEnds, ts⟩
  | _ + 1, [] => .error ⟨.treeEnds, []⟩
  | levels + 1, t :: ts =>
    if t.chars = openToken then
      match ts with
      | [] => .error ⟨.treeEnds, []⟩
      | value :: ts =>
        match tree levels ts with
        | .error f => .error f
        | .ok (l, ts) =>
          match tree levels ts with
          | .error f => .error f
          | .ok (r, ts) => close value l r ts
    else if t.chars = nilToken then .ok (.absent, ts)
    else .error ⟨.notATree t.text, t :: ts⟩

/-- Reads a whole text. -/
def parse (s : List Char) : Except Failure (Tree κ) :=
  let ts := tokens s
  match tree (ts.length + 1) ts with
  | .error f => .error f
  | .ok (t, []) => .ok t
  | .ok (_, next :: rest) => .error ⟨.afterTree next.text, next :: rest⟩

/-- A node that fits its slots is well-formed. -/
theorem isWellFormed_of_build {value : Token} {l r t : Tree κ} (hl : l.Valid) (hr : r.Valid)
    (h : build value l r = .ok t) : t.isWellFormed = true := by
  unfold build at h
  dsimp only at h
  split at h
  · cases h
  · split at h
    · rename_i op hop
      split at h
      · rename_i htwo
        split at h
        · cases h
        · rename_i hab
          cases h
          simp only [Bool.or_eq_true, not_or, Bool.not_eq_true] at hab
          exact Tree.isWellFormed_apply₂ htwo (hl.isWellFormed hab.1)
            (hr.isWellFormed hab.2)
      · rename_i htwo
        split at h
        · cases h
        · rename_i hab
          cases h
          simp only [Bool.or_eq_true, not_or, Bool.not_eq_true] at hab
          exact Tree.isWellFormed_apply₁ (op.arity_eq.resolve_right htwo)
            (hl.isWellFormed hab.1)
    · split at h
      · cases h
      · split at h
        · rename_i hletter
          cases h
          exact hletter
        · split at h
          · cases h
            rfl
          · cases h

/-- A tree that was closed is well-formed. -/
theorem isWellFormed_of_close {value : Token} {l r t : Tree κ} {ts rest : List Token} (hl : l.Valid)
    (hr : r.Valid) (h : close value l r ts = .ok (t, rest)) : t.isWellFormed = true := by
  unfold close at h
  split at h
  · cases h
  rename_i hbuild
  split at h
  · cases h
  split at h
  · cases h
    exact isWellFormed_of_build hl hr hbuild
  · cases h

/-- Trees are parsed soundly at every level of nesting. -/
theorem valid_of_tree {levels : Nat} {ts rest : List Token} {t : Tree κ}
    (h : tree levels ts = .ok (t, rest)) : t.Valid := by
  induction levels generalizing ts t rest with
  | zero => cases h
  | succ levels ih =>
    cases ts with
    | nil => cases h
    | cons u ts =>
      unfold tree at h
      split at h
      · split at h
        · cases h
        split at h
        · cases h
        rename_i hl
        split at h
        · cases h
        rename_i hr
        exact .inr (isWellFormed_of_close (ih hl) (ih hr) h)
      · split at h
        · cases h
          exact .inl rfl
        · cases h

/-- **A text in Polish notation that reads gives a valid tree.** -/
theorem valid_of_parse {s : List Char} {t : Tree κ} (h : parse s = .ok t) : t.Valid := by
  unfold parse at h
  dsimp only at h
  split at h
  · cases h
  · rename_i hok
    cases h
    exact valid_of_tree hok
  · cases h

end Polish

end Fluxion
