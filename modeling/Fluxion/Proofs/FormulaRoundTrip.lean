import Fluxion.Proofs.Grammar
import Fluxion.Proofs.Respelling
import Fluxion.Proofs.ShortestDecimal
import Fluxion.Proofs.StackLoops
import Fluxion.Scalar.Double

/-!
# Formulas are read as they are written

A formula has its infix operations in brackets, so the grammar finds the same tree in it whatever binds
tighter. Every part of it ends at a space, a comma, a closing bracket or the end of the text, and no number
or name goes on over these. A bracket takes one level of nesting and an exponent one more, which makes at
most two levels of the text for a level of the tree.

Numbers without a text of their own are written as something else: a negative number as a difference from
nought, an infinity as a number that is too large, and what is not a number as a quotient of noughts. What
is read has the same formula again.

* `Numeral.reads_formulaChars` reads a number, and `Tree.reads_formulaChars` a tree.
* `Tree.formula_spelledOut` says that what was read is written alike.
* `Work.readFormula_formula` is the round trip for expressions over doubles.
-/

namespace Fluxion

/-! ## What stands behind a formula -/

namespace Formula

/-- What can stand behind a formula inside another one: a space, a comma or a bracket that closes. -/
def Closes (r : List Char) : Prop := ∀ c s, r = c :: s → c = ' ' ∨ c = ',' ∨ c = ')'

variable {c : Char} {r s : List Char}

theorem closes_nil : Closes [] := by
  rintro c s ⟨⟩

theorem closes_cons (h : c = ' ' ∨ c = ',' ∨ c = ')') : Closes (c :: r) := by
  rintro _ _ ⟨⟩
  exact h

/-- A number ends where a formula does. -/
theorem Closes.noNumber (h : Closes r) : Decimal.NoNumber r := by
  cases r with
  | nil => exact Decimal.noNumber_nil
  | cons c s =>
    rcases h c s rfl with rfl | rfl | rfl
    all_goals exact Decimal.noNumber_cons (by decide) (by decide)

/-- A letter at the end of a formula is no function. -/
theorem Closes.noneStandsAt (h : Closes r) (c : Char) : Operation.NoneStandsAt (c :: r) := by
  have hlong : ∀ f ∈ Operation.functions, ∃ a b as, f.symbol.toList = a :: b :: as ∧
      b ≠ ' ' ∧ b ≠ ',' ∧ b ≠ ')' := by
    intro f hf
    cases f
    case add | sub | mul | div | pow => exact absurd hf (by decide)
    all_goals exact ⟨_, _, _, rfl, by decide⟩
  intro f hf hprefix
  obtain ⟨a, b, as, hsymbol, hb⟩ := hlong f hf
  rw [hsymbol, List.cons_prefix_cons] at hprefix
  obtain ⟨r', rfl⟩ := hprefix.2
  rcases h b (as ++ r') rfl with h | h | h
  · exact hb.1 h
  · exact hb.2.1 h
  · exact hb.2.2 h

/-- A function is followed by its bracket. -/
theorem standsAt_symbol {op : Operation} (h : op.isFunction = true) (r : List Char) :
    op.StandsAt (Text.skipBlanks (op.symbol.toList ++ '(' :: r)) ('(' :: r) := by
  have hblank : Text.skipBlanks (op.symbol.toList ++ '(' :: r) = op.symbol.toList ++ '(' :: r := by
    cases op
    case add | sub | mul | div | pow => cases h
    all_goals rfl
  have hfunction : Operation.function? (op.symbol.toList ++ '(' :: r) = some op := by
    cases op
    case add | sub | mul | div | pow => cases h
    all_goals rfl
  rw [hblank]
  rw [Operation.function?_eq_some_iff, ← String.length_toList, List.drop_left] at hfunction
  exact hfunction

/-! ## The parts of a formula -/

variable {κ : Type} [Literal κ] {m n : Nat} {l t : Tree κ} {P : Part}

/-- Blanks may stand before any part. -/
theorem Reads.of_skipBlanks {s' : List Char} (h : Reads P s n t r)
    (hs : Text.skipBlanks s' = Text.skipBlanks s) : Reads P s' n t r := by
  induction h with
  | term _ ih => exact .term (ih hs)
  | summand _ hc hop hr ihl => exact .summand (ihl hs) hc hop hr
  | factor _ ih => exact .factor (ih hs)
  | multiplier _ hc hop hr ihl => exact .multiplier (ihl hs) hc hop hr
  | base _ ih => exact .base (ih hs)
  | exponent _ hc he ihb => exact .exponent (ihb hs) hc he
  | letter hc hno hletter => exact .letter (hs.trans hc) hno hletter
  | number hd => exact .number (hs ▸ hd)
  | bracket ho hsum hc => exact .bracket (hs.trans ho) hsum hc
  | call₁ hop hone ho hx hc => exact .call₁ (hs ▸ hop) hone ho hx hc
  | call₂ hop htwo ho hx hm hy hc => exact .call₂ (hs ▸ hop) htwo ho hx hm hy hc

theorem Reads.space (h : Reads P s n t r) : Reads P (' ' :: s) n t r :=
  h.of_skipBlanks rfl

theorem Reads.sum (h : Reads .primary s n t r) : Reads .sum s n t r := .term (.factor (.base h))

/-- An exponent is a level deeper than the base. -/
def extraLevel : Operation → Nat
  | .pow => 1
  | _ => 0

/-- An infix operation in its brackets. -/
theorem Reads.enclosed (op : Operation) {x y : List Char} (hop : op.isFunction = false)
    (hl : Reads .primary s m l (' ' :: op.symbol.toList ++ ' ' :: x))
    (ht : Reads .primary x n t (')' :: y)) :
    Reads .primary ('(' :: s) (max m (n + extraLevel op) + 1) (.apply₂ op l t) y := by
  have hright := ht.space
  cases op
  case add | sub => exact .bracket rfl (.summand hl.sum rfl rfl (.factor (.base hright))) rfl
  case mul | div => exact .bracket rfl (.term (.multiplier (.factor (.base hl)) rfl rfl (.base hright))) rfl
  case pow => exact .bracket rfl (.term (.factor (.exponent hl rfl (.base hright)))) rfl
  all_goals cases hop

/-! ## Numbers -/

/-- A number, up to where a formula ends. -/
theorem reads_number {cs : List Char} {d : Decimal} (h : Decimal.NumberText cs d) (hr : Closes r) :
    Reads .primary (cs ++ r) 0 (.literal (Literal.ofNumeral (.finite false d)) : Tree κ) r := by
  refine .number ?_
  have hblank : Text.skipBlanks (cs ++ r) = cs ++ r := by
    obtain ⟨c, cs', rfl, -⟩ := h.exists_cons
    have hc := Numeral.isNumberChar_of_numberText h c List.mem_cons_self
    exact Text.skipBlanks_cons (Numeral.isBlank_of_isNumberChar hc).1
  rw [hblank, ← Decimal.scan?_eq_some_iff]
  exact Decimal.scan?_append h hr.noNumber

end Formula

namespace Numeral

variable {κ : Type} [Literal κ]

/-- The decimal that is written for the magnitude of a numeral in a formula. -/
def formulaDecimal : Numeral → Decimal
  | nan => ⟨0, 0⟩
  | infinite _ => ⟨1, 999⟩
  | finite _ d => d

/-- The literal of a decimal. -/
def decimalTree (d : Decimal) : Tree κ := .literal (Literal.ofNumeral (finite false d))

/-- The tree that a numeral is written as in a formula. -/
def formulaTree (n : Numeral) : Tree κ :=
  match n with
  | nan => .apply₂ .div (decimalTree ⟨0, 0⟩) (decimalTree ⟨0, 0⟩)
  | n =>
    if n.isNegative then .apply₂ .sub (decimalTree ⟨0, 0⟩) (decimalTree n.formulaDecimal)
    else decimalTree n.formulaDecimal

/-- The text of an infinity stands for a number that is too large. -/
theorem numberText_overflow : Decimal.NumberText "1e999".toList ⟨1, 999⟩ := by
  have hlowest : Decimal.IsLowest ⟨1, 999⟩ := by
    unfold Decimal.IsLowest Decimal.lowest
    simp
  have hone : Decimal.DigitText ['1'] (Decimal.values ['1']) :=
    Decimal.digitText_values (List.all_eq_true.mp (by decide))
  have hpower : Decimal.DigitText ['9', '9', '9'] (Decimal.values ['9', '9', '9']) :=
    Decimal.digitText_values (List.all_eq_true.mp (by decide))
  exact Decimal.NumberText.of_scaled hlowest (.whole hone (by decide))
    (.marked (.inl rfl) .none hpower (by decide)) 0 (by decide) (by decide)

theorem numberText_zero : Decimal.NumberText ['0'] ⟨0, 0⟩ :=
  numberText_plainChars (Decimal.lowest_zero 0)

theorem numberText_formulaMagnitude {n : Numeral} (h : n.IsLowest) (hn : n ≠ nan) :
    Decimal.NumberText n.formulaMagnitude n.formulaDecimal := by
  cases n with
  | nan => exact absurd rfl hn
  | infinite negative => exact numberText_overflow
  | finite negative d => exact numberText_plainChars h

variable {n : Numeral}

/-- A number is written as a magnitude, or as the difference between nought and a magnitude. -/
theorem formulaChars_eq (h : n ≠ nan) :
    n.formulaChars = if n.isNegative then "(0 - ".toList ++ n.formulaMagnitude ++ [')']
      else n.formulaMagnitude := by
  cases n with
  | nan => exact absurd rfl h
  | infinite negative => rfl
  | finite negative d => rfl

theorem formulaTree_eq (h : n ≠ nan) :
    (formulaTree n : Tree κ) =
      if n.isNegative then .apply₂ .sub (decimalTree ⟨0, 0⟩) (decimalTree n.formulaDecimal)
      else decimalTree n.formulaDecimal := by
  cases n with
  | nan => exact absurd rfl h
  | infinite negative => rfl
  | finite negative d => rfl

theorem isWellFormed_formulaTree (n : Numeral) : (formulaTree n : Tree κ).isWellFormed = true := by
  unfold formulaTree
  split
  · rfl
  · split <;> rfl

open Formula in
/-- A numeral is read as its tree. -/
theorem reads_formulaChars (h : n.IsLowest) :
    ∃ k ≤ 1, ∀ r, Closes r → Reads .primary (n.formulaChars ++ r) k (formulaTree n : Tree κ) r := by
  have hzero : ∀ r, Closes r → Reads .primary ('0' :: r) 0 (decimalTree ⟨0, 0⟩ : Tree κ) r :=
    fun r hr => reads_number numberText_zero hr
  by_cases hn : n = nan
  · rw [hn]
    refine ⟨1, Nat.le_refl 1, fun r _ => ?_⟩
    exact Reads.enclosed .div rfl (hzero _ (closes_cons (.inl rfl)))
      (hzero _ (closes_cons (.inr (.inr rfl))))
  · have hmagnitude : ∀ r, Closes r →
        Reads .primary (n.formulaMagnitude ++ r) 0 (decimalTree n.formulaDecimal : Tree κ) r :=
      fun r hr => reads_number (numberText_formulaMagnitude h hn) hr
    rw [formulaChars_eq hn, formulaTree_eq hn]
    split
    · refine ⟨1, Nat.le_refl 1, fun r _ => ?_⟩
      rw [List.append_assoc, List.append_assoc]
      exact Reads.enclosed .sub rfl (hzero _ (closes_cons (.inl rfl)))
        (hmagnitude _ (closes_cons (.inr (.inr rfl))))
    · exact ⟨0, Nat.zero_le 1, hmagnitude⟩

end Numeral

/-! ## Trees -/

namespace Tree

variable {κ : Type} [Literal κ]

open Formula

/-- The tree that a formula of `t` is read as. -/
def spelledOut (t : Tree κ) : Tree κ := t.respelled fun v => (Literal.toNumeral v).formulaTree

/-- **The formula of a tree is read as the tree**, with at most two levels of nesting for each level of
the tree. -/
theorem reads_formulaChars (hκ : Literal.Lawful κ) {t : Tree κ} (ht : t.isWellFormed = true) :
    ∃ n, n + 1 ≤ 2 * t.depth ∧
      ∀ r, Closes r → Reads .primary (t.formulaChars ++ r) n t.spelledOut r := by
  induction t with
  | absent => cases ht
  | literal v =>
    obtain ⟨n, hn, hreads⟩ := Numeral.reads_formulaChars (κ := κ) (hκ.isLowest v)
    refine ⟨n, by rw [depth]; omega, ?_⟩
    rw [formulaChars]
    exact hreads
  | var n =>
    obtain ⟨c, hc, hletter⟩ := Name.exists_letter ht
    have hname : n = some (String.singleton c) := by
      cases n with
      | none => cases ht
      | some s =>
        have hs : s.toList = [c] := hc
        rw [← String.ofList_toList (s := s), hs]
        rfl
    refine ⟨0, Nat.le_succ 1, fun r hr => ?_⟩
    rw [formulaChars, hc, hname]
    exact .letter (Text.skipBlanks_cons (Text.isBlank_of_isAlpha hletter)) (hr.noneStandsAt c) hletter
  | binary op l r ihl ihr =>
    simp only [isWellFormed, Bool.and_eq_true] at ht
    obtain ⟨⟨hop, hl⟩, hr⟩ := ht
    obtain ⟨o, harity, hresolve⟩ := Operator.exists_resolve hop
    have hsymbol : op.formulaSymbol = o.symbol.toList := by rw [Operator.formulaSymbol, hresolve]
    have hfunction : op.isFunction = o.isFunction := by rw [Operator.isFunction, hresolve]
    have hnamed := Operator.named_of_resolve hresolve
    obtain ⟨m, hm, hl⟩ := ihl hl
    obtain ⟨n, hn, hr⟩ := ihr hr
    rw [depth, spelledOut, respelled, hnamed]
    cases hf : o.isFunction with
    | false =>
      have hlevel : extraLevel o ≤ 1 := by cases o <;> decide
      refine ⟨max m (n + extraLevel o) + 1, by omega, fun rest hrest => ?_⟩
      rw [formulaChars_between (hfunction.trans hf), hsymbol]
      simp only [List.cons_append, List.append_assoc]
      exact Reads.enclosed o hf (hl _ (closes_cons (.inl rfl))) (hr _ (closes_cons (.inr (.inr rfl))))
    | true =>
      refine ⟨max m n + 1, by omega, fun rest hrest => ?_⟩
      rw [formulaChars_function (hfunction.trans hf), hsymbol]
      simp only [List.cons_append, List.append_assoc]
      exact .call₂ (standsAt_symbol hf _) harity rfl (hl _ (closes_cons (.inr (.inl rfl)))).sum rfl
        (hr _ (closes_cons (.inr (.inr rfl)))).space.sum rfl
  | unary op x ih =>
    simp only [isWellFormed, Bool.and_eq_true] at ht
    obtain ⟨hop, hx⟩ := ht
    obtain ⟨o, harity, hresolve⟩ := Operator.exists_resolve hop
    have hsymbol : op.formulaSymbol = o.symbol.toList := by rw [Operator.formulaSymbol, hresolve]
    have hnamed := Operator.named_of_resolve hresolve
    obtain ⟨n, hn, hx⟩ := ih hx
    have hf : o.isFunction = true := by cases o <;> first | rfl | cases harity
    refine ⟨n + 1, by rw [depth]; omega, fun rest hrest => ?_⟩
    rw [formulaChars, hsymbol, spelledOut, respelled, hnamed]
    simp only [List.cons_append, List.append_assoc]
    exact .call₁ (standsAt_symbol hf _) harity rfl (hx _ (closes_cons (.inr (.inr rfl)))).sum rfl

/-- **A formula is parsed as the tree that was written**, if two levels of nesting are allowed for each
level of the tree. -/
theorem parse_formulaChars (hκ : Literal.Lawful κ) {t : Tree κ} (ht : t.isWellFormed = true) {limit : Int}
    (hlimit : 2 * (t.depth : Int) ≤ limit) : parse limit t.formulaChars = .ok t.spelledOut := by
  obtain ⟨n, hn, hreads⟩ := reads_formulaChars hκ ht
  have hreads := hreads [] closes_nil
  rw [List.append_nil] at hreads
  exact parse_of_sentence ⟨n, [], hreads.sum, rfl, rfl⟩ (by omega)

/-! ## The formula of what was read -/

theorem formulaChars_decimalTree (hκ : Literal.Lawful κ) {v : κ} (h : Literal.toNumeral v ≠ .nan) :
    (Numeral.decimalTree (Literal.toNumeral v).formulaDecimal : Tree κ).formulaChars =
      (Literal.toNumeral v).formulaMagnitude := by
  have hunsigned := hκ.toNumeral_unsigned v
  rw [Numeral.decimalTree, formulaChars]
  cases hn : Literal.toNumeral v with
  | nan => exact absurd hn h
  | infinite negative =>
    rw [Numeral.formulaDecimal, hκ.toNumeral_overflow]
    rfl
  | finite negative d =>
    rw [hn] at hunsigned
    rw [Numeral.formulaDecimal]
    exact congrArg Numeral.formulaChars hunsigned

theorem formulaChars_formulaTree (hκ : Literal.Lawful κ) (v : κ) :
    ((Literal.toNumeral v).formulaTree : Tree κ).formulaChars = (Literal.toNumeral v).formulaChars := by
  have hnought : (Numeral.decimalTree ⟨0, 0⟩ : Tree κ).formulaChars = ['0'] := by
    rw [Numeral.decimalTree, formulaChars, hκ.toNumeral_nought]
    rfl
  by_cases hn : Literal.toNumeral v = .nan
  · rw [hn, Numeral.formulaTree, apply₂, formulaChars_between rfl, hnought]
    rfl
  · rw [Numeral.formulaTree_eq hn, Numeral.formulaChars_eq hn]
    split
    · rw [apply₂, formulaChars_between rfl, hnought, formulaChars_decimalTree hκ hn]
      rfl
    · exact formulaChars_decimalTree hκ hn

/-- **The tree that is read has the same formula.** -/
theorem formula_spelledOut (hκ : Literal.Lawful κ) (t : Tree κ) : t.spelledOut.formula = t.formula := by
  have hsymbol : ∀ op : Operator, op.named.formulaSymbol = op.formulaSymbol := by
    intro op
    cases h : op.resolve with
    | none => rw [Operator.named, h]
    | some o =>
      rw [Operator.named_of_resolve h, Operator.formulaSymbol, Operator.formulaSymbol, h]
      rfl
  have hfunction : ∀ op : Operator, op.named.isFunction = op.isFunction := by
    intro op
    rw [Operator.isFunction, Operator.resolve_named, Operator.isFunction]
  have hchars : t.spelledOut.formulaChars = t.formulaChars := by
    unfold spelledOut
    induction t with
    | absent => rfl
    | literal v => exact formulaChars_formulaTree hκ v
    | var n => rfl
    | binary op l r ihl ihr =>
      rw [respelled, formulaChars, formulaChars, hfunction, hsymbol, ihl, ihr]
    | unary op x ih => rw [respelled, formulaChars, formulaChars, hsymbol, ih]
  have habsent : t.spelledOut.isAbsent = t.isAbsent := by
    cases t with
    | literal v => exact isAbsent_of_isWellFormed (Numeral.isWellFormed_formulaTree _)
    | _ => rfl
  rw [formula_eq, formula_eq, habsent, hchars]

/-! ## Doubles -/

/-- The tree without negative literals: the difference from nought stands for one, the quotient of
noughts for a literal that is not a number, and nought for the other zero. -/
def unsigned (t : Tree Float) : Tree Float :=
  t.respelled fun v =>
    if v.isNaN then .apply₂ .div (.literal 0.0) (.literal 0.0)
    else if v < 0.0 then .apply₂ .sub (.literal 0.0) (.literal v.abs)
    else .literal (if v == 0.0 then 0.0 else v)

theorem decimalTree_float {v : Float} (h : Literal.toNumeral v ≠ .nan) :
    Numeral.decimalTree (Literal.toNumeral v).formulaDecimal = literal v.abs := by
  rw [← Literal.ofNumeral_unsigned_float, Numeral.decimalTree]
  cases hn : Literal.toNumeral v with
  | nan => exact absurd hn h
  | infinite negative => exact congrArg literal Literal.ofNumeral_overflow_float
  | finite negative d => rfl

theorem spelledOut_eq_unsigned (t : Tree Float) : t.spelledOut = t.unsigned := by
  have hnought : (Numeral.decimalTree ⟨0, 0⟩ : Tree Float) = literal 0.0 :=
    congrArg literal Literal.ofNumeral_nought_float
  refine respelled_congr fun v _ => ?_
  by_cases hn : Literal.toNumeral v = .nan
  · rw [hn, if_pos ((Literal.toNumeral_eq_nan_iff v).mp hn), Numeral.formulaTree, hnought]
  · have hnan : ¬v.isNaN = true := fun h => hn ((Literal.toNumeral_eq_nan_iff v).mpr h)
    rw [Numeral.formulaTree_eq hn, if_neg hnan, decimalTree_float hn, hnought]
    by_cases hlt : v < 0.0
    · rw [if_pos hlt, if_pos ((Literal.isNegative_toNumeral_iff v).mpr hlt)]
    · rw [if_neg hlt, if_neg fun h => hlt ((Literal.isNegative_toNumeral_iff v).mp h),
        Literal.abs_eq_of_not_lt hlt]

end Tree

namespace Work

variable {w : Workspace Float} {t : Tree Float}

/-- **Formulas are read as they are written.** With two levels of nesting for each level of the tree, the
formula of a tree is read, the tree is the one that was written but for literals that have no text of
their own, and its formula is the same. -/
theorem readFormula_formula (h : w.store.StrictlyOwned) (ht : t.isWellFormed = true) {limit : Int}
    (hlimit : 2 * (t.depth : Int) ≤ limit) :
    (readFormula limit t.formula).Succeeds w fun e w' =>
      w'.store.expressionTree e = t.unsigned ∧
        ((∀ v ∈ t.literals, v.isNaN = false ∧ ¬v < 0.0 ∧ v ≠ -0.0) →
          w'.store.expressionTree e = t.named) ∧
        (w'.store.expressionTree e).formula = t.formula := by
  have hparse := Tree.parse_formulaChars Literal.lawful_float ht hlimit
  have htext : t.formula.toList = t.formulaChars := by
    rw [Tree.formula_eq, Tree.isAbsent_of_isWellFormed ht, if_neg Bool.false_ne_true, String.toList_ofList]
  rw [← htext] at hparse
  refine (readFormula_tree h hparse).mono ?_
  rintro e w' ⟨htree, -⟩
  rw [htree]
  refine ⟨Tree.spelledOut_eq_unsigned t, fun hplain => ?_, Tree.formula_spelledOut Literal.lawful_float t⟩
  rw [Tree.spelledOut_eq_unsigned]
  refine Tree.respelled_congr fun v hv => ?_
  obtain ⟨hnan, hlt, hminus⟩ := hplain v hv
  rw [hnan, if_neg Bool.false_ne_true, if_neg hlt]
  split
  · rename_i hzero
    rw [(Binary64.eq_zero_of_beq hzero).resolve_right hminus]
  · rfl

/-- A negative exponent comes back as a difference. -/
theorem readFormula_negativePower :
    (Store.stocked 4 2 : Store Float).StrictlyOwned ∧
      (Tree.apply₂ .pow (.apply₁ .sin (.var (some "x"))) (.literal (-2.0)) : Tree Float).formula =
        "(sin(x) ^ (0 - 2))" ∧
      (readFormula 6 "(sin(x) ^ (0 - 2))").Succeeds
        (⟨.stocked 4 2, .opened .minimal, []⟩ : Workspace Float) fun e w' =>
          w'.store.expressionTree e =
            .apply₂ .pow (.apply₁ .sin (.var (some "x"))) (.apply₂ .sub (.literal 0.0) (.literal 2.0)) := by
  have howned : (Store.stocked 4 2 : Store Float).StrictlyOwned := Store.stocked_strictlyOwned 4 2
  have hformula : (Tree.apply₂ .pow (.apply₁ .sin (.var (some "x"))) (.literal (-2.0)) :
      Tree Float).formula = "(sin(x) ^ (0 - 2))" := by decide +kernel
  have hshape : (Tree.apply₂ .pow (.apply₁ .sin (.var (some "x"))) (.literal (-2.0)) :
      Tree Float).isWellFormed = true := by decide
  have hunsigned : (Tree.apply₂ .pow (.apply₁ .sin (.var (some "x"))) (.literal (-2.0)) :
      Tree Float).unsigned =
        .apply₂ .pow (.apply₁ .sin (.var (some "x"))) (.apply₂ .sub (.literal 0.0) (.literal 2.0)) := by
    decide +kernel
  generalize "(sin(x) ^ (0 - 2))" = text at hformula ⊢
  have hread := readFormula_formula (w := ⟨.stocked 4 2, .opened .minimal, []⟩) howned hshape
    (Int.le_refl 6)
  rw [hformula] at hread
  exact ⟨howned, hformula, hread.mono fun e w' he => he.1.trans hunsigned⟩

end Work

end Fluxion
