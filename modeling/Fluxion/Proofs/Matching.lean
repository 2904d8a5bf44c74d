import Fluxion.Proofs.Copying
import Fluxion.Proofs.DoubleOrder
import Fluxion.Proofs.PolishRoundTrip
import Fluxion.Tree.Matching

/-!
# Matching is an equality

Trees match up to a tolerance when they correspond node by node, by literals that match. So the laws of
matching are those of literals and operators, carried up the tree: reflexivity, symmetry and the
comparison of tolerances. A literal matches itself whatever it is, because two literals without a value
match and infinities are compared before they are subtracted.

With no tolerance two literals match when they are equal up to the sign of a zero, and two operators when
they mean the same operation. That is what is left of a tree in Polish notation, so trees match then if
and only if they settle alike, and valid trees if and only if they have one text.

* `Tree.agrees_iff`: matching trees are those that correspond.
* `Tree.agreesAll_eq`: a list of pairs, worked off from its front, is the recursion over two trees.
* `Tree.agrees_zero_iff`: without a tolerance, matching trees are those that settle alike.
* `Tree.polish_eq_iff`: valid trees that settle alike have the same text, and no others.
* `Tree.agrees_equality` puts the laws together, with that of copies.
-/

namespace Fluxion

open Act

/-! ## Operators -/

namespace Operator

variable {o p : Operator}

theorem same_iff : o.same p = true ↔ o.canonical = p.canonical := decide_eq_true_iff

theorem same_self (o : Operator) : o.same o = true := same_iff.mpr rfl

theorem same_comm (o p : Operator) : o.same p = p.same o := by
  rw [Bool.eq_iff_iff, same_iff, same_iff]
  exact eq_comm

theorem named_canonical (o : Operator) : o.canonical.named = o.named := by
  cases o with
  | known op => exact named_of_resolve (resolve_canonical (known op))
  | _ => rfl

/-- Operators compare equal when they mean the same. -/
theorem same_iff_named : o.same p = true ↔ o.named = p.named := by
  rw [same_iff]
  constructor
  · intro h
    rw [← named_canonical o, h, named_canonical]
  · intro h
    rw [← same_iff.mp (same_named o), h, same_iff.mp (same_named p)]

end Operator

namespace Tree

/-! ## From literals to trees -/

/-- The trees have the same shape and the same nodes but for their literals, which are related. -/
inductive Corresponds {κ : Type} (R : κ → κ → Prop) : Tree κ → Tree κ → Prop
  | absent : Corresponds R absent absent
  | literal {v w : κ} : R v w → Corresponds R (literal v) (literal w)
  | var (n : Name) : Corresponds R (var n) (var n)
  | binary {o p : Operator} {l r l' r' : Tree κ} : o.same p = true → Corresponds R l l' →
      Corresponds R r r' → Corresponds R (binary o l r) (binary p l' r')
  | unary {o p : Operator} {x x' : Tree κ} : o.same p = true → Corresponds R x x' →
      Corresponds R (unary o x) (unary p x')

section

variable {κ : Type} {R S : κ → κ → Prop} {a b : Tree κ}

theorem Corresponds.refl (h : ∀ v, R v v) (a : Tree κ) : Corresponds R a a := by
  induction a with
  | absent => exact .absent
  | literal v => exact .literal (h v)
  | var n => exact .var n
  | binary o l r ihl ihr => exact .binary o.same_self ihl ihr
  | unary o x ih => exact .unary o.same_self ih

theorem Corresponds.symm (h : ∀ v w, R v w → R w v) (hab : Corresponds R a b) : Corresponds R b a := by
  induction hab with
  | absent => exact .absent
  | literal hvw => exact .literal (h _ _ hvw)
  | var n => exact .var n
  | binary ho _ _ ihl ihr => exact .binary (Operator.same_comm .. ▸ ho) ihl ihr
  | unary ho _ ih => exact .unary (Operator.same_comm .. ▸ ho) ih

theorem Corresponds.mono (h : ∀ v w, R v w → S v w) (hab : Corresponds R a b) : Corresponds S a b := by
  induction hab with
  | absent => exact .absent
  | literal hvw => exact .literal (h _ _ hvw)
  | var n => exact .var n
  | binary ho _ _ ihl ihr => exact .binary ho ihl ihr
  | unary ho _ ih => exact .unary ho ih

/-- Trees correspond by the values of a function at their literals when they are respelled alike. -/
theorem corresponds_iff_respelled (f : κ → κ) (a b : Tree κ) :
    Corresponds (fun v w => f v = f w) a b ↔
      a.respelled (fun v => literal (f v)) = b.respelled fun v => literal (f v) := by
  constructor
  · intro h
    induction h with
    | absent => rfl
    | literal hvw => exact congrArg literal hvw
    | var n => rfl
    | binary ho _ _ ihl ihr => rw [respelled, respelled, Operator.same_iff_named.mp ho, ihl, ihr]
    | unary ho _ ih => rw [respelled, respelled, Operator.same_iff_named.mp ho, ih]
  · intro h
    induction a generalizing b with
    | absent =>
      cases b with
      | absent => exact .absent
      | _ => cases h
    | literal v =>
      cases b with
      | literal w => exact .literal (literal.inj h)
      | _ => cases h
    | var n =>
      cases b with
      | var m =>
        cases h
        exact .var n
      | _ => cases h
    | binary o l r ihl ihr =>
      cases b with
      | binary p l' r' =>
        obtain ⟨ho, hl, hr⟩ := binary.inj h
        exact .binary (Operator.same_iff_named.mpr ho) (ihl _ hl) (ihr _ hr)
      | _ => cases h
    | unary o x ih =>
      cases b with
      | unary p x' =>
        obtain ⟨ho, hx⟩ := unary.inj h
        exact .unary (Operator.same_iff_named.mpr ho) (ih _ hx)
      | _ => cases h

end

variable {κ : Type} [Scalar κ] {tolerance : κ}

/-- **Matching trees correspond**, by literals that match. -/
theorem agrees_iff {a b : Tree κ} : a.agrees tolerance b = true ↔
    Corresponds (fun v w => literalsAgree tolerance v w = true) a b := by
  constructor
  · intro h
    induction a generalizing b with
    | absent =>
      cases b with
      | absent => exact .absent
      | _ => cases h
    | literal v =>
      cases b with
      | literal w => exact .literal h
      | _ => cases h
    | var n =>
      cases b with
      | var m =>
        obtain rfl : n = m := of_decide_eq_true h
        exact .var n
      | _ => cases h
    | binary o l r ihl ihr =>
      cases b with
      | binary p l' r' =>
        simp only [agrees, Bool.and_eq_true] at h
        exact .binary h.1.1 (ihl h.1.2) (ihr h.2)
      | _ => cases h
    | unary o x ih =>
      cases b with
      | unary p x' =>
        simp only [agrees, Bool.and_eq_true] at h
        exact .unary h.1 (ih h.2)
      | _ => cases h
  · intro h
    induction h with
    | absent => rfl
    | literal hvw => exact hvw
    | var n => exact decide_eq_true rfl
    | binary ho _ _ ihl ihr => rw [agrees, ho, ihl, ihr]; rfl
    | unary ho _ ih => rw [agrees, ho, ih]; rfl

/-! ## Pairs still to be compared -/

/-- The nodes of all pairs, and the pairs. -/
def pending (pairs : List (Tree κ × Tree κ)) : Nat := (pairs.map fun p => p.1.size + p.2.size + 1).sum

/-- Whether all pairs match. The operands of a pair are compared before the pairs behind it, right ones
first, and the first pair that does not match ends the comparison. -/
def agreesAll (tolerance : κ) : List (Tree κ × Tree κ) → Bool
  | [] => true
  | (absent, absent) :: rest => agreesAll tolerance rest
  | (literal v, literal w) :: rest => literalsAgree tolerance v w && agreesAll tolerance rest
  | (var m, var n) :: rest => m = n && agreesAll tolerance rest
  | (binary o l r, binary p l' r') :: rest =>
    o.same p && agreesAll tolerance ((r, r') :: (l, l') :: rest)
  | (unary o x, unary p x') :: rest => o.same p && agreesAll tolerance ((x, x') :: rest)
  | _ :: _ => false
termination_by pairs => pending pairs
decreasing_by all_goals simp only [pending, List.map_cons, List.sum_cons, size]; omega

/-- **Pairs worked off one by one match when all of them do.** -/
theorem agreesAll_eq (tolerance : κ) (pairs : List (Tree κ × Tree κ)) :
    agreesAll tolerance pairs = pairs.all fun p => p.1.agrees tolerance p.2 := by
  fun_induction agreesAll tolerance pairs with
  | case1 => rfl
  | case2 rest ih => rw [ih, List.all_cons, agrees, Bool.true_and]
  | case3 rest v w ih => rw [ih, List.all_cons, agrees]
  | case4 rest m n ih => rw [ih, List.all_cons, agrees]
  | case5 rest o l r p l' r' ih =>
    simp only [ih, List.all_cons, agrees, Bool.and_assoc, Bool.and_left_comm]
  | case6 rest o x p x' ih => simp only [ih, List.all_cons, agrees, Bool.and_assoc]
  | case7 pair rest habsent hliteral hvar hbinary hunary =>
    obtain ⟨a, b⟩ := pair
    have hshapes : a.agrees tolerance b = false := by
      cases a <;> cases b <;> first
        | rfl
        | exact (habsent rfl).elim
        | exact (hliteral _ _ rfl).elim
        | exact (hvar _ _ rfl).elim
        | exact (hbinary _ _ _ _ _ _ rfl).elim
        | exact (hunary _ _ _ _ rfl).elim
    rw [List.all_cons, hshapes, Bool.false_and]

end Tree

/-! ## Literals -/

namespace Doubles

variable {v w ε δ : Float}

theorem literalsAgree_self (ε v : Float) : Tree.literalsAgree ε v v = true := by
  cases hv : v.isNaN with
  | true => simp only [Tree.literalsAgree, Scalar.isNaN, hv, Bool.and_self, Bool.true_or]
  | false =>
    have heq : Scalar.eq v v = true := beq_iff.mpr ⟨hv, hv, .inl rfl⟩
    rw [Tree.literalsAgree, heq, Bool.or_true, Bool.true_or]

theorem beq_comm (v w : Float) : (v == w) = (w == v) := by
  have h : ∀ {v w : Float}, (v == w) = true → (w == v) = true := by
    intro v w hvw
    obtain ⟨hv, hw, hsame⟩ := beq_iff.mp hvw
    exact beq_iff.mpr ⟨hw, hv, hsame.imp Eq.symm And.symm⟩
  exact Bool.eq_iff_iff.mpr ⟨h, h⟩

theorem literalsAgree_comm (ε v w : Float) :
    Tree.literalsAgree ε v w = Tree.literalsAgree ε w v := by
  have heq : Scalar.eq v w = Scalar.eq w v := beq_comm v w
  have hnear : Scalar.near ε v w = Scalar.near ε w v :=
    congrArg (fun d => Scalar.lt d ε) (abs_sub_comm v w)
  rw [Tree.literalsAgree, Tree.literalsAgree, heq, hnear, Bool.and_comm]

theorem literalsAgree_mono (h : ε ≤ δ) (hvw : Tree.literalsAgree ε v w = true) :
    Tree.literalsAgree δ v w = true := by
  rw [Tree.literalsAgree, Bool.or_eq_true] at *
  refine hvw.imp_right fun hnear => ?_
  exact decide_eq_true (lt_of_lt_of_le (of_decide_eq_true hnear) h)

/-- The number without the sign of a zero. -/
def plain (v : Float) : Float := if v == 0.0 then 0.0 else v

theorem plain_eq_iff : plain v = plain w ↔ v = w ∨ (v == 0.0) = true ∧ (w == 0.0) = true := by
  have hzero : ∀ {x : Float}, (x == 0.0) = true → ((0.0 : Float) == 0.0) = true := by
    intro x hx
    obtain ⟨-, hvalue, -⟩ := beq_iff.mp hx
    exact beq_iff.mpr ⟨hvalue, hvalue, .inl rfl⟩
  constructor
  · intro h
    unfold plain at h
    by_cases hv : (v == 0.0) = true
    · by_cases hw : (w == 0.0) = true
      · exact .inr ⟨hv, hw⟩
      · rw [if_pos hv, if_neg hw] at h
        exact absurd (h ▸ hzero hv) hw
    · by_cases hw : (w == 0.0) = true
      · rw [if_neg hv, if_pos hw] at h
        exact absurd (h ▸ hzero hw) hv
      · rw [if_neg hv, if_neg hw] at h
        exact .inl h
  · rintro (rfl | ⟨hv, hw⟩)
    · rfl
    · rw [plain, plain, if_pos hv, if_pos hw]

/-- **Without a tolerance, literals match when they differ in the sign of a zero at most.** -/
theorem literalsAgree_zero (v w : Float) :
    Tree.literalsAgree 0.0 v w = true ↔ plain v = plain w := by
  have hnear : Scalar.near 0.0 v w = false := decide_eq_false not_abs_lt_zero
  have hliterals : Tree.literalsAgree 0.0 v w = (v.isNaN && w.isNaN || v == w) := by
    rw [Tree.literalsAgree, hnear, Bool.or_false]
    rfl
  rw [hliterals, Bool.or_eq_true, Bool.and_eq_true, beq_iff, plain_eq_iff]
  constructor
  · rintro (⟨hv, hw⟩ | ⟨-, -, h⟩)
    · exact .inl (unpack_injective ((isNaN_iff.mp hv).trans (isNaN_iff.mp hw).symm))
    · exact h
  · rintro (rfl | ⟨hv, hw⟩)
    · cases hv : v.isNaN with
      | true => exact .inl ⟨rfl, rfl⟩
      | false => exact .inr ⟨rfl, rfl, .inl rfl⟩
    · exact .inr ⟨(beq_iff.mp hv).1, (beq_iff.mp hw).1, .inr ⟨hv, hw⟩⟩

end Doubles

/-! ## Trees -/

namespace Tree

variable {a b : Tree Float}

/-- **Without a tolerance, trees match when they settle alike.** -/
theorem agrees_zero_iff : a.agrees 0.0 b = true ↔ a.settled = b.settled := by
  have hplain : a.agrees 0.0 b = true ↔ Corresponds (fun v w => Doubles.plain v = Doubles.plain w) a b :=
    agrees_iff.trans ⟨.mono fun v w => (Doubles.literalsAgree_zero v w).mp,
      .mono fun v w => (Doubles.literalsAgree_zero v w).mpr⟩
  exact hplain.trans (corresponds_iff_respelled Doubles.plain a b)

theorem agrees_self (ε : Float) (a : Tree Float) : a.agrees ε a = true :=
  agrees_iff.mpr (.refl (Doubles.literalsAgree_self ε) a)

/-- **Valid trees have one text when they settle alike.** -/
theorem polish_eq_iff (ha : a.Valid) (hb : b.Valid) : a.polish = b.polish ↔ a.settled = b.settled := by
  have hκ : Literal.Lawful Float := Literal.lawful_float
  rw [Polish.polish_eq_ok ha, Polish.polish_eq_ok hb, ← readBack_eq_settled, ← readBack_eq_settled]
  constructor
  · intro h
    have hchars := String.ofList_injective (Except.ok.inj h)
    exact Except.ok.inj ((Polish.parse_spaced hκ ha).symm.trans (hchars ▸ Polish.parse_spaced hκ hb))
  · intro h
    rw [← Polish.polishTokens_readBack hκ a, ← Polish.polishTokens_readBack hκ b, h]

end Tree

namespace Store

variable {s : Store Float} {p : Planted Float} {used : List Ref} {parent : Option Ref} {r : Ref}

/-- **A copy matches its original.** The copy can only fail at a name that is not a letter. -/
theorem copy_agrees (hp : p.Stands s used parent) (hr : p.ref? = some r) (ha : s.Apart used) :
    (copy r).Ensures s
      (fun c t => t.tree (some r) = p.tree ∧ ∀ ε, (t.tree (some r)).agrees ε (t.tree c) = true)
      fun _ _ => p.tree.isSpelled = false := by
  refine (copy_spec hp hr ha.accounted).mono ?_ fun _ _ hf => hf.1
  rintro c t ⟨-, q, hq, rfl, hm⟩
  have horiginal : t.tree (some r) = p.tree := by
    rw [← hr]
    exact (hp.kept hm.kept).tree_eq hm.accounted.toApart.of_append_right
  have hcopy : t.tree q.ref? = q.tree :=
    (hm.stands.stands hm.accounted.toApart).tree_eq hm.accounted.toApart
  refine ⟨horiginal, fun ε => ?_⟩
  rw [horiginal, hcopy, hq]
  exact Tree.agrees_self ε _

end Store

namespace Tree

/-- **Matching is an equality.** The comparison works pairs off. Whatever the literals are, and whatever
the tolerance, a tree matches itself, two trees match either way round or not at all, what matches within
a tolerance does so within any that is not smaller, and the copy of a tree matches it. Without a tolerance
matching is transitive as well, and valid trees, which all have a text, match if and only if they have the
same. -/
theorem agrees_equality :
    (∀ (ε : Float) (a b : Tree Float), agreesAll ε [(a, b)] = a.agrees ε b) ∧
    (∀ (ε : Float) (a : Tree Float), a.agrees ε a = true) ∧
    (∀ (ε : Float) (a b : Tree Float), a.agrees ε b = b.agrees ε a) ∧
    (∀ (ε δ : Float) (a b : Tree Float), ε ≤ δ → a.agrees ε b = true → a.agrees δ b = true) ∧
    (∀ (s : Store Float) (p : Planted Float) used parent r, p.Stands s used parent →
      p.ref? = some r → s.Apart used →
      (Store.copy r).Ensures s
        (fun c t => t.tree (some r) = p.tree ∧ ∀ ε, (t.tree (some r)).agrees ε (t.tree c) = true)
        fun _ _ => p.tree.isSpelled = false) ∧
    (∀ a b c : Tree Float, a.agrees 0.0 b = true → b.agrees 0.0 c = true → a.agrees 0.0 c = true) ∧
    ∀ a b : Tree Float, a.Valid → b.Valid →
      ∃ s t, a.polish = .ok s ∧ b.polish = .ok t ∧ (a.agrees 0.0 b = true ↔ s = t) := by
  refine ⟨fun ε a b => ?_, fun ε a => ?_, fun ε a b => ?_, fun ε δ a b h hab => ?_,
    fun s p used parent r hp hr ha => ?_, fun a b c hab hbc => ?_, fun a b ha hb => ?_⟩
  · rw [agreesAll_eq, List.all_cons, List.all_nil, Bool.and_true]
  · exact agrees_self ε a
  · have hsymm : ∀ v w : Float, literalsAgree ε v w = true → literalsAgree ε w v = true :=
      fun v w hvw => Doubles.literalsAgree_comm ε v w ▸ hvw
    rw [Bool.eq_iff_iff, agrees_iff, agrees_iff]
    exact ⟨.symm hsymm, .symm hsymm⟩
  · exact agrees_iff.mpr ((agrees_iff.mp hab).mono fun _ _ => Doubles.literalsAgree_mono h)
  · exact Store.copy_agrees hp hr ha
  · rw [agrees_zero_iff] at *
    exact hab.trans hbc
  · refine ⟨_, _, Polish.polish_eq_ok ha, Polish.polish_eq_ok hb, ?_⟩
    rw [agrees_zero_iff, ← polish_eq_iff ha hb, Polish.polish_eq_ok ha, Polish.polish_eq_ok hb,
      Except.ok.injEq]

/-- A number times `x`, with any operator for the product. -/
def multiple (o : Operator) (v : Float) : Tree Float := .binary o (.literal v) (.var (some "x"))

/-- The product of no number and `x`. -/
def undefinedMultiple : Planted Float := .binary 2 (.known .mul) (.literal 1 Scalar.nan) (.var 0 (some "x"))

/-- The store in which it stands. -/
def withUndefined : Store Float := ((Store.plant undefinedMultiple.tree).perform (.stocked 4 2)).2

/-- A product that has no value matches its copy; and `-0` times `x`, with the product written as its
bare code, matches `0` times `x` and has the same text. -/
theorem agrees_equality_multiple :
    undefinedMultiple.Stands withUndefined undefinedMultiple.refs none ∧
      withUndefined.Apart undefinedMultiple.refs ∧
      (Store.copy 2).Ensures withUndefined
        (fun c t => t.tree (some 2) = undefinedMultiple.tree ∧
          ∀ ε, (t.tree (some 2)).agrees ε (t.tree c) = true)
        (fun _ _ => False) ∧
      (multiple (.code 2) (-0.0)).polish = .ok "( * ( 0 nil nil ) ( x nil nil ) )" ∧
      (multiple (.known .mul) 0.0).polish = .ok "( * ( 0 nil nil ) ( x nil nil ) )" ∧
      (multiple (.code 2) (-0.0)).agrees 0.0 (multiple (.known .mul) 0.0) = true ∧
      (multiple (.code 2) (-0.0)).agrees 0.0 (multiple (.code 2) 0.0) = true ∧
      (0.0 : Float) ≤ 1.0 ∧
      (multiple (.code 2) (-0.0)).agrees 1.0 (multiple (.known .mul) 0.0) = true := by
  obtain ⟨-, -, -, hmono, hcopy, htrans, htext⟩ := agrees_equality
  have hstands : undefinedMultiple.Stands withUndefined undefinedMultiple.refs none :=
    ⟨⟨rfl, rfl, rfl⟩, List.Subset.refl _, by decide⟩
  have hapart : withUndefined.Apart undefinedMultiple.refs := ⟨by decide +kernel, by decide +kernel⟩
  have hpolish : (multiple (.code 2) (-0.0)).polish = .ok "( * ( 0 nil nil ) ( x nil nil ) )" := by
    decide +kernel
  have hpolish' : (multiple (.known .mul) 0.0).polish = .ok "( * ( 0 nil nil ) ( x nil nil ) )" := by
    decide +kernel
  have hle : (0.0 : Float) ≤ 1.0 := by decide +kernel
  have hagrees : (multiple (.code 2) (-0.0)).agrees 0.0 (multiple (.known .mul) 0.0) = true := by
    obtain ⟨s, t, hs, ht, h⟩ := htext (multiple (.code 2) (-0.0)) (multiple (.known .mul) 0.0)
      (.inr (by decide)) (.inr (by decide))
    refine h.mpr ?_
    rw [hpolish] at hs
    rw [hpolish'] at ht
    exact Except.ok.inj (hs.symm.trans ht)
  have hcode : (multiple (.known .mul) 0.0).agrees 0.0 (multiple (.code 2) 0.0) = true := by decide +kernel
  refine ⟨hstands, hapart, ?_, hpolish, hpolish', hagrees, htrans _ _ _ hagrees hcode, hle,
    hmono _ _ _ _ hle hagrees⟩
  refine (hcopy _ _ _ _ 2 hstands rfl hapart).mono (fun _ _ => id) fun _ _ hspelled => ?_
  exact absurd hspelled (by decide)

end Tree

end Fluxion
