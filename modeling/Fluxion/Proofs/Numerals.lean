import Fluxion.Numeral
import Fluxion.Proofs.NumberText
import Fluxion.Text.Blank
import Mathlib.Algebra.Group.Nat.Defs

/-!
# Numerals are read as they are written

A decimal without trailing zeros is written in one of several layouts, and each of them is a text that
stands for that decimal. So a numeral that is written down is read as the same numeral, except that the
sign of a zero is lost.

* `Decimal.numberText_write` says what the text of a decimal stands for, in any layout.
* `Numeral.read?_plainChars` reads a numeral back.
* `Literal.Lawful` are the laws of scalars that are read as they are written.
-/

namespace Fluxion

namespace Text

/-- The value of an ASCII digit. -/
theorem digitValue?_of_isDigit {c : Char} (h : c.isDigit = true) :
    digitValue? c = some (c.toNat - 48) := by
  have hc : 48 ≤ c.toNat ∧ c.toNat ≤ 57 := by
    simp only [Char.isDigit, Bool.and_eq_true, decide_eq_true_eq] at h
    exact ⟨h.1, h.2⟩
  have hten : ∀ n : Fin 58, 48 ≤ n.val → digitValue? (Char.ofNat n) = some (n.val - 48) := by
    decide
  have hchar := hten ⟨c.toNat, by omega⟩ hc.1
  rwa [Char.ofNat_toNat] at hchar

/-- No blank is a digit. -/
theorem isBlank_of_isDigit {c : Char} (h : isDigit c = true) : isBlank c = false := by
  obtain ⟨v, hv⟩ := Option.isSome_iff_exists.mp h
  obtain ⟨first, hfind, -⟩ := Option.map_eq_some_iff.mp hv
  have hin := Array.find?_some hfind
  have hmem := Array.mem_of_find?_eq_some hfind
  have hzeros : ∀ z ∈ digitZeros, ∀ k < 10,
      ¬(0x09 ≤ z + k ∧ z + k ≤ 0x0D ∨ 0x1C ≤ z + k ∧ z + k ≤ 0x20 ∨ z + k = 0x85 ∨ z + k = 0xA0 ∨
        z + k = 0x1680 ∨ 0x2000 ≤ z + k ∧ z + k ≤ 0x200A ∨ z + k = 0x2028 ∨ z + k = 0x2029 ∨
        z + k = 0x202F ∨ z + k = 0x205F ∨ z + k = 0x3000) := by decide +kernel
  simp only [Bool.and_eq_true, decide_eq_true_eq] at hin
  have hnot := hzeros first hmem (c.toNat - first) (by omega)
  rw [Nat.add_sub_cancel' hin.1] at hnot
  rw [← Bool.not_eq_true]
  simpa [isBlank, or_assoc] using hnot

/-- No blank is a letter. -/
theorem isBlank_of_isAlpha {c : Char} (h : c.isAlpha = true) : isBlank c = false := by
  rw [isAlpha_iff] at h
  rw [← Bool.not_eq_true]
  simp only [isBlank, Bool.or_eq_true, Bool.and_eq_true, decide_eq_true_eq, beq_iff_eq]
  omega

end Text

namespace Decimal

/-! ## Lowest form -/

theorem lowest_zero (e : Int) : lowest ⟨0, e⟩ = ⟨0, 0⟩ := by
  unfold lowest
  simp

/-- The decimal has no trailing zero. -/
def IsLowest (d : Decimal) : Prop := d.lowest = d

theorem isLowest_lowest (d : Decimal) : d.lowest.IsLowest := by
  unfold IsLowest
  fun_induction lowest d with
  | case1 d h => exact lowest_zero 0
  | case2 d h hten ih => exact ih
  | case3 d h hten => rw [lowest, dif_neg h, if_neg hten]

/-- Trailing zeros do not matter. -/
theorem lowest_scaled (n j : Nat) (e : Int) : lowest ⟨n * 10 ^ j, e - j⟩ = lowest ⟨n, e⟩ := by
  rcases Nat.eq_zero_or_pos n with rfl | hn
  · rw [Nat.zero_mul, lowest_zero, lowest_zero]
  · induction j with
    | zero => simp
    | succ j ih =>
      have hpos : n * 10 ^ (j + 1) ≠ 0 := Nat.ne_of_gt (Nat.mul_pos hn (Nat.pow_pos (by decide)))
      have hten : n * 10 ^ (j + 1) = n * 10 ^ j * 10 := by rw [Nat.pow_succ, Nat.mul_assoc]
      rw [lowest, dif_neg hpos, if_pos (by rw [hten, Nat.mul_mod_left]), hten, Nat.mul_div_cancel _ (by decide), ← ih]
      congr 2
      push_cast
      omega

/-! ## Digits -/

/-- The values of digits. -/
def values (cs : List Char) : List Nat := cs.map fun c => c.toNat - 48

theorem digitText_values {cs : List Char} (h : ∀ c ∈ cs, c.isDigit = true) :
    DigitText cs (values cs) := by
  induction cs with
  | nil => exact .nil
  | cons c cs ih =>
    rw [List.forall_mem_cons] at h
    exact .cons (Text.digitValue?_of_isDigit h.1) (ih h.2)

theorem ofDigits_values (cs : List Char) : ofDigits (values cs) = Nat.ofDigitChars 10 cs 0 := by
  rw [ofDigits, values, List.foldl_map, Nat.ofDigitChars_eq_foldl]
  rfl

@[simp] theorem length_values (cs : List Char) : (values cs).length = cs.length := List.length_map ..

theorem values_append (cs cs' : List Char) : values (cs ++ cs') = values cs ++ values cs' :=
  List.map_append ..

theorem isDigit_zeros {n : Nat} : ∀ c ∈ Numeral.zeros n, c.isDigit = true := by
  intro c hc
  rw [List.eq_of_mem_replicate hc]
  rfl

variable {d : Decimal}

theorem isDigit_digitChars : ∀ c ∈ d.digitChars, c.isDigit = true :=
  fun _ hc => Nat.isDigit_of_mem_toDigits (by decide) (by decide) hc

theorem ofDigits_digitChars (d : Decimal) : ofDigits (values d.digitChars) = d.digits := by
  rw [ofDigits_values, digitChars, Nat.ofDigitChars_ten_toDigits]

/-! ## Layouts -/

open Numeral

/-- A text whose digits spell a scaled decimal stands for the decimal. -/
theorem NumberText.of_scaled {m e : List Char} {ws fs : List Nat} {k : Int} (h : d.IsLowest)
    (hm : MantissaText m ws fs) (he : ExponentText e k) (j : Nat)
    (hn : ofDigits (ws ++ fs) = d.digits * 10 ^ j) (hk : k - fs.length = d.exponent - j) :
    NumberText (m ++ e) d := by
  refine ⟨m, e, ws, fs, k, rfl, hm, he, ?_⟩
  rw [hn, hk, lowest_scaled]
  exact h.symm

theorem digitText_digitChars (d : Decimal) : DigitText d.digitChars (values d.digitChars) :=
  digitText_values isDigit_digitChars

theorem digitText_zeros (n : Nat) : DigitText (zeros n) (values (zeros n)) :=
  digitText_values isDigit_zeros

theorem values_ne_nil {cs : List Char} (h : cs ≠ []) : values cs ≠ [] :=
  mt List.map_eq_nil_iff.mp h

theorem digitChars_ne_nil (d : Decimal) : d.digitChars ≠ [] := Nat.toDigits_ne_nil

/-- Zeros behind the digits scale them. -/
theorem ofDigits_digitChars_zeros (d : Decimal) (n : Nat) :
    ofDigits (values (d.digitChars ++ zeros n)) = d.digits * 10 ^ n := by
  rw [ofDigits_values, Nat.ofDigitChars_append, digitChars, Nat.ofDigitChars_ten_toDigits, zeros,
    Nat.ofDigitChars_replicate_zero, Nat.mul_comm]

/-- Zeros before the digits do nothing. -/
theorem ofDigits_zeros_digitChars (d : Decimal) (n : Nat) :
    ofDigits (values (zeros n ++ d.digitChars)) = d.digits := by
  rw [ofDigits_values, Nat.ofDigitChars_append, zeros, Nat.ofDigitChars_replicate_zero, Nat.mul_zero,
    digitChars, Nat.ofDigitChars_ten_toDigits]

/-! A decimal with every digit in its place, in the four layouts that there are. -/

theorem digitText_scaled (d : Decimal) (n : Nat) :
    DigitText (d.digitChars ++ zeros n) (values (d.digitChars ++ zeros n)) := by
  rw [values_append]
  exact (digitText_digitChars d).append (digitText_zeros n)

theorem values_scaled_ne_nil (d : Decimal) (n : Nat) : values (d.digitChars ++ zeros n) ≠ [] :=
  values_ne_nil fun h => digitChars_ne_nil d (List.append_eq_nil_iff.mp h).1

theorem numberText_whole (h : d.IsLowest) {n : Nat} (hn : d.exponent = n) :
    NumberText (d.digitChars ++ zeros n) d := by
  have htext := NumberText.of_scaled h (.whole (digitText_scaled d n) (values_scaled_ne_nil d n)) .none n
    (by rw [List.append_nil, ofDigits_digitChars_zeros]) (by simp [hn])
  rwa [List.append_nil] at htext

theorem numberText_point (h : d.IsLowest) {n : Nat} (hn : d.exponent = n) :
    NumberText (d.digitChars ++ zeros n ++ ['.', '0']) d := by
  have hdigits : ofDigits (values (d.digitChars ++ zeros n) ++ values ['0']) =
      d.digits * 10 ^ (n + 1) := by
    rw [← values_append, List.append_assoc, ← ofDigits_digitChars_zeros, zeros, zeros,
      List.replicate_succ']
  have hplaces : (0 : Int) - (values ['0']).length = d.exponent - (n + 1 : Nat) := by
    rw [hn, length_values, List.length_singleton]
    omega
  have hnought : DigitText ['0'] (values ['0']) := digitText_values (List.all_eq_true.mp (by decide))
  have htext := NumberText.of_scaled h
    (.pointed (digitText_scaled d n) (values_scaled_ne_nil d n) hnought) .none (n + 1) hdigits hplaces
  rwa [List.append_nil] at htext

theorem numberText_places (h : d.IsLowest) {n : Nat} (hn : d.exponent = -(n : Int))
    (hlt : n < d.digitChars.length) :
    NumberText (d.digitChars.take (d.digitChars.length - n) ++
      '.' :: d.digitChars.drop (d.digitChars.length - n)) d := by
  have hwhole : DigitText (d.digitChars.take (d.digitChars.length - n)) _ :=
    digitText_values fun c hc => isDigit_digitChars c (List.mem_of_mem_take hc)
  have hfraction : DigitText (d.digitChars.drop (d.digitChars.length - n)) _ :=
    digitText_values fun c hc => isDigit_digitChars c (List.mem_of_mem_drop hc)
  have hne : values (d.digitChars.take (d.digitChars.length - n)) ≠ [] := by
    refine values_ne_nil ?_
    rw [← List.length_pos_iff, List.length_take]
    omega
  have htext := NumberText.of_scaled h (.pointed hwhole hne hfraction) .none 0
    (by rw [← values_append, List.take_append_drop, ofDigits_digitChars, Nat.pow_zero, Nat.mul_one])
    (by rw [length_values, List.length_drop, hn]; omega)
  rwa [List.append_nil] at htext

theorem numberText_fraction (h : d.IsLowest) {n : Nat} (hn : d.exponent = -(n : Int))
    (hle : d.digitChars.length ≤ n) :
    NumberText ('0' :: '.' :: (zeros (n - d.digitChars.length) ++ d.digitChars)) d := by
  have hfraction : DigitText (zeros (n - d.digitChars.length) ++ d.digitChars)
      (values (zeros (n - d.digitChars.length) ++ d.digitChars)) := by
    rw [values_append]
    exact (digitText_zeros _).append (digitText_digitChars d)
  have htext := NumberText.of_scaled h (.pointed (w := ['0']) (digitText_values (List.all_eq_true.mp (by decide)))
    (values_ne_nil (by decide)) hfraction) .none 0
    (by rw [← values_append, Nat.pow_zero, Nat.mul_one]
        exact ofDigits_zeros_digitChars d (n - d.digitChars.length + 1))
    (by rw [length_values, List.length_append, zeros, List.length_replicate, hn]; omega)
  rwa [List.append_nil] at htext

theorem numberText_positional (h : d.IsLowest) (keepsPoint : Bool) :
    NumberText (positional keepsPoint d) d := by
  unfold positional
  dsimp only
  split
  · rename_i hexponent
    have hn : d.exponent = (d.exponent.toNat : Int) := (Int.toNat_of_nonneg hexponent).symm
    cases keepsPoint
    · rw [if_neg (by decide), List.append_nil]
      exact numberText_whole h hn
    · exact numberText_point h hn
  · have hn : d.exponent = -((-d.exponent).toNat : Int) := by omega
    split
    · rename_i hlt
      exact numberText_places h hn hlt
    · rename_i hle
      exact numberText_fraction h hn (Nat.le_of_not_lt hle)

/-- The digits of a decimal with one digit before the point. -/
theorem exists_mantissa_scientific (d : Decimal) :
    ∃ ws fs, MantissaText (match d.digitChars with | [] => [] | [c] => [c] | c :: cs => c :: '.' :: cs) ws fs ∧
      ofDigits (ws ++ fs) = d.digits ∧ d.magnitude = d.exponent + fs.length := by
  have hdigits := digitText_digitChars d
  have hvalue := ofDigits_digitChars d
  have hmagnitude : d.magnitude = d.digitChars.length + d.exponent - 1 := rfl
  rcases hcs : d.digitChars with _ | ⟨c, _ | ⟨c', cs⟩⟩
  · exact absurd hcs (digitChars_ne_nil d)
  · rw [hcs] at hdigits hvalue hmagnitude
    refine ⟨_, [], .whole hdigits (by simp [values]), ?_, ?_⟩
    · rw [List.append_nil, hvalue]
    · simp only [List.length_cons, List.length_nil] at hmagnitude ⊢
      omega
  · rw [hcs] at hdigits hvalue hmagnitude
    cases hdigits with
    | cons hc hrest =>
      refine ⟨_, _, .pointed (w := [c]) (.cons hc .nil) (by simp) hrest, hvalue, ?_⟩
      simp only [List.length_cons, List.length_map] at hmagnitude ⊢
      omega

/-- A power of ten, in at least two digits. -/
theorem exponentText_magnitude (k : Int) :
    ExponentText ('e' :: (if k < 0 then '-' else '+') ::
      (zeros (2 - (Nat.toDigits 10 k.natAbs).length) ++ Nat.toDigits 10 k.natAbs)) k := by
  obtain ⟨d, hd⟩ : ∃ d : Decimal, d.digits = k.natAbs := ⟨⟨k.natAbs, 0⟩, rfl⟩
  rw [← hd]
  have hdigits := (digitText_zeros (2 - d.digitChars.length)).append (digitText_digitChars d)
  rw [← values_append] at hdigits
  have hne : values (zeros (2 - d.digitChars.length) ++ d.digitChars) ≠ [] := by
    refine values_ne_nil fun h => ?_
    exact digitChars_ne_nil d (List.append_eq_nil_iff.mp h).2
  have hvalue := ofDigits_zeros_digitChars d (2 - d.digitChars.length)
  split
  · have htext := ExponentText.marked (c := 'e') (.inl rfl) .minus hdigits hne
    have hk : -(k.natAbs : Int) = k := by omega
    rw [if_pos rfl, hvalue, hd, hk] at htext
    exact htext
  · have htext := ExponentText.marked (c := 'e') (.inl rfl) .plus hdigits hne
    have hk : (k.natAbs : Int) = k := by omega
    rw [if_neg (by decide), hvalue, hd, hk] at htext
    exact htext

theorem numberText_scientific (h : d.IsLowest) : NumberText (scientific d) d := by
  obtain ⟨ws, fs, hm, hn, hk⟩ := exists_mantissa_scientific d
  exact NumberText.of_scaled h hm (exponentText_magnitude d.magnitude) 0 (by rw [hn, Nat.pow_zero, Nat.mul_one]) (by omega)

/-- **In any layout the text of a decimal stands for it.** -/
theorem numberText_write (h : d.IsLowest) (l : Layout) : NumberText (l.write d) d := by
  unfold Layout.write
  split
  · exact numberText_positional h _
  · exact numberText_scientific h

end Decimal

namespace Numeral

/-! ## Numerals -/

open Decimal

/-- The decimal of a numeral has no trailing zero. -/
def IsLowest : Numeral → Prop
  | finite _ d => d.IsLowest
  | _ => True

/-- The numeral, with no sign on a zero. -/
def settled : Numeral → Numeral
  | finite negative d => finite (negative && d.digits != 0) d
  | n => n

theorem signed_false (s : List Char) : signed false s = s := rfl

/-- The text of the magnitude of a numeral in a tree. -/
theorem numberText_plainChars {d : Decimal} (h : d.IsLowest) :
    NumberText (finite false d).plainChars d := by
  rw [plainChars]
  split
  · exact numberText_positional h false
  · exact numberText_write h .exact

/-- A numeral in a tree is its sign, unless it is zero, and its magnitude. -/
theorem plainChars_finite {d : Decimal} (h : d.IsLowest) (negative : Bool) :
    (finite negative d).plainChars =
      signed (negative && d.digits != 0) (finite false d).plainChars := by
  rw [plainChars, plainChars]
  split
  · rfl
  · rename_i hwhole
    have hne : (d.digits != 0) = true := by
      rw [bne_iff_ne]
      intro hzero
      obtain rfl : (⟨0, 0⟩ : Decimal) = d := by
        rw [← h]
        unfold lowest
        rw [dif_pos hzero]
      exact hwhole rfl
    rw [hne, Bool.and_true]
    rfl

/-- A numeral is settled, or it loses its sign. -/
theorem settled_eq (n : Numeral) : n.settled = n ∨ n.settled = n.unsigned := by
  cases n with
  | nan => exact .inl rfl
  | infinite negative => exact .inl rfl
  | finite negative d =>
    cases negative with
    | false => exact .inl rfl
    | true =>
      rw [settled, Bool.true_and]
      cases d.digits != 0 with
      | true => exact .inl rfl
      | false => exact .inr rfl

theorem plainChars_settled {n : Numeral} (h : n.IsLowest) : n.settled.plainChars = n.plainChars := by
  cases n with
  | nan => rfl
  | infinite negative => rfl
  | finite negative d =>
    have h : d.IsLowest := h
    rw [settled, plainChars_finite h, plainChars_finite h negative, Bool.and_assoc, Bool.and_self]

/-- The characters of a number. -/
def isNumberChar (c : Char) : Bool :=
  Text.isDigit c || c = '.' || c = 'e' || c = 'E' || c = '+' || c = '-'

theorem isNumberChar_of_digitText {s : List Char} {vs : List Nat} (h : DigitText s vs) :
    ∀ c ∈ s, isNumberChar c = true := by
  induction h with
  | nil => exact List.forall_mem_nil _
  | cons hc _ ih =>
    refine List.forall_mem_cons.mpr ⟨?_, ih⟩
    simp [isNumberChar, Text.isDigit, hc]

theorem isNumberChar_of_numberText {s : List Char} {d : Decimal} (h : NumberText s d) :
    ∀ c ∈ s, isNumberChar c = true := by
  obtain ⟨m, e, ws, fs, k, rfl, hm, he, -⟩ := h
  refine List.forall_mem_append.mpr ⟨?_, ?_⟩
  · cases hm with
    | whole hw => exact isNumberChar_of_digitText hw
    | pointed hw _ hf =>
      refine List.forall_mem_append.mpr ⟨isNumberChar_of_digitText hw, ?_⟩
      exact List.forall_mem_cons.mpr ⟨rfl, isNumberChar_of_digitText hf⟩
    | fraction hf => exact List.forall_mem_cons.mpr ⟨rfl, isNumberChar_of_digitText hf⟩
  · cases he with
    | none => exact List.forall_mem_nil _
    | marked hc hsign hdigits =>
      refine List.forall_mem_cons.mpr ⟨?_, List.forall_mem_append.mpr ⟨?_, isNumberChar_of_digitText hdigits⟩⟩
      · rcases hc with rfl | rfl <;> rfl
      · cases hsign <;> exact List.all_eq_true.mp (by decide)

theorem isBlank_of_isNumberChar {c : Char} (h : isNumberChar c = true) :
    Text.isBlank c = false ∧ c ≠ '(' ∧ c ≠ ')' := by
  simp only [isNumberChar, Bool.or_eq_true, decide_eq_true_eq] at h
  rcases h with ((((h | rfl) | rfl) | rfl) | rfl) | rfl
  · refine ⟨Text.isBlank_of_isDigit h, ?_, ?_⟩
    · rintro rfl
      exact absurd h (by decide)
    · rintro rfl
      exact absurd h (by decide)
  all_goals decide

theorem dropUnderscores?_eq {s : List Char} (h : '_' ∉ s) (afterDigit : Bool) :
    dropUnderscores? afterDigit s = some s := by
  induction s generalizing afterDigit with
  | nil => rfl
  | cons c s ih =>
    rw [List.mem_cons, not_or] at h
    unfold dropUnderscores?
    split
    · cases ‹_ :: _ = _›
    · cases ‹_ :: _ = _›
      exact absurd rfl h.1
    · cases ‹_ :: _ = _›
      rw [if_neg (Ne.symm h.1), ih h.2]
      rfl

/-- A number and its sign. -/
theorem read?_signed {s : List Char} {d : Decimal} (h : NumberText s d) (negative : Bool) :
    read? (signed negative s) = some (finite negative d) := by
  have hplain : '_' ∉ s := fun hmem =>
    absurd (isNumberChar_of_numberText h '_' hmem) (by decide)
  have hsigned : '_' ∉ signed negative s := by
    cases negative
    · exact hplain
    · exact fun hmem => (List.mem_cons.mp hmem).elim (by decide) hplain
  have hsign : takeSign (signed negative s) = (negative, s) := by
    cases negative
    · obtain ⟨c, r, rfl, hc | rfl⟩ := h.exists_cons
      · obtain ⟨v, hv⟩ := Option.isSome_iff_exists.mp hc
        exact takeSign_of_digit hv r
      · rfl
    · rfl
  have hscan := scan?_append h noNumber_nil
  rw [List.append_nil] at hscan
  rw [read?, dropUnderscores?_eq hsigned, Option.bind_some, hsign]
  dsimp only
  rw [readUnsigned?, hscan]
  rfl

/-- **A numeral is read as it is written**, except for the sign of a zero. -/
theorem read?_plainChars {n : Numeral} (h : n.IsLowest) : read? n.plainChars = some n.settled := by
  cases n with
  | nan => rfl
  | infinite negative => cases negative <;> rfl
  | finite negative d =>
    rw [plainChars_finite h, read?_signed (numberText_plainChars h)]
    rfl

end Numeral

/-! ## Scalars -/

/-- The laws of scalars that are read as they are written. Two numerals that no scalar need have are
written all the same: nought, and a number that is too large. -/
structure Literal.Lawful (κ : Type) [Literal κ] : Prop where
  isLowest : ∀ v : κ, (Literal.toNumeral v).IsLowest
  ofNumeral_toNumeral : ∀ v : κ, Literal.ofNumeral (Literal.toNumeral v) = v
  toNumeral_unsigned : ∀ v : κ,
    Literal.toNumeral (Literal.ofNumeral (Literal.toNumeral v).unsigned : κ) =
      (Literal.toNumeral v).unsigned
  toNumeral_nought : Literal.toNumeral (Literal.ofNumeral (.finite false ⟨0, 0⟩) : κ) =
    .finite false ⟨0, 0⟩
  toNumeral_overflow : Literal.toNumeral (Literal.ofNumeral (.finite false ⟨1, 999⟩) : κ) =
    .infinite false

end Fluxion
