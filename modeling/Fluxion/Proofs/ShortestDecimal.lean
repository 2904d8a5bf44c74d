import Fluxion.Proofs.Numerals
import Fluxion.Proofs.Rounding

/-!
# The shortest decimal of a double

The shortest decimal of a double lies in the interval of the double, so it is read back as the same
double.

* `Shortest.contains_ofBinary`: the shortest decimal lies in the interval. Were there none of seventeen
  digits, the grid of that many digits would be too coarse for the interval, but it is not.
* `Binary64.ofFloat_ofDecimal`: a decimal in the interval of a double is read as that double.
* `Literal.lawful`: doubles are read as they are written.
-/

namespace Fluxion

namespace Decimal

/-- The number that a decimal stands for. -/
def value (d : Decimal) : ℚ := d.digits * 10 ^ d.exponent

theorem value_lowest (d : Decimal) : d.lowest.value = d.value := by
  fun_induction lowest d with
  | case1 d h => simp [value, h]
  | case2 d h hten ih =>
    have hdigits : (d.digits : ℚ) = (d.digits / 10 : Nat) * 10 := by
      exact_mod_cast (Nat.div_mul_cancel (Nat.dvd_of_mod_eq_zero hten)).symm
    rw [ih]
    simp only [value]
    rw [hdigits, zpow_add_one₀ (by norm_num)]
    ring
  | case3 => rfl

theorem digits_lowest_pos {d : Decimal} (h : 0 < d.digits) : 0 < d.lowest.digits := by
  fun_induction lowest d with
  | case1 d hd => omega
  | case2 d hd hten ih => exact ih (by simp only; omega)
  | case3 => exact h

/-- The number of digits of a number. -/
theorem length_toDigits_spec {n : Nat} (h : 0 < n) :
    10 ^ ((Nat.toDigits 10 n).length - 1) ≤ n ∧ n < 10 ^ (Nat.toDigits 10 n).length := by
  have hpos := Nat.length_toDigits_pos (b := 10) (n := n)
  refine ⟨?_, (Nat.length_toDigits_le_iff (by decide) hpos).mp (Nat.le_refl _)⟩
  by_cases hone : (Nat.toDigits 10 n).length = 1
  · rw [hone]
    exact h
  · have hless := mt (Nat.length_toDigits_le_iff (n := n) (b := 10)
      (k := (Nat.toDigits 10 n).length - 1) (by decide) (by omega)).mpr (by omega)
    omega

/-- The value of a decimal is at least the power of ten of its leading digit, and below the next. -/
theorem magnitude_spec {d : Decimal} (h : 0 < d.digits) :
    (10 : ℚ) ^ d.magnitude ≤ d.value ∧ d.value < 10 ^ (d.magnitude + 1) := by
  have hten : (0 : ℚ) < 10 ^ d.exponent := zpow_pos (by norm_num) _
  obtain ⟨hlow, hhigh⟩ := length_toDigits_spec h
  obtain ⟨k, hk⟩ : ∃ k, (Nat.toDigits 10 d.digits).length = k + 1 :=
    ⟨_, (Nat.sub_add_cancel Nat.length_toDigits_pos).symm⟩
  have hmagnitude : d.magnitude = k + d.exponent := by
    rw [magnitude, digitChars, hk]
    push_cast
    ring
  rw [hk, Nat.add_sub_cancel] at hlow
  rw [hk] at hhigh
  have hsucc : (k : Int) + d.exponent + 1 = (k + 1 : Nat) + d.exponent := by
    push_cast
    ring
  rw [hmagnitude, hsucc, zpow_add₀ (by norm_num), zpow_add₀ (by norm_num), zpow_natCast, zpow_natCast, value]
  refine ⟨mul_le_mul_of_nonneg_right ?_ hten.le, mul_lt_mul_of_pos_right ?_ hten⟩
  · exact_mod_cast hlow
  · exact_mod_cast hhigh

end Decimal

namespace Shortest

open Binary64

/-! ## Points of a grid -/

theorem cast_tenTo (n : Nat) : (tenTo n : ℚ) = 10 ^ n := by
  rw [tenTo, Nat.pow_eq]
  push_cast
  rfl

/-- The scale that makes an interval in units of `2 ^ e` whole on the grid of step `10 ^ k`. -/
def intervalScale (e k : Int) : Nat := twoTo e.toNat * tenTo (-k).toNat

/-- The scale that makes the grid of step `10 ^ k` whole for an interval in units of `2 ^ e`. -/
def gridScale (e k : Int) : Nat := twoTo (-e).toNat * tenTo k.toNat

theorem intervalScale_pos (e k : Int) : 0 < intervalScale e k :=
  Nat.mul_pos (twoTo_pos _) (Nat.pow_pos (by decide))

theorem gridScale_pos (e k : Int) : 0 < gridScale e k :=
  Nat.mul_pos (twoTo_pos _) (Nat.pow_pos (by decide))

theorem intervalScale_mul (e k : Int) :
    (intervalScale e k : ℚ) * 10 ^ k = gridScale e k * 2 ^ e := by
  rw [zpow_eq_div 10, zpow_eq_div 2]
  simp only [intervalScale, gridScale]
  push_cast [cast_twoTo, cast_tenTo]
  field_simp

theorem cast_mul_gridScale (e k : Int) (p : Nat) :
    ((p * gridScale e k : Nat) : ℚ) = gridScale e k / 10 ^ k * (p * 10 ^ k) := by
  have hten : (10 : ℚ) ^ k ≠ 0 := zpow_ne_zero _ (by norm_num)
  push_cast
  field_simp

theorem cast_mul_intervalScale (e k : Int) (x : Nat) :
    ((x * intervalScale e k : Nat) : ℚ) = gridScale e k / 10 ^ k * (x * 2 ^ e) := by
  have hten : (10 : ℚ) ^ k ≠ 0 := zpow_ne_zero _ (by norm_num)
  have hscale : (intervalScale e k : ℚ) = gridScale e k * 2 ^ e / 10 ^ k :=
    eq_div_of_mul_eq hten (intervalScale_mul e k)
  push_cast
  rw [hscale]
  ring

theorem commonScale_pos (e k : Int) : (0 : ℚ) < gridScale e k / 10 ^ k :=
  div_pos (by exact_mod_cast gridScale_pos e k) (zpow_pos (by norm_num) _)

/-- On the common scale an end of an interval and a point of the grid compare as they do. -/
theorem le_scaled_iff (e k : Int) (x p : Nat) :
    x * intervalScale e k ≤ p * gridScale e k ↔ (x : ℚ) * 2 ^ e ≤ p * 10 ^ k := by
  rw [← Nat.cast_le (α := ℚ), cast_mul_intervalScale, cast_mul_gridScale,
    mul_le_mul_iff_right₀ (commonScale_pos e k)]

theorem scaled_le_iff (e k : Int) (x p : Nat) :
    p * gridScale e k ≤ x * intervalScale e k ↔ (p : ℚ) * 10 ^ k ≤ x * 2 ^ e := by
  rw [← Nat.cast_le (α := ℚ), cast_mul_intervalScale, cast_mul_gridScale,
    mul_le_mul_iff_right₀ (commonScale_pos e k)]

theorem Interval.holds_iff (i : Interval) (k : Int) (p : Nat) :
    i.holds (intervalScale i.exponent k) (gridScale i.exponent k) p = true ↔ i.Contains (p * 10 ^ k) := by
  unfold holds Contains
  cases i.closed
  · simp [← not_le, le_scaled_iff, scaled_le_iff]
  · simp [le_scaled_iff, scaled_le_iff]

/-- What is picked lies in the interval. -/
theorem Interval.contains_of_pick? {i : Interval} {k : Int} {p : Nat} (h : i.pick? k = some p) :
    i.Contains (p * 10 ^ k) := by
  rw [← i.holds_iff]
  unfold pick? at h
  dsimp only at h
  split at h
  · cases h
  · cases h
    assumption
  · cases h
    assumption
  · split at h
    · cases h
      assumption
    · split at h
      · cases h
        assumption
      · split at h <;> cases h <;> assumption

/-- Where nothing is picked, the grid is as coarse as the interval is wide. -/
theorem Interval.le_of_pick?_eq_none {i : Interval} {k : Int} (hlow : i.low < i.value)
    (hhigh : i.value < i.high) (h : i.pick? k = none) :
    ((i.high : ℚ) - i.low) * 2 ^ i.exponent ≤ 10 ^ k := by
  obtain ⟨a, ha⟩ : ∃ a, a = intervalScale i.exponent k := ⟨_, rfl⟩
  obtain ⟨b, hb⟩ : ∃ b, b = gridScale i.exponent k := ⟨_, rfl⟩
  have hapos : 0 < a := ha ▸ intervalScale_pos _ _
  have hbpos : 0 < b := hb ▸ gridScale_pos _ _
  -- neither of the two points around the value lies in the interval
  have hnone : i.holds a b (i.value * a / b) = false ∧ i.holds a b (i.value * a / b + 1) = false := by
    unfold pick? at h
    dsimp only at h
    split at h
    · subst ha hb
      exact ⟨‹_›, ‹_›⟩
    · cases h
    · cases h
    · split at h
      · cases h
      · split at h
        · cases h
        · split at h <;> cases h
  have hbelow : i.value * a / b * b ≤ i.value * a := Nat.div_mul_le_self _ _
  have habove : i.value * a < (i.value * a / b + 1) * b := by
    have := Nat.lt_div_mul_add (a := i.value * a) hbpos
    rw [Nat.add_mul, Nat.one_mul]
    exact this
  have hlow' : i.low * a < i.value * a := Nat.mul_lt_mul_of_pos_right hlow hapos
  have hhigh' : i.value * a < i.high * a := Nat.mul_lt_mul_of_pos_right hhigh hapos
  have hwide : i.high * a ≤ i.low * a + 1 * b := by
    obtain ⟨hnone, hnone'⟩ := hnone
    unfold holds at hnone hnone'
    rw [Nat.add_mul] at hnone' habove
    split at hnone
    · rw [if_pos ‹_›] at hnone'
      simp only [Bool.and_eq_false_iff, decide_eq_false_iff_not] at hnone hnone'
      omega
    · rw [if_neg ‹_›] at hnone'
      simp only [Bool.and_eq_false_iff, decide_eq_false_iff_not] at hnone hnone'
      omega
  have hten : (0 : ℚ) < 10 ^ k := zpow_pos (by norm_num) _
  have hb' : (0 : ℚ) < b := by exact_mod_cast hbpos
  have hscale : (a : ℚ) * 10 ^ k = b * 2 ^ i.exponent := ha ▸ hb ▸ intervalScale_mul _ _
  have hwide' : ((i.high : ℚ) - i.low) * a ≤ b := by
    have hcast : (i.high : ℚ) * a ≤ i.low * a + 1 * b := by exact_mod_cast hwide
    linarith
  rw [← mul_le_mul_iff_left₀ hb']
  calc ((i.high : ℚ) - i.low) * 2 ^ i.exponent * b = (i.high - i.low) * a * 10 ^ k := by
        rw [mul_assoc, mul_comm (2 ^ i.exponent : ℚ), ← hscale, ← mul_assoc]
    _ ≤ b * 10 ^ k := mul_le_mul_of_nonneg_right hwide' hten.le
    _ = 10 ^ k * b := mul_comm _ _

theorem leadingPower_le {n d : Nat} (hn : 0 < n) (hd : 0 < d) :
    (10 : ℚ) ^ leadingPower n d ≤ n / d := by
  have hd' : (0 : ℚ) < d := by exact_mod_cast hd
  unfold leadingPower
  split
  · rename_i hle
    obtain ⟨k, hk⟩ : ∃ k, (Nat.toDigits 10 (n / d)).length = k + 1 :=
      ⟨_, (Nat.sub_add_cancel Nat.length_toDigits_pos).symm⟩
    have hlow := (Decimal.length_toDigits_spec (Nat.div_pos hle hd)).1
    rw [hk, Nat.add_sub_cancel] at hlow
    rw [hk]
    push_cast
    rw [add_sub_cancel_right, zpow_natCast, le_div_iff₀ hd']
    exact_mod_cast (Nat.le_div_iff_mul_le hd).mp hlow
  · rename_i hlt
    obtain ⟨k, hk⟩ : ∃ k, (Nat.toDigits 10 (d / n)).length = k + 1 :=
      ⟨_, (Nat.sub_add_cancel Nat.length_toDigits_pos).symm⟩
    have hhigh := (Decimal.length_toDigits_spec (Nat.div_pos (Nat.le_of_not_le hlt) hn)).2
    rw [hk] at hhigh
    dsimp only
    rw [hk]
    have hneg : ∀ j : Nat, d ≤ n * 10 ^ j → (10 : ℚ) ^ (-(j : Int)) ≤ n / d := by
      intro j hj
      rw [zpow_neg, zpow_natCast, le_div_iff₀ hd', inv_mul_le_iff₀ (by positivity), mul_comm]
      exact_mod_cast hj
    split
    · rename_i hle
      have hexponent : (1 : Int) - (k + 1 : Nat) = -(k : Nat) := by
        push_cast
        ring
      rw [hexponent]
      exact hneg k hle
    · exact hneg (k + 1) (by
        rw [Nat.mul_comm]
        exact ((Nat.div_lt_iff_lt_mul hn).mp hhigh).le)

theorem quotient_eq (m : Nat) (e : Int) :
    ((quotient m e).1 : ℚ) / (quotient m e).2 = m * 2 ^ e := by
  rw [zpow_eq_div]
  simp only [quotient]
  push_cast [cast_twoTo]
  ring

theorem Interval.Contains.pos {m : Nat} {e : Int} {x : ℚ} (hm : 0 < m)
    (h : (Interval.ofBinary m e).Contains x) : 0 < x := by
  have hu : (0 : ℚ) < 2 ^ e := zpow_pos two_pos _
  have hm' : (1 : ℚ) ≤ m := by exact_mod_cast hm
  have hx : 0 < x / 2 ^ e := by linarith [(h.bounds hm).1]
  exact (div_pos_iff_of_pos_right hu).mp hx

/-- A grid of seventeen digits is finer than the interval of a double. -/
theorem Interval.grid_lt {m : Nat} {e k : Int} (hp : (Binary64.finite false m e).Proper) (hm : 0 < m)
    (hk : (10 : ℚ) ^ (k + 16) ≤ m * 2 ^ e) :
    (10 : ℚ) ^ k < (((Interval.ofBinary m e).high : ℚ) - (Interval.ofBinary m e).low) *
      2 ^ (Interval.ofBinary m e).exponent := by
  obtain ⟨-, -, hbound, -⟩ := hp
  have hu : (0 : ℚ) < 2 ^ e := zpow_pos two_pos _
  have hbound' : (m : ℚ) < 2 ^ 53 := by exact_mod_cast hbound
  obtain ⟨c, hlow, hc1, -, -, hc2⟩ := Interval.exists_low (e := e) hm
  rw [hlow, high_ofBinary, two_zpow_exponent]
  rw [zpow_add₀ (by norm_num)] at hk
  have hk' : (10 : ℚ) ^ k ≤ m / 10 ^ 16 * 2 ^ e := by
    norm_num at hk ⊢
    linarith
  refine hk'.trans_lt ?_
  rw [show (4 * (m : ℚ) + 2 - (4 * m - c)) * (2 ^ e / 4) = (2 + c) / 4 * 2 ^ e by ring]
  refine mul_lt_mul_of_pos_right ?_ hu
  by_cases hpower : m = 2 ^ 52
  · have hm' : (m : ℚ) = 2 ^ 52 := by exact_mod_cast hpower
    rw [hm']
    norm_num
    linarith
  · rw [hc2 hpower]
    norm_num
    linarith

/-- **The shortest decimal of a double lies in its interval.** -/
theorem contains_ofBinary {m : Nat} {e : Int} (hp : (Binary64.finite false m e).Proper) (hm : 0 < m) :
    (Interval.ofBinary m e).Contains (ofBinary m e).value ∧ 0 < (ofBinary m e).digits ∧
      (ofBinary m e).IsLowest := by
  have hlow : (Interval.ofBinary m e).low < (Interval.ofBinary m e).value := by
    simp only [Interval.ofBinary]
    split <;> omega
  have hhigh : (Interval.ofBinary m e).value < (Interval.ofBinary m e).high :=
    Nat.lt_add_of_pos_right (by decide)
  obtain ⟨d, hd, hcontains⟩ : ∃ d, (List.range 17).findSome? (fun (places : Nat) =>
      ((Interval.ofBinary m e).pick? (leadingPower (quotient m e).1 (quotient m e).2 - places)).map
        fun p => Decimal.mk p (leadingPower (quotient m e).1 (quotient m e).2 - places)) = some d ∧
      (Interval.ofBinary m e).Contains d.value := by
    rcases hfound : (List.range 17).findSome? (fun (places : Nat) =>
      ((Interval.ofBinary m e).pick? (leadingPower (quotient m e).1 (quotient m e).2 - places)).map
        fun p => Decimal.mk p (leadingPower (quotient m e).1 (quotient m e).2 - places)) with _ | d
    · -- not even the grid of seventeen digits has a point in the interval
      have hnone := List.findSome?_eq_none_iff.mp hfound 16 (by decide)
      rw [Option.map_eq_none_iff] at hnone
      have hleading := leadingPower_le (n := (quotient m e).1) (d := (quotient m e).2)
        (Nat.mul_pos hm (twoTo_pos _)) (twoTo_pos _)
      rw [quotient_eq] at hleading
      have hfine := Interval.grid_lt (k := leadingPower (quotient m e).1 (quotient m e).2 - 16) hp hm
        (by rwa [Int.sub_add_cancel])
      exact absurd (Interval.le_of_pick?_eq_none hlow hhigh hnone) (not_le.mpr hfine)
    · obtain ⟨places, -, hplaces⟩ := List.exists_of_findSome?_eq_some hfound
      obtain ⟨p, hp, rfl⟩ := Option.map_eq_some_iff.mp hplaces
      exact ⟨_, rfl, Interval.contains_of_pick? hp⟩
  have heq : ofBinary m e = d.lowest := by
    unfold ofBinary
    dsimp only
    rw [hd]
    rfl
  rw [heq, Decimal.value_lowest]
  have hdigits : 0 < d.digits := by
    have hvalue := hcontains.pos hm
    by_contra hzero
    obtain hzero : d.digits = 0 := by omega
    rw [Decimal.value, hzero, Nat.cast_zero, zero_mul] at hvalue
    exact lt_irrefl _ hvalue
  exact ⟨hcontains, Decimal.digits_lowest_pos hdigits, Decimal.isLowest_lowest d⟩

end Shortest

namespace Binary64

theorem toNat_or_signBit {b : UInt64} (hb : b.toNat < 2 ^ 63) (negative : Bool) :
    (b ||| signBit negative).toNat = b.toNat + if negative then 2 ^ 63 else 0 := by
  cases negative
  · simp [signBit]
  · have hbit : (signBit true).toNat = 2 ^ 63 := rfl
    have hor := Nat.two_pow_add_eq_or_of_lt hb 1
    rw [Nat.mul_one] at hor
    rw [UInt64.toNat_or, hbit, Nat.or_comm, ← hor, Nat.add_comm]
    rfl

/-- The bit of the sign makes a number negative. -/
theorem ofBits_or_signBit {b : UInt64} (hb : b.toNat < 2 ^ 63) (negative : Bool) :
    ofBits (b ||| signBit negative) = (ofBits b).withSign negative := by
  have hfields : ∀ (s : Bool) (field fraction : Nat),
      ofFields negative field fraction = (ofFields s field fraction).withSign negative := by
    intro s field fraction
    unfold ofFields
    split
    · split <;> rfl
    · split <;> rfl
  rw [ofBits_eq_ofFields, ofBits_eq_ofFields, toNat_or_signBit hb, ← hfields]
  cases negative
  · congr 1
    simpa using hb
  · rw [if_pos rfl]
    have hsign : decide ((b.toNat + 2 ^ 63) / 2 ^ 63 ≠ 0) = true := by
      rw [decide_eq_true_iff]
      omega
    have hfield : (b.toNat + 2 ^ 63) / 2 ^ 52 % 2 ^ 11 = b.toNat / 2 ^ 52 % 2 ^ 11 := by
      have hsplit : 2 ^ 63 = 2 ^ 52 * 2 ^ 11 := by norm_num
      rw [hsplit, Nat.add_mul_div_left _ _ (by norm_num), Nat.add_mod_right]
    have hfraction : (b.toNat + 2 ^ 63) % 2 ^ 52 = b.toNat % 2 ^ 52 := by omega
    rw [hsign, hfield, hfraction]

theorem two_pow_le_ten_pow (n : Nat) : (2 : ℚ) ^ (3 * n) ≤ 10 ^ n := by
  rw [pow_mul]
  exact pow_le_pow_left₀ (by norm_num) (by norm_num) n

/-- **A decimal in the interval of a double is read as that double.** -/
theorem ofFloat_ofDecimal {m : Nat} {e : Int} {d : Decimal} (hp : (finite false m e).Proper) (hm : 0 < m)
    (hd : 0 < d.digits) (h : (Shortest.Interval.ofBinary m e).Contains d.value) (negative : Bool) :
    ofFloat (ofDecimal negative d) = finite negative m e := by
  obtain ⟨hlow, hhigh, -, -⟩ := h.bounds hm
  obtain ⟨hmagnitude, hmagnitude'⟩ := Decimal.magnitude_spec hd
  obtain ⟨hmin, hmax, hbound, -⟩ := id hp
  simp only [minExponent, maxExponent] at hmin hmax
  have hu : (0 : ℚ) < 2 ^ e := zpow_pos two_pos _
  have hm1 : (1 : ℚ) ≤ m := by exact_mod_cast hm
  have hm2 : (m : ℚ) + 1 ≤ 2 ^ 53 := by exact_mod_cast hbound
  have hsmall : ¬d.magnitude < -decimalReach := by
    have hleast : (2 : ℚ) ^ (-1074 : Int) ≤ 2 ^ e := zpow_le_zpow_right₀ one_le_two hmin
    have hvalue : (2 : ℚ) ^ (-1074 : Int) * (1 / 2) ≤ d.value := by
      have := (le_div_iff₀ hu).mp (show (1 : ℚ) / 2 ≤ d.value / 2 ^ e by linarith)
      linarith
    intro hlt
    have hpower : (10 : ℚ) ^ (d.magnitude + 1) ≤ 10 ^ (-400 : Int) :=
      zpow_le_zpow_right₀ (by norm_num) (by simp only [decimalReach] at hlt; omega)
    have hnumbers : (10 : ℚ) ^ (-400 : Int) ≤ 2 ^ (-1074 : Int) * (1 / 2) := by
      calc (10 : ℚ) ^ (-400 : Int) ≤ 2 ^ (-1200 : Int) := by
            rw [zpow_neg, zpow_neg, zpow_ofNat, zpow_ofNat]
            exact inv_anti₀ (pow_pos two_pos _) (two_pow_le_ten_pow 400)
        _ ≤ 2 ^ (-1074 + -1 : Int) := zpow_le_zpow_right₀ one_le_two (by decide)
        _ = 2 ^ (-1074 : Int) * (1 / 2) := by
            rw [zpow_add₀ two_ne_zero, zpow_neg_one, one_div]
    exact absurd (hmagnitude'.trans_le (hpower.trans (hnumbers.trans hvalue))) (lt_irrefl _)
  have hlarge : ¬decimalReach < d.magnitude := by
    have hmost : (2 : ℚ) ^ e ≤ 2 ^ (971 : Int) := zpow_le_zpow_right₀ one_le_two hmax
    have hvalue : d.value ≤ 2 ^ 53 * 2 ^ (971 : Int) := by
      have := (div_le_iff₀ hu).mp (show d.value / 2 ^ e ≤ 2 ^ 53 by linarith)
      refine this.trans ?_
      gcongr
    intro hlt
    have hpower : (10 : ℚ) ^ (400 : Int) ≤ 10 ^ d.magnitude :=
      zpow_le_zpow_right₀ (by norm_num) (by simp only [decimalReach] at hlt; omega)
    have hnumbers : (2 : ℚ) ^ 53 * 2 ^ (971 : Int) < 10 ^ (400 : Int) := by
      calc (2 : ℚ) ^ 53 * 2 ^ (971 : Int) = 2 ^ 1024 := by
            rw [zpow_ofNat, ← pow_add]
        _ < 2 ^ 1200 := pow_lt_pow_right₀ one_lt_two (by decide)
        _ ≤ 10 ^ (400 : Int) := by
            rw [zpow_ofNat]
            exact two_pow_le_ten_pow 400
    exact absurd (hnumbers.trans_le (hpower.trans (hmagnitude.trans hvalue))) (lt_irrefl _)
  have hvalue : ((d.digits * tenTo d.exponent.toNat : Nat) : ℚ) / (tenTo (-d.exponent).toNat : Nat) = d.value := by
    rw [Decimal.value, zpow_eq_div]
    push_cast [Shortest.cast_tenTo]
    ring
  have hten : ∀ n, 0 < tenTo n := fun n => Nat.pow_pos (by decide)
  have hbits := nearestBits_of_contains (Nat.mul_pos hd (hten d.exponent.toNat)) (hten (-d.exponent).toNat)
    hp hm (hvalue ▸ h)
  unfold ofDecimal
  dsimp only
  rw [if_neg (by simp [Nat.ne_of_gt hd, hsmall]), if_neg hlarge, hbits, ofFloat_ofBits,
    ofBits_or_signBit (toNat_bits_lt hp), ofBits_bits hp]
  rfl

/-- **A number in the range of doubles is read as it is written.** -/
theorem ofFloat_ofNumeral {b : Binary64} (hb : b.Proper) :
    ofFloat (ofNumeral (b.toNumeral Shortest.ofBinary)) = b := by
  cases b with
  | nan => rw [toNumeral, ofNumeral, ofFloat_ofBits]; rfl
  | infinite negative =>
    rw [toNumeral, ofNumeral, ofFloat_ofBits, ofBits_or_signBit (by decide)]
    rfl
  | finite negative m e =>
    have hp : (finite false m e).Proper := hb
    rcases Nat.eq_zero_or_pos m with rfl | hm
    · have he : e = minExponent := hp.2.2.2.resolve_right (by decide)
      rw [he, toNumeral, if_pos rfl, ofNumeral, ofDecimal]
      dsimp only
      rw [if_pos (by decide), ofFloat_ofBits, ofBits_or_signBit (by decide)]
      rfl
    · obtain ⟨hcontains, hdigits, -⟩ := Shortest.contains_ofBinary hp hm
      rw [toNumeral, if_neg (Nat.ne_of_gt hm), ofNumeral, ofFloat_ofDecimal hp hm hdigits hcontains]

theorem withSign_proper {b : Binary64} (hb : b.Proper) (negative : Bool) :
    (b.withSign negative).Proper := by
  cases b <;> exact hb

theorem toNumeral_withSign (b : Binary64) (pick : Nat → Int → Decimal) :
    (b.withSign false).toNumeral pick = (b.toNumeral pick).unsigned := by
  cases b <;> rfl

theorem isLowest_toNumeral {b : Binary64} (hb : b.Proper) : (b.toNumeral Shortest.ofBinary).IsLowest := by
  cases b with
  | nan => trivial
  | infinite => trivial
  | finite negative m e =>
    rcases Nat.eq_zero_or_pos m with rfl | hm
    · exact Decimal.lowest_zero 0
    · rw [toNumeral, if_neg (Nat.ne_of_gt hm)]
      exact (Shortest.contains_ofBinary (e := e) hb hm).2.2

end Binary64

/-- **Doubles are read as they are written.** -/
theorem Literal.lawful_float : Literal.Lawful Float where
  isLowest x := Binary64.isLowest_toNumeral (Binary64.proper_ofFloat x)
  ofNumeral_toNumeral x :=
    Binary64.ofFloat_injective (Binary64.ofFloat_ofNumeral (Binary64.proper_ofFloat x))
  toNumeral_unsigned x := by
    have hread := Binary64.ofFloat_ofNumeral
      (Binary64.withSign_proper (Binary64.proper_ofFloat x) false)
    rw [Binary64.toNumeral_withSign] at hread
    exact (congrArg (Binary64.toNumeral Shortest.ofBinary) hread).trans
      (Binary64.toNumeral_withSign _ _)
  toNumeral_nought := by decide +kernel
  toNumeral_overflow := by decide +kernel

/-! ## Signs of doubles and of their numerals -/

namespace Literal

variable (x : Float)

theorem ofNumeral_nought_float : (ofNumeral (.finite false ⟨0, 0⟩) : Float) = 0.0 := by decide +kernel

theorem ofNumeral_overflow_float :
    (ofNumeral (.finite false ⟨1, 999⟩) : Float) = ofNumeral (.infinite false) := by
  rw [← lawful_float.toNumeral_overflow, lawful_float.ofNumeral_toNumeral]

/-- The numeral of a double that is no zero is settled; the other zero is the one that is. -/
theorem ofNumeral_settled_float :
    (ofNumeral (toNumeral x).settled : Float) = if x == 0.0 then 0.0 else x := by
  have hproper := Binary64.proper_ofFloat x
  have hself := lawful_float.ofNumeral_toNumeral x
  have hnumeral : toNumeral x = (Binary64.ofFloat x).toNumeral Shortest.ofBinary := rfl
  rw [Binary64.beq_zero]
  rw [hnumeral] at hself ⊢
  cases hb : Binary64.ofFloat x with
  | nan => rwa [hb] at hself
  | infinite negative => rwa [hb] at hself
  | finite negative m e =>
    rw [hb] at hself hproper
    rcases Nat.eq_zero_or_pos m with rfl | hm
    · have hzero : (Binary64.finite negative 0 e).isZero = true := rfl
      rw [if_pos hzero, Binary64.toNumeral, if_pos rfl, Numeral.settled, bne_self_eq_false,
        Bool.and_false]
      exact ofNumeral_nought_float
    · obtain ⟨-, hdigits, -⟩ := Shortest.contains_ofBinary (e := e) hproper hm
      have hzero : (m == 0) = false := beq_eq_false_iff_ne.mpr (Nat.ne_of_gt hm)
      have hsettled : ((Binary64.finite negative m e).toNumeral Shortest.ofBinary).settled =
          (Binary64.finite negative m e).toNumeral Shortest.ofBinary := by
        rw [Binary64.toNumeral, if_neg (Nat.ne_of_gt hm), Numeral.settled,
          bne_iff_ne.mpr (Nat.ne_of_gt hdigits), Bool.and_true]
      rw [hsettled, hself, Binary64.isZero, hzero]
      rfl

theorem toNumeral_eq_nan_iff : toNumeral x = .nan ↔ x.isNaN = true := by
  rw [Binary64.isNaN_eq, decide_eq_true_iff]
  have hnumeral : toNumeral x = (Binary64.ofFloat x).toNumeral Shortest.ofBinary := rfl
  rw [hnumeral]
  cases Binary64.ofFloat x <;> simp [Binary64.toNumeral]

theorem isNegative_toNumeral_iff : (toNumeral x).isNegative = true ↔ x < 0.0 := by
  have hproper := Binary64.proper_ofFloat x
  have hnumeral : toNumeral x = (Binary64.ofFloat x).toNumeral Shortest.ofBinary := rfl
  rw [Binary64.lt_zero_iff, hnumeral]
  cases hb : Binary64.ofFloat x with
  | nan => rfl
  | infinite negative => rfl
  | finite negative m e =>
    rw [hb] at hproper
    rw [Binary64.toNumeral, Numeral.isNegative, Binary64.isNegative]
    rcases Nat.eq_zero_or_pos m with rfl | hm
    · rfl
    · obtain ⟨-, hdigits, -⟩ := Shortest.contains_ofBinary (e := e) hproper hm
      rw [if_neg (Nat.ne_of_gt hm), bne_iff_ne.mpr (Nat.ne_of_gt hdigits),
        bne_iff_ne.mpr (Nat.ne_of_gt hm)]

/-- Without the sign of its numeral, a number is its absolute value. -/
theorem ofNumeral_unsigned_float : ofNumeral (toNumeral x).unsigned = x.abs := by
  have hproper := Binary64.withSign_proper (Binary64.proper_ofFloat x) false
  apply Binary64.ofFloat_injective
  rw [Binary64.ofFloat_abs, ← Binary64.ofFloat_ofNumeral hproper, Binary64.toNumeral_withSign]
  rfl

/-- The absolute value of a number that is not negative. -/
theorem abs_eq_of_not_lt {x : Float} (h : ¬x < 0.0) : x.abs = if x == 0.0 then 0.0 else x := by
  have hproper := Binary64.proper_ofFloat x
  apply Binary64.ofFloat_injective
  rw [Binary64.lt_zero_iff] at h
  rw [Binary64.ofFloat_abs, Binary64.beq_zero]
  cases hb : Binary64.ofFloat x with
  | nan => exact hb.symm
  | infinite negative =>
    rw [hb, Binary64.isNegative, Bool.not_eq_true] at h
    rw [h] at hb ⊢
    exact hb.symm
  | finite negative m e =>
    rw [hb] at h hproper
    rcases Nat.eq_zero_or_pos m with rfl | hm
    · have he : e = Binary64.minExponent := hproper.2.2.2.resolve_right (by decide)
      rw [he]
      exact Binary64.ofFloat_zero.symm
    · have hne : (m == 0) = false := beq_eq_false_iff_ne.mpr (Nat.ne_of_gt hm)
      rw [Binary64.isNegative, bne_iff_ne.mpr (Nat.ne_of_gt hm), Bool.and_true, Bool.not_eq_true] at h
      rw [Binary64.isZero, hne, if_neg Bool.false_ne_true, hb, h]
      rfl

end Literal

end Fluxion
