import Fluxion.Decimal.Shortest
import Fluxion.Proofs.Doubles
import Mathlib.Data.Int.Log
import Mathlib.Data.Rat.Floor
import Mathlib.Tactic.FieldSimp
import Mathlib.Tactic.Linarith
import Mathlib.Tactic.Positivity
import Mathlib.Tactic.Qify
import Mathlib.Tactic.Ring

/-!
# The nearest double
-/

namespace Fluxion

namespace Binary64

/-! ## Quotients -/

/-- A quotient within half a unit of `m` rounds to `m`, and at half a unit if `m` is even. -/
theorem roundDiv_eq {n d m : Nat} (hd : 0 < d) (hlow : 2 * m * d ≤ 2 * n + d)
    (hhigh : 2 * n ≤ 2 * m * d + d)
    (hodd : m % 2 = 1 → 2 * m * d < 2 * n + d ∧ 2 * n < 2 * m * d + d) : roundDiv n d = m := by
  have hn := Nat.div_add_mod n d
  have hr := Nat.mod_lt n hd
  unfold roundDiv
  dsimp only
  generalize n / d = q at hn ⊢
  generalize n % d = r at hn hr ⊢
  have hle : q ≤ m := by
    by_contra h
    have : d * (m + 1) ≤ d * q := Nat.mul_le_mul_left d (by omega)
    nlinarith
  have hge : m ≤ q + 1 := by
    by_contra h
    have : d * (q + 2) ≤ d * m := Nat.mul_le_mul_left d (by omega)
    nlinarith
  obtain rfl | rfl : m = q ∨ m = q + 1 := by omega
  · have : 2 * m * d = 2 * (d * m) := by ring
    split
    · rfl
    · split
      · omega
      · split
        · rfl
        · omega
  · have : 2 * (q + 1) * d = 2 * (d * q) + 2 * d := by ring
    split
    · omega
    · split
      · rfl
      · split
        · omega
        · rfl

theorem twoTo_pos (n : Nat) : 0 < twoTo n := Nat.two_pow_pos n

theorem cast_twoTo (n : Nat) : (twoTo n : ℚ) = 2 ^ n := by
  rw [twoTo, Nat.pow_eq]
  push_cast
  rfl

/-- A power is a quotient of two powers with natural exponents. -/
theorem zpow_eq_div (c : ℚ) (e : Int) : c ^ e = c ^ e.toNat / c ^ (-e).toNat := by
  rcases Int.le_total 0 e with h | h
  · obtain ⟨n, rfl⟩ := Int.eq_ofNat_of_zero_le h
    simp
  · obtain ⟨n, hn⟩ := Int.eq_ofNat_of_zero_le (Int.neg_nonneg_of_nonpos h)
    obtain rfl : e = -n := by omega
    simp

theorem inUnits_pos {n d : Nat} (hd : 0 < d) (e : Int) : 0 < (inUnits n d e).2 :=
  Nat.mul_pos hd (twoTo_pos _)

/-- A quotient in units of `2 ^ e`. -/
theorem inUnits_fst {n d : Nat} (hd : 0 < d) (e : Int) :
    ((inUnits n d e).1 : ℚ) = n / d / 2 ^ e * (inUnits n d e).2 := by
  have hd' : (d : ℚ) ≠ 0 := by positivity
  rw [zpow_eq_div]
  simp only [inUnits]
  push_cast [cast_twoTo]
  field_simp

/-- **The exponent of the nearest double** is the logarithm of the quotient, down to the smallest there
is. -/
theorem exponentFor_eq {n d : Nat} (hn : 0 < n) (hd : 0 < d) :
    exponentFor n d = max (Int.log 2 (n / d : ℚ) - 52) minExponent := by
  have hpos : (0 : ℚ) < n / d := by positivity
  have hd' : (0 : ℚ) < d := by positivity
  have hn1 : (2 : ℚ) ^ (n.log2 : Int) ≤ n := by
    exact_mod_cast Nat.log2_self_le (Nat.ne_of_gt hn)
  have hn2 : (n : ℚ) < 2 ^ (n.log2 + 1 : Int) := by
    exact_mod_cast Nat.lt_log2_self (n := n)
  have hd1 : (2 : ℚ) ^ (d.log2 : Int) ≤ d := by
    exact_mod_cast Nat.log2_self_le (Nat.ne_of_gt hd)
  have hd2 : (d : ℚ) < 2 ^ (d.log2 + 1 : Int) := by
    exact_mod_cast Nat.lt_log2_self (n := d)
  -- the logarithm is the difference of the two, or one less
  have hle : Int.log 2 (n / d : ℚ) < n.log2 - d.log2 + 1 := by
    refine (Int.lt_zpow_iff_log_lt (by decide) hpos).mp ?_
    rw [Nat.cast_ofNat, div_lt_iff₀ hd']
    calc (n : ℚ) < 2 ^ (n.log2 + 1 : Int) := hn2
      _ = 2 ^ (n.log2 - d.log2 + 1 : Int) * 2 ^ (d.log2 : Int) := by
        rw [← zpow_add₀ two_ne_zero]
        congr 1
        ring
      _ ≤ 2 ^ (n.log2 - d.log2 + 1 : Int) * d :=
        mul_le_mul_of_nonneg_left hd1 (zpow_nonneg zero_le_two _)
  have hge : (n.log2 : Int) - d.log2 - 1 ≤ Int.log 2 (n / d : ℚ) := by
    refine (Int.zpow_le_iff_le_log (by decide) hpos).mp ?_
    rw [Nat.cast_ofNat, le_div_iff₀ hd']
    calc (2 : ℚ) ^ (n.log2 - d.log2 - 1 : Int) * d ≤
        2 ^ (n.log2 - d.log2 - 1 : Int) * 2 ^ (d.log2 + 1 : Int) :=
          mul_le_mul_of_nonneg_left hd2.le (zpow_nonneg zero_le_two _)
      _ = 2 ^ (n.log2 : Int) := by
        rw [← zpow_add₀ two_ne_zero]
        congr 1
        ring
      _ ≤ n := hn1
  have hlt : (inUnits n d (n.log2 - d.log2 - 52)).1 <
      (inUnits n d (n.log2 - d.log2 - 52)).2 * twoTo 52 ↔
        Int.log 2 (n / d : ℚ) < n.log2 - d.log2 := by
    have hq : (0 : ℚ) < (inUnits n d (n.log2 - d.log2 - 52)).2 := by
      exact_mod_cast inUnits_pos hd _
    have hsplit : (2 : ℚ) ^ (n.log2 - d.log2 : Int) = 2 ^ 52 * 2 ^ (n.log2 - d.log2 - 52 : Int) := by
      rw [← zpow_natCast, ← zpow_add₀ two_ne_zero]
      congr 1
      push_cast
      ring
    rw [← Int.lt_zpow_iff_log_lt (by decide) hpos, Nat.cast_ofNat, hsplit,
      ← div_lt_iff₀ (zpow_pos two_pos _), ← Nat.cast_lt (α := ℚ), Nat.cast_mul, inUnits_fst hd,
      mul_comm (Nat.cast (inUnits n d _).2 : ℚ), mul_lt_mul_iff_left₀ hq, cast_twoTo]
  unfold exponentFor
  dsimp only
  split
  · rename_i h
    have := hlt.mp h
    omega
  · rename_i h
    have := mt hlt.mpr h
    omega

/-- A number within half a unit of `m · 2 ^ e` rounds to `m` units, and at half a unit if `m` is
even. -/
theorem roundDiv_inUnits {n d m : Nat} {e : Int} (hd : 0 < d)
    (hlow : 2 * (m : ℚ) ≤ 2 * (n / d / 2 ^ e) + 1) (hhigh : 2 * (n / d / 2 ^ e : ℚ) ≤ 2 * m + 1)
    (hodd : m % 2 = 1 → 2 * (m : ℚ) < 2 * (n / d / 2 ^ e) + 1 ∧ 2 * (n / d / 2 ^ e : ℚ) < 2 * m + 1) :
    roundDiv (inUnits n d e).1 (inUnits n d e).2 = m := by
  have hq : (0 : ℚ) < (inUnits n d e).2 := by exact_mod_cast inUnits_pos hd e
  have hp := inUnits_fst (n := n) hd e
  generalize (n / d / 2 ^ e : ℚ) = y at hlow hhigh hodd hp
  refine roundDiv_eq (inUnits_pos hd e) ?_ ?_ fun ho => ⟨?_, ?_⟩
  · qify
    rw [hp]
    linarith [mul_le_mul_of_nonneg_right hlow hq.le]
  · qify
    rw [hp]
    linarith [mul_le_mul_of_nonneg_right hhigh hq.le]
  · qify
    rw [hp]
    linarith [mul_lt_mul_of_pos_right (hodd ho).1 hq]
  · qify
    rw [hp]
    linarith [mul_lt_mul_of_pos_right (hodd ho).2 hq]

/-! ## Bits -/

theorem twoTo_fiftyTwo : twoTo 52 = 2 ^ 52 := rfl

theorem mantissaBound_eq : mantissaBound = 2 ^ 53 := rfl

/-- The bits of a double, in plain figures: the exponent field and the fraction. -/
theorem toNat_bits {m : Nat} {e : Int} (h : (finite false m e).Proper) :
    (bits m e).toNat = if m < 2 ^ 52 then m else (e + 1075).toNat * 2 ^ 52 + (m - 2 ^ 52) := by
  obtain ⟨hmin, hmax, hm, -⟩ := h
  unfold bits
  rw [if_neg (Int.not_lt.mpr hmax), twoTo_fiftyTwo, Nat.shiftLeft_eq]
  simp only [minExponent, maxExponent, mantissaBound_eq] at hmin hmax hm
  split
  · rw [UInt64.toNat_ofNat']
    omega
  · rw [UInt64.toNat_ofNat']
    omega

theorem ofBits_bits {m : Nat} {e : Int} (h : (finite false m e).Proper) :
    ofBits (bits m e) = finite false m e := by
  rw [ofBits_eq_ofFields, toNat_bits h]
  obtain ⟨hmin, hmax, hm, he⟩ := h
  simp only [minExponent, maxExponent, mantissaBound_eq, twoTo_fiftyTwo] at hmin hmax hm he
  split
  · rename_i hlt
    rw [Nat.div_eq_of_lt hlt, Nat.mod_eq_of_lt hlt, Nat.div_eq_of_lt (by omega),
      he.resolve_right (by omega)]
    rfl
  · rename_i hlt
    obtain ⟨f, hf⟩ : ∃ f, f = (e + 1075).toNat := ⟨_, rfl⟩
    have hfield : (f * 2 ^ 52 + (m - 2 ^ 52)) / 2 ^ 52 % 2 ^ 11 = f := by omega
    have hrest : (f * 2 ^ 52 + (m - 2 ^ 52)) % 2 ^ 52 = m - 2 ^ 52 := by omega
    have hplus : (f * 2 ^ 52 + (m - 2 ^ 52)) / 2 ^ 63 = 0 := by omega
    have he' : (f : Int) - 1075 = e := by omega
    rw [← hf, hfield, hrest, hplus, ofFields, if_neg (by omega), if_neg (by omega), he',
      twoTo_fiftyTwo, Nat.sub_add_cancel (Nat.le_of_not_lt hlt)]
    rfl

theorem toNat_bits_lt {m : Nat} {e : Int} (h : (finite false m e).Proper) :
    (bits m e).toNat < 2 ^ 63 := by
  rw [toNat_bits h]
  obtain ⟨hmin, hmax, hm, he⟩ := h
  simp only [minExponent, maxExponent, mantissaBound_eq] at hmin hmax hm
  split <;> omega

/-! ## The nearest double -/

/-- The nearest double has the rounded quotient for its mantissa, unless that takes one bit more. -/
theorem nearestBits_eq {n d m : Nat} {e : Int} (hn : 0 < n)
    (h : carry (roundDiv (inUnits n d (exponentFor n d)).1 (inUnits n d (exponentFor n d)).2)
      (exponentFor n d) = (m, e)) : nearestBits n d = bits m e := by
  unfold nearestBits
  rw [if_neg (Nat.ne_of_gt hn)]
  dsimp only
  rw [h]

end Binary64

namespace Shortest

/-- A number lies in the interval. -/
def Interval.Contains (i : Interval) (x : ℚ) : Prop :=
  if i.closed then i.low * 2 ^ i.exponent ≤ x ∧ x ≤ i.high * 2 ^ i.exponent
  else i.low * 2 ^ i.exponent < x ∧ x < i.high * 2 ^ i.exponent

/-- How far the interval of a double reaches down, in quarters of its last place. -/
theorem Interval.exists_low {m : Nat} {e : Int} (hm : 0 < m) :
    ∃ c : ℚ, ((Interval.ofBinary m e).low : ℚ) = 4 * m - c ∧ 1 ≤ c ∧ c ≤ 2 ∧
      (m = 2 ^ 52 → Binary64.minExponent < e → c = 1) ∧ (m ≠ 2 ^ 52 → c = 2) := by
  unfold ofBinary
  dsimp only
  split
  · rename_i hnarrow
    refine ⟨1, ?_, le_rfl, one_le_two, fun _ _ => rfl, fun hne => ?_⟩
    · rw [Nat.cast_sub (by omega)]
      push_cast
      rfl
    · simp only [Bool.and_eq_true, decide_eq_true_eq] at hnarrow
      exact absurd hnarrow.1 hne
  · rename_i hwide
    refine ⟨2, ?_, one_le_two, le_rfl, fun hm he => ?_, fun _ => rfl⟩
    · rw [Nat.cast_sub (by omega)]
      push_cast
      rfl
    · simp [hm, he, Binary64.twoTo_fiftyTwo] at hwide

theorem Interval.high_ofBinary (m : Nat) (e : Int) :
    ((Interval.ofBinary m e).high : ℚ) = 4 * m + 2 := by
  simp [Interval.ofBinary]

theorem Interval.two_zpow_exponent (m : Nat) (e : Int) :
    (2 : ℚ) ^ (Interval.ofBinary m e).exponent = 2 ^ e / 4 := by
  rw [ofBinary, zpow_sub₀ two_ne_zero]
  norm_num

/-- The interval of a double, in units of its last place. -/
theorem Interval.Contains.bounds {m : Nat} {e : Int} {x : ℚ} (hm : 0 < m)
    (h : (Interval.ofBinary m e).Contains x) :
    2 * (m : ℚ) ≤ 2 * (x / 2 ^ e) + 1 ∧ 2 * (x / 2 ^ e) ≤ 2 * m + 1 ∧
      (m % 2 = 1 → 2 * (m : ℚ) < 2 * (x / 2 ^ e) + 1 ∧ 2 * (x / 2 ^ e) < 2 * m + 1) ∧
      (m = 2 ^ 52 → Binary64.minExponent < e → 4 * (m : ℚ) ≤ 4 * (x / 2 ^ e) + 1) := by
  have hu : (0 : ℚ) < 2 ^ e := zpow_pos two_pos _
  obtain ⟨y, rfl⟩ : ∃ y, x = y * 2 ^ e := ⟨x / 2 ^ e, by field_simp⟩
  rw [mul_div_cancel_right₀ _ hu.ne']
  have hle (a b : ℚ) : a * (2 ^ e / 4) ≤ b * 2 ^ e ↔ a ≤ 4 * b := by
    rw [show a * (2 ^ e / 4) = a / 4 * 2 ^ e by ring, mul_le_mul_iff_left₀ hu, div_le_iff₀' four_pos]
  have hge (a b : ℚ) : b * 2 ^ e ≤ a * (2 ^ e / 4) ↔ 4 * b ≤ a := by
    rw [show a * (2 ^ e / 4) = a / 4 * 2 ^ e by ring, mul_le_mul_iff_left₀ hu, le_div_iff₀' four_pos]
  obtain ⟨c, hlow, -, hc2, hc1, -⟩ := Interval.exists_low (e := e) hm
  have hclosed : (Interval.ofBinary m e).closed = decide (m % 2 = 0) := rfl
  unfold Contains at h
  rw [hlow, high_ofBinary, hclosed, two_zpow_exponent] at h
  simp only [decide_eq_true_eq, hle, hge, ← not_le] at h
  simp only [← not_le]
  split at h
  · refine ⟨by linarith [h.1], by linarith [h.2], fun ho => by omega, fun hm he => ?_⟩
    linarith [h.1, hc1 hm (Int.not_le.mp he)]
  · refine ⟨by linarith [not_le.mp h.1], by linarith [not_le.mp h.2], fun _ => ⟨?_, ?_⟩, fun hm he => ?_⟩
    · exact not_le.mpr (by linarith [not_le.mp h.1])
    · exact not_le.mpr (by linarith [not_le.mp h.2])
    · linarith [not_le.mp h.1, hc1 hm (Int.not_le.mp he)]

end Shortest

namespace Binary64

open Shortest

/-- **A number in the interval of a double rounds to that double.** -/
theorem nearestBits_of_contains {n d m : Nat} {e : Int} (hn : 0 < n) (hd : 0 < d)
    (hp : (finite false m e).Proper) (hm : 0 < m) (h : (Interval.ofBinary m e).Contains (n / d)) :
    nearestBits n d = bits m e := by
  obtain ⟨hlow, hhigh, hodd, hnarrow⟩ := h.bounds hm
  obtain ⟨hmin, hmax, hbound, hleast⟩ := hp
  rw [mantissaBound_eq] at hbound
  have hu : (0 : ℚ) < 2 ^ e := zpow_pos two_pos _
  have hx : (0 : ℚ) < n / d := by positivity
  have hboundQ : (m : ℚ) + 1 ≤ 2 ^ 53 := by exact_mod_cast hbound
  have hlog : Int.log 2 (n / d : ℚ) < e + 53 := by
    rw [← Int.lt_zpow_iff_log_lt (by decide) hx, Nat.cast_ofNat, zpow_add₀ two_ne_zero, mul_comm, ← div_lt_iff₀ hu]
    norm_num
    linarith
  have hexponent := exponentFor_eq hn hd
  by_cases hsame : exponentFor n d = e
  · refine nearestBits_eq hn ?_
    rw [hsame, roundDiv_inUnits hd hlow hhigh hodd, carry, mantissaBound_eq,
      if_neg (Nat.ne_of_lt hbound)]
  · -- the number lies below the power of two `2 ^ 52 · 2 ^ e`, where doubles are denser
    have hlt : e ≠ minExponent := by
      intro he
      exact hsame (by omega)
    have hm52 : 2 ^ 52 ≤ m := hleast.resolve_left hlt
    have hbelow : Int.log 2 (n / d : ℚ) < e + 52 := by omega
    rw [← Int.lt_zpow_iff_log_lt (by decide) hx, Nat.cast_ofNat, zpow_add₀ two_ne_zero, mul_comm,
      ← div_lt_iff₀ hu] at hbelow
    replace hbelow : (n / d / 2 ^ e : ℚ) < 2 ^ 52 := by exact_mod_cast hbelow
    have hpower : m = 2 ^ 52 := by
      have : (m : ℚ) < 2 ^ 52 + 1 := by linarith
      have : m < 2 ^ 52 + 1 := by exact_mod_cast this
      omega
    have hquarter := hnarrow hpower (by omega)
    have hmQ : (m : ℚ) = 2 ^ 52 := by exact_mod_cast hpower
    have hhalf : (2 : ℚ) ^ (e - 1) = 2 ^ e / 2 := zpow_sub_one₀ two_ne_zero e
    have hdouble : (n / d / 2 ^ (e - 1) : ℚ) = 2 * (n / d / 2 ^ e) := by
      rw [hhalf]
      field_simp
    have hless : exponentFor n d = e - 1 := by
      have : (e - 1) + 52 ≤ Int.log 2 (n / d : ℚ) := by
        rw [← Int.zpow_le_iff_le_log (by decide) hx, Nat.cast_ofNat, zpow_add₀ two_ne_zero, mul_comm,
          ← le_div_iff₀ (zpow_pos two_pos _), hdouble]
        norm_num at hmQ ⊢
        linarith
      omega
    refine nearestBits_eq hn ?_
    have hround : roundDiv (inUnits n d (e - 1)).1 (inUnits n d (e - 1)).2 = mantissaBound := by
      have hbQ : ((mantissaBound : Nat) : ℚ) = 2 * m := by
        rw [mantissaBound_eq, hmQ]
        norm_num
      refine roundDiv_inUnits hd ?_ ?_ fun hodd => absurd hodd (by decide)
      · rw [hdouble, hbQ]
        linarith
      · rw [hdouble, hbQ]
        linarith
    rw [hless, hround, carry, if_pos rfl, Int.sub_add_cancel, hpower, twoTo_fiftyTwo]

end Binary64

end Fluxion
