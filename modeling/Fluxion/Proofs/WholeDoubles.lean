import Fluxion.Proofs.DoubleValues

/-!
# Whole numbers as doubles

The double of a whole number is rounded to 53 bits. Up to `2 ^ 53` no bits are lost; from there on the
exponent of the double is not below nought, so that the double is whole whatever was lost.

* `Doubles.roundWithAccuracy_spec` says what rounding makes of a mantissa of at least 53 bits.
* `Doubles.value_ofNat` is the value of a whole number that is not rounded.
* `Doubles.exists_value_ofNat` says that the double of a whole number is whole.
-/

namespace Fluxion

open Float.Model (UnpackedFloat Format)
open Float.Model.UnpackedFloat

namespace Doubles

/-- Shifting to the right divides the mantissa. -/
theorem mantissa_shiftRight (em : ExtendedMantissa) (n : Nat) :
    (em >>> n).mantissa = em.mantissa / 2 ^ n := by
  change (n.repeat ExtendedMantissa.shiftRightOne em).mantissa = _
  induction n with
  | zero => simp [Nat.repeat]
  | succ n ih =>
    change (n.repeat ExtendedMantissa.shiftRightOne em).mantissa / 2 = _
    rw [ih, Nat.div_div_eq_div_mul, Nat.pow_succ]

/-- Of a mantissa that the shift divides no bits are lost. -/
theorem shiftRight_of_dvd {m n : Nat} (h : 2 ^ n ∣ m) :
    (⟨m, false, false⟩ : ExtendedMantissa) >>> n = ⟨m / 2 ^ n, false, false⟩ := by
  change n.repeat ExtendedMantissa.shiftRightOne _ = _
  induction n generalizing m with
  | zero => simp [Nat.repeat]
  | succ n ih =>
    change ExtendedMantissa.shiftRightOne (n.repeat ExtendedMantissa.shiftRightOne _) = _
    rw [ih ((pow_dvd_pow 2 n.le_succ).trans h)]
    have hd : m / 2 ^ n % 2 = 0 := by
      obtain ⟨q, rfl⟩ := h
      rw [Nat.pow_succ, mul_assoc, Nat.mul_div_cancel_left _ (by positivity)]
      omega
    simp [ExtendedMantissa.shiftRightOne, hd, Nat.div_div_eq_div_mul, Nat.pow_succ]

/-- Rounding adds one at most. -/
theorem roundedMantissa_eq (em : ExtendedMantissa) :
    em.roundedMantissa = em.mantissa ∨ em.roundedMantissa = em.mantissa + 1 := by
  obtain ⟨m, r, s⟩ := em
  cases r <;> cases s <;>
    simp [ExtendedMantissa.roundedMantissa, ExtendedMantissa.accuracy, Accuracy.roundToNearestEven]
  omega

/-- A number whose leading bit is the unit of `2 ^ 52` is in range as it is. -/
theorem repacked_finite {m : Nat} {e : Int} (hm : m.log2 = 52) (he : -1074 ≤ e) (hpos : 0 < m) :
    repacked (.finite .positive m e hpos) =
      if 972 ≤ e then .infinity .positive else .finite .positive m e hpos := by
  obtain ⟨hlow, hhigh⟩ := (Nat.log2_eq_iff (Nat.ne_of_gt hpos)).mp hm
  unfold repacked
  rw [pack_finite, if_pos hm]
  by_cases htop : 972 ≤ e
  · rw [if_pos (by omega), if_pos htop]
    rfl
  · rw [if_neg (by omega), if_neg htop]
    obtain ⟨b, hb⟩ : ∃ b, b = packComponents Format.binary64 .positive
      (BitVec.ofNat 11 (e + 1075).toNat) (BitVec.ofNat 52 m) := ⟨_, rfl⟩
    have hE : (BitVec.ofNat 11 (e + 1075).toNat).toNat = (e + 1075).toNat := by
      rw [BitVec.toNat_ofNat, Nat.mod_eq_of_lt (by omega)]
    have hM : (BitVec.ofNat 52 m).toNat = m - 2 ^ 52 := by
      rw [BitVec.toNat_ofNat]
      omega
    have hnat : b.toNat = (e + 1075).toNat * 2 ^ 52 + (m - 2 ^ 52) := by
      rw [hb, toNat_packComponents, hE, hM]
      simp [Sign.toBitVec]
    have hexponent : (unpackExponent b).toNat = (e + 1075).toNat := by
      rw [toNat_unpackExponent, hnat]
      omega
    have hmantissa : (unpackMantissa b).toNat = m - 2 ^ 52 := by
      rw [toNat_unpackMantissa, hnat]
      omega
    have hsign : sign b = .positive := by
      have hzero : unpackSign b = 0#1 := by
        apply BitVec.eq_of_toNat_eq
        rw [toNat_unpackSign, hnat, BitVec.toNat_ofNat]
        omega
      rw [sign, hzero]
      rfl
    rw [← hb]
    have hu := unpacks b
    generalize UnpackedFloat.unpack Format.binary64 b = u at hu
    cases hu with
    | infinity top | nan top =>
      rw [top] at hexponent
      simp at hexponent
      omega
    | zero bottom | subnormal bottom =>
      rw [bottom] at hexponent
      simp at hexponent
      omega
    | normal htop hbottom hpos' =>
      rw [UnpackedFloat.finite.injEq]
      exact ⟨hsign, by omega, by omega⟩

/-- Every bit that is dropped takes one from the logarithm. -/
theorem log2_shifted {m n : Nat} (hn : n ≤ m.log2) (hm : 0 < m) : (m / 2 ^ n).log2 = m.log2 - n := by
  obtain ⟨hlow, hhigh⟩ := (Nat.log2_eq_iff (Nat.ne_of_gt hm)).mp rfl
  have hpos : 0 < m / 2 ^ n :=
    Nat.div_pos ((Nat.pow_le_pow_right two_pos hn).trans hlow) (by positivity)
  refine (Nat.log2_eq_iff (Nat.ne_of_gt hpos)).mpr ⟨?_, ?_⟩
  · rw [Nat.le_div_iff_mul_le (by positivity), ← Nat.pow_add, Nat.sub_add_cancel hn]
    exact hlow
  · rw [Nat.div_lt_iff_lt_mul (by positivity), ← Nat.pow_add]
    exact hhigh.trans_le (Nat.pow_le_pow_right two_pos (by omega))

/-- The exponent at which a mantissa has 53 bits. -/
theorem targetExponent_eq {m : Nat} {e : Int} (he : -1022 ≤ m.log2 + e) :
    Format.binary64.targetExponent (Float.Model.totalExponent m e) = m.log2 + e - 52 := by
  unfold Format.targetExponent Float.Model.totalExponent Format.minExponent Format.mantissaBits
  dsimp only
  omega

/-- A mantissa of at least 53 bits is shifted to 53 bits. -/
theorem shiftToTargetExponent_eq {m : Nat} {e : Int} (hm : 52 ≤ m.log2) (he : -1022 ≤ m.log2 + e) :
    shiftToTargetExponent Format.binary64 m e .exact =
      ((⟨m, false, false⟩ : ExtendedMantissa) >>> (m.log2 - 52), m.log2 + e - 52) := by
  have hshift : (m.log2 + e - 52 - e).toNat = m.log2 - 52 := by omega
  unfold shiftToTargetExponent shiftToExponent
  simp only [targetExponent_eq he, hshift, ExtendedMantissa.ofMantissaAndAccuracy]
  congr 1
  omega

/-- A mantissa of at least 53 bits is rounded to 53 bits, and the exponent grows by the bits that are
dropped, or by one more. -/
theorem roundWithAccuracy_spec {m : Nat} {e : Int} (hm : 52 ≤ m.log2) (he : -1022 ≤ m.log2 + e) :
    ∃ m' e' hpos, roundWithAccuracy Format.binary64 .positive m e .exact = .finite .positive m' e' hpos ∧
      m'.log2 = 52 ∧ m.log2 + e - 52 ≤ e' := by
  have hpos : 0 < m := Nat.pos_of_ne_zero fun h => by simp [h] at hm
  obtain ⟨em, hem⟩ : ∃ em, em = (⟨m, false, false⟩ : ExtendedMantissa) >>> (m.log2 - 52) := ⟨_, rfl⟩
  have hmantissa : em.mantissa = m / 2 ^ (m.log2 - 52) := by
    rw [hem, mantissa_shiftRight]
  have hlog : em.mantissa.log2 = 52 := by
    rw [hmantissa, log2_shifted (Nat.sub_le _ _) hpos]
    omega
  have hem0 : em.mantissa ≠ 0 := fun h => by simp [h] at hlog
  obtain ⟨hlow, hhigh⟩ := (Nat.log2_eq_iff hem0).mp hlog
  have hrounded : 2 ^ 52 ≤ em.roundedMantissa ∧ em.roundedMantissa ≤ 2 ^ 53 := by
    rcases roundedMantissa_eq em with h | h <;> rw [h] <;> omega
  have hround0 : em.roundedMantissa ≠ 0 := by omega
  have hlog' : em.roundedMantissa.log2 = 52 ∨ em.roundedMantissa.log2 = 53 := by
    by_cases htop : em.roundedMantissa = 2 ^ 53
    · right
      rw [htop]
      exact Nat.log2_two_pow
    · left
      exact (Nat.log2_eq_iff hround0).mpr ⟨hrounded.1, by omega⟩
  unfold roundWithAccuracy
  rw [shiftToTargetExponent_eq hm he, ← hem]
  dsimp only
  rw [shiftToTargetExponent_eq (by omega) (by omega)]
  dsimp only
  have hfinal : ((⟨em.roundedMantissa, false, false⟩ : ExtendedMantissa) >>>
      (em.roundedMantissa.log2 - 52)).mantissa.log2 = 52 := by
    rw [mantissa_shiftRight]
    dsimp only
    rw [log2_shifted (Nat.sub_le _ _) (Nat.pos_of_ne_zero hround0)]
    omega
  have hne : ((⟨em.roundedMantissa, false, false⟩ : ExtendedMantissa) >>>
      (em.roundedMantissa.log2 - 52)).mantissa ≠ 0 := fun h => by simp [h] at hfinal
  rw [dif_neg hne]
  exact ⟨_, _, _, rfl, hfinal, by omega⟩

/-- The exact number is whole. -/
def IsWholeNumber (u : UnpackedFloat) : Prop := ∃ n : ℕ, (Binary64.ofUnpacked u).value = n

theorem isWholeNumber_finite {m : Nat} {e : Int} (he : 0 ≤ e) (hpos : 0 < m) :
    IsWholeNumber (.finite .positive m e hpos) := by
  obtain ⟨k, rfl⟩ := Int.eq_ofNat_of_zero_le he
  exact ⟨m * 2 ^ k, by simp [Binary64.ofUnpacked, Binary64.value_finite, Binary64.isMinus]⟩

/-- A rounded number of exponent nought or more is whole, or out of range. -/
theorem isWholeNumber_rounded {m : Nat} {e : Int} (hm : 52 ≤ m.log2) (he : 52 ≤ m.log2 + e) :
    IsWholeNumber (repacked (roundWithAccuracy Format.binary64 .positive m e .exact)) := by
  have hrange : -1022 ≤ (m.log2 : Int) + e := by omega
  obtain ⟨m', e', hpos, hround, hlog, hexponent⟩ := roundWithAccuracy_spec hm hrange
  rw [hround, repacked_finite hlog (by omega) hpos]
  split
  · exact ⟨0, by simp [Binary64.ofUnpacked, Binary64.value]⟩
  · exact isWholeNumber_finite (by omega) hpos

/-- A mantissa of 53 bits with zeros behind them is rounded to the 53 bits. -/
theorem roundWithAccuracy_exact {m n : Nat} {e e' : Int} (hm : m.log2 = 52) (he : e' = n + e)
    (hlow : -1074 ≤ e') (hpos : 0 < m) :
    roundWithAccuracy Format.binary64 .positive (m * 2 ^ n) e .exact = .finite .positive m e' hpos := by
  obtain ⟨hleast, hmost⟩ := (Nat.log2_eq_iff (Nat.ne_of_gt hpos)).mp hm
  have hlog : (m * 2 ^ n).log2 = 52 + n := by
    refine (Nat.log2_eq_iff (by positivity)).mpr ⟨?_, ?_⟩
    · rw [Nat.pow_add]
      exact Nat.mul_le_mul_right _ hleast
    · rw [Nat.add_right_comm, Nat.pow_add]
      exact Nat.mul_lt_mul_of_pos_right hmost (by positivity)
  have hshift : (⟨m * 2 ^ n, false, false⟩ : ExtendedMantissa) >>> (52 + n - 52) = ⟨m, false, false⟩ := by
    rw [Nat.add_sub_cancel_left, shiftRight_of_dvd (Nat.dvd_mul_left _ _),
      Nat.mul_div_cancel _ (by positivity)]
  have hnone : (⟨m, false, false⟩ : ExtendedMantissa) >>> (52 - 52) = ⟨m, false, false⟩ := by
    rw [shiftRight_of_dvd (by simp)]
    simp
  have hrounded : (⟨m, false, false⟩ : ExtendedMantissa).roundedMantissa = m := rfl
  unfold roundWithAccuracy
  rw [shiftToTargetExponent_eq (by omega) (by omega), hlog, hshift]
  dsimp only
  rw [hrounded, shiftToTargetExponent_eq (by omega) (by omega), hm, hnone]
  dsimp only
  rw [dif_neg (Nat.ne_of_gt hpos)]
  congr 1
  omega

theorem unpack_one : (Float.ofBits 4607182418800017408).toModel.unpack =
    .finite .positive (2 ^ 52) (-52) (by decide) := by
  rfl

/-- A whole number below `2 ^ 53` with its mantissa shifted to the left as far as it goes. -/
theorem log2_shiftedLeft {k : Nat} (hk : 0 < k) (h : k.log2 ≤ 52) : (k * 2 ^ (52 - k.log2)).log2 = 52 := by
  obtain ⟨hlow, hhigh⟩ := (Nat.log2_eq_iff (Nat.ne_of_gt hk)).mp rfl
  refine (Nat.log2_eq_iff (by positivity)).mpr ⟨?_, ?_⟩
  · have hsplit : 2 ^ 52 = 2 ^ k.log2 * 2 ^ (52 - k.log2) := by
      rw [← Nat.pow_add, Nat.add_sub_cancel' h]
    rw [hsplit]
    exact Nat.mul_le_mul_right _ hlow
  · have hsplit : 2 ^ (52 + 1) = 2 ^ (k.log2 + 1) * 2 ^ (52 - k.log2) := by
      rw [← Nat.pow_add]
      congr 1
      omega
    rw [hsplit]
    exact Nat.mul_lt_mul_of_pos_right hhigh (by positivity)

/-- A word below `2 ^ 53` becomes a double without rounding. -/
theorem unpack_toFloat {k : Nat} (hk : 0 < k) (h : k < 2 ^ 53) : k.toUInt64.toFloat.toModel.unpack =
    .finite .positive (k * 2 ^ (52 - k.log2)) (k.log2 - 52)
      (Nat.mul_pos hk (Nat.two_pow_pos _)) := by
  have hlog : k.log2 < 53 := (Nat.log2_lt (Nat.ne_of_gt hk)).mpr h
  have hm : (k * 2 ^ (52 - k.log2)).log2 = 52 := log2_shiftedLeft hk (Nat.le_of_lt_succ hlog)
  have hsmall : k.toUInt64.toNat = k := by
    rw [Nat.toUInt64_eq, UInt64.toNat_ofNat']
    omega
  have hmodel : k.toUInt64.toFloat.toModel.unpack =
      repacked (UnpackedFloat.ofNat Format.binary64 k.toUInt64.toNat) := rfl
  have hround : UnpackedFloat.ofNat Format.binary64 k =
      UnpackedFloat.round Format.binary64 .positive k 0 := by
    unfold UnpackedFloat.ofNat UnpackedFloat.ofInt UnpackedFloat.normalize
    have hgt : compare (k : Int) 0 = .gt := compare_gt_iff_gt.mpr (by omega)
    rw [hgt]
    rfl
  have hdecrease : decreaseExponent k 0 (k.log2 + 0 - 52) =
      (k * 2 ^ (52 - k.log2), (k.log2 : Int) - 52) := by
    have hamount : (0 - ((k.log2 : Int) + 0 - 52)).toNat = 52 - k.log2 := by omega
    unfold decreaseExponent
    rw [hamount]
    dsimp only
    rw [Nat.shiftLeft_eq]
    congr 1
    omega
  rw [hmodel, hsmall, hround, UnpackedFloat.round, targetExponent_eq (by omega), hdecrease]
  have hexact : roundWithAccuracy Format.binary64 .positive (k * 2 ^ (52 - k.log2) * 2 ^ 0) (k.log2 - 52) .exact =
      .finite .positive (k * 2 ^ (52 - k.log2)) (k.log2 - 52) (Nat.mul_pos hk (Nat.two_pow_pos _)) :=
    roundWithAccuracy_exact hm (by omega) (by omega) _
  rw [Nat.pow_zero, Nat.mul_one] at hexact
  dsimp only
  rw [hexact, repacked_finite hm (by omega) (by positivity), if_neg (by omega)]

/-- The double of a natural number below `2 ^ 53` is that of the word, which is cheaper to compute. -/
theorem ofNat_eq_toFloat {k : Nat} (h : k < 2 ^ 53) : Float.ofNat k = k.toUInt64.toFloat := by
  rcases Nat.eq_zero_or_pos k with rfl | hk
  · decide +kernel
  have hlog : k.log2 < 53 := (Nat.log2_lt (Nat.ne_of_gt hk)).mpr h
  have hm : (k * 2 ^ (52 - k.log2)).log2 = 52 := log2_shiftedLeft hk (Nat.le_of_lt_succ hlog)
  have hproduct : Float.ofNat k = k.toUInt64.toFloat * Float.ofBits 4607182418800017408 := by
    have hscientific : Float.ofNat k = Float.ofScientific k false 0 := rfl
    rw [hscientific, Float.ofScientific, dif_pos ⟨h, by omega⟩, if_neg Bool.false_ne_true]
    rfl
  have hmul : UnpackedFloat.mul Format.binary64
      (.finite .positive (k * 2 ^ (52 - k.log2)) (k.log2 - 52) (by positivity))
      (.finite .positive (2 ^ 52) (-52) (by decide)) =
        .finite .positive (k * 2 ^ (52 - k.log2)) (k.log2 - 52) (by positivity) :=
    roundWithAccuracy_exact hm (by omega) (by omega) _
  refine Binary64.ofFloat_injective ?_
  rw [Binary64.ofFloat_eq, Binary64.ofFloat_eq, hproduct, unpack_mul, unpack_toFloat hk h, unpack_one, hmul,
    repacked_finite hm (by omega) (by positivity), if_neg (by omega)]

/-- Whole numbers from `2 ^ 53` on are rounded to whole numbers, or are out of range. -/
theorem isWholeNumber_ofNat {k : Nat} (h : 2 ^ 53 ≤ k) :
    IsWholeNumber (Float.ofNat k).toModel.unpack := by
  have hlarge : ¬(k < 2 ^ 53 ∧ (0 : Nat) ≤ 22) := by omega
  have hk : k ≠ 0 := by omega
  have hlog : 53 ≤ k.log2 := by
    have hmono := Nat.log2_lt hk (k := 53)
    omega
  have hshifted : (k <<< 53 * 10 ^ 0).log2 = k.log2 + 53 := by
    have hlog' := (Nat.log2_eq_iff hk).mp rfl
    rw [Nat.shiftLeft_eq, Nat.pow_zero, Nat.mul_one]
    refine (Nat.log2_eq_iff (by positivity)).mpr ⟨?_, ?_⟩
    · rw [Nat.pow_add]
      exact Nat.mul_le_mul_right _ hlog'.1
    · rw [Nat.add_right_comm, Nat.pow_add]
      exact Nat.mul_lt_mul_of_pos_right hlog'.2 (by positivity)
  have hscientific : UnpackedFloat.ofScientific Format.binary64 k 0 =
      roundWithAccuracy Format.binary64 .positive (k <<< 53 * 10 ^ 0) (-53 + 0) .exact := by
    have hrange : (0 : Int) ≤ 2 ^ Format.binary64.exponentBits := by positivity
    unfold UnpackedFloat.ofScientific
    rw [dif_neg hk, if_neg (by decide), if_neg (by omega), if_pos (by decide)]
    rfl
  have hmodel : (Float.ofNat k).toModel.unpack =
      repacked (UnpackedFloat.ofScientific Format.binary64 k 0) := by
    have hfloat : Float.ofNat k = Float.ofScientific k false 0 := rfl
    rw [hfloat, Float.ofScientific, dif_neg hlarge]
    rfl
  rw [hmodel, hscientific]
  exact isWholeNumber_rounded (by omega) (by omega)

/-- **The value of a whole number** that is not rounded. -/
theorem value_ofNat {k : Nat} (h : k < 2 ^ 53) : value (Float.ofNat k) = k := by
  rcases Nat.eq_zero_or_pos k with rfl | hk
  · exact (value_of_isZero (by decide +kernel)).trans Nat.cast_zero.symm
  · have hlog : k.log2 < 53 := (Nat.log2_lt (Nat.ne_of_gt hk)).mpr h
    have hunit : (2 : ℝ) ^ ((52 - k.log2 : ℕ) : ℤ) * 2 ^ ((k.log2 : ℤ) - 52) = 1 := by
      rw [← zpow_add₀ two_ne_zero, Nat.cast_sub (by omega)]
      norm_num
    rw [value, Binary64.ofFloat_eq, ofNat_eq_toFloat h, unpack_toFloat hk h, Binary64.ofUnpacked, Binary64.value_finite, Binary64.isMinus,
      if_neg Bool.false_ne_true, Nat.cast_mul, Nat.cast_pow, Nat.cast_ofNat, ← zpow_natCast, mul_assoc, hunit,
      mul_one]

/-- **The double of a whole number is whole.** -/
theorem exists_value_ofNat (k : Nat) : ∃ n : ℕ, value (Float.ofNat k) = n := by
  by_cases h : k < 2 ^ 53
  · exact ⟨k, value_ofNat h⟩
  · rw [value, Binary64.ofFloat_eq]
    exact isWholeNumber_ofNat (Nat.le_of_not_lt h)

end Doubles

end Fluxion
