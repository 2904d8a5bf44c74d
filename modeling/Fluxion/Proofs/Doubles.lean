import Fluxion.Numeral
import Mathlib

/-!
# Doubles and their bits

A double is given by its bits, of which all but one pattern for "not a number" are left out. This module
relates the three views of a double: the bits, the unpacked number that the arithmetic of doubles is
defined on, and `Binary64`, the exact number that the library writes down.

* `Binary64.ofFloat_eq`: the exact number of a double is that of its unpacked form.
* `Binary64.ofFloat_ofBits`: the double of a bit pattern is the exact number that the pattern gives.
* `Binary64.ofFloat_injective`: different doubles are different exact numbers.
* `Binary64.proper_ofFloat`: the exact number of a double is in the range of doubles, and has the
  largest mantissa that its exponent allows.
-/

namespace Fluxion

open Float.Model (UnpackedFloat Format)
open Float.Model.UnpackedFloat

namespace Doubles

/-- Sixty-four bits, as the arithmetic of doubles takes them. -/
abbrev Pattern := BitVec Format.binary64.numBits

/-! ## Fields -/

theorem toNat_unpackMantissa (b : Pattern) : (unpackMantissa b).toNat = b.toNat % 2 ^ 52 := by
  simp [unpackMantissa]

theorem toNat_unpackMantissa_lt (b : Pattern) : (unpackMantissa b).toNat < 2 ^ 52 := BitVec.isLt _

theorem toNat_unpackExponent (b : Pattern) :
    (unpackExponent b).toNat = b.toNat / 2 ^ 52 % 2 ^ 11 := by
  simp [unpackExponent, Nat.shiftRight_eq_div_pow]

theorem toNat_unpackSign (b : Pattern) : (unpackSign b).toNat = b.toNat / 2 ^ 63 := by
  have hlt : b.toNat < 2 ^ 64 := b.isLt
  have hsign : (unpackSign b).toNat = (b.extractLsb 63 63).toNat := rfl
  rw [hsign]
  simp [Nat.shiftRight_eq_div_pow]
  omega

theorem toNat_packComponents (s : Sign) (e : BitVec 11) (m : BitVec 52) :
    (packComponents Format.binary64 s e m).toNat =
      s.toBitVec.toNat * 2 ^ 63 + e.toNat * 2 ^ 52 + m.toNat := by
  have he := e.isLt
  have hm := m.isLt
  simp only [packComponents, BitVec.toNat_append]
  rw [← Nat.shiftLeft_add_eq_or_of_lt (by omega), ← Nat.shiftLeft_add_eq_or_of_lt (by omega)]
  simp only [Nat.shiftLeft_eq]
  omega

theorem toBitVec_ofBitVec (b : BitVec 1) : (Sign.ofBitVec b).toBitVec = b := by
  revert b
  decide

/-- A pattern is its three fields. -/
theorem packComponents_unpack (b : Pattern) :
    packComponents Format.binary64 (Sign.ofBitVec (unpackSign b)) (unpackExponent b)
      (unpackMantissa b) = b := by
  apply BitVec.eq_of_toNat_eq
  rw [toNat_packComponents, toBitVec_ofBitVec, toNat_unpackSign, toNat_unpackExponent,
    toNat_unpackMantissa]
  omega

/-- The mantissa with its leading bit. -/
theorem toNat_one_append (m : BitVec 52) : (1#1 ++ m).toNat = 2 ^ 52 + m.toNat := by
  rw [BitVec.toNat_append, ← Nat.shiftLeft_add_eq_or_of_lt m.isLt]
  rfl

theorem ofNat_mantissa (m : BitVec 52) : BitVec.ofNat 52 (2 ^ 52 + m.toNat) = m := by
  apply BitVec.eq_of_toNat_eq
  rw [BitVec.toNat_ofNat, Nat.add_mod_left, Nat.mod_eq_of_lt m.isLt]

/-- The sign of a pattern. -/
def sign (b : Pattern) : Sign := Sign.ofBitVec (unpackSign b)

/-- What a pattern unpacks to, by its fields. -/
inductive Unpacks (b : Pattern) : UnpackedFloat → Prop
  | infinity (top : unpackExponent b = -1#11) (none : unpackMantissa b = 0#52) :
      Unpacks b (.infinity (sign b))
  | nan (top : unpackExponent b = -1#11) (some : unpackMantissa b ≠ 0#52) : Unpacks b .notANumber
  | zero (bottom : unpackExponent b = 0#11) (none : unpackMantissa b = 0#52) :
      Unpacks b (.zero (sign b))
  | subnormal (bottom : unpackExponent b = 0#11) (pos : 0 < (unpackMantissa b).toNat) :
      Unpacks b (.finite (sign b) (unpackMantissa b).toNat (-1074) pos)
  | normal (not_top : (unpackExponent b).toNat < 2047) (not_bottom : 0 < (unpackExponent b).toNat)
      (pos : 0 < 2 ^ 52 + (unpackMantissa b).toNat) :
      Unpacks b (.finite (sign b) (2 ^ 52 + (unpackMantissa b).toNat)
        ((unpackExponent b).toNat - 1075) pos)

theorem unpacks (b : Pattern) : Unpacks b (UnpackedFloat.unpack Format.binary64 b) := by
  have hlt : (unpackExponent b).toNat < 2 ^ 11 := BitVec.isLt _
  unfold UnpackedFloat.unpack
  dsimp only
  split
  · rename_i he
    split
    · rename_i hm
      exact .infinity he hm
    · rename_i hm
      exact .nan he hm
  · rename_i he
    have hne : (unpackExponent b).toNat ≠ 2047 := fun h => he (BitVec.eq_of_toNat_eq h)
    split
    · rename_i he0
      split
      · rename_i hm
        exact .zero he0 hm
      · rename_i hm
        have hpos : (unpackMantissa b).toNat ≠ 0 := fun h => hm (BitVec.eq_of_toNat_eq h)
        have hexponent : ((unpackExponent b).toNat : Int) -
            (Format.binary64.exponentBias + Format.binary64.mantissaBitsWithoutImplicit) + 1 = -1074 := by
          rw [he0]
          rfl
        have h := Unpacks.subnormal he0 (Nat.pos_of_ne_zero hpos)
        rw [← hexponent] at h
        exact h
    · rename_i he0
      have hpos : (unpackExponent b).toNat ≠ 0 := fun h => he0 (BitVec.eq_of_toNat_eq h)
      have hnormal : ∀ m (pos : 0 < m), m = 2 ^ 52 + (unpackMantissa b).toNat →
          Unpacks b (.finite (sign b) m ((unpackExponent b).toNat - 1075) pos) := by
        rintro m pos rfl
        exact .normal (by omega) (by omega) pos
      exact hnormal _ _ (toNat_one_append _)

/-! ## Packing what was unpacked -/

/-- Packing a finite number, in plain figures. -/
theorem pack_finite (s : Sign) (m : Nat) (e : Int) (h : 0 < m) :
    UnpackedFloat.pack Format.binary64 (.finite s m e h) =
      if 2047 ≤ (e + 1075).toNat then packedInfinity Format.binary64 s
      else if m.log2 = 52 then
        packComponents Format.binary64 s (BitVec.ofNat 11 (e + 1075).toNat) (BitVec.ofNat 52 m)
      else packComponents Format.binary64 s 0#11 (BitVec.ofNat 52 m) := by
  have he : e + (1023 : Nat) + (52 : Nat) = e + 1075 := by omega
  unfold UnpackedFloat.pack
  dsimp only
  change (if 2 ^ 11 ≤ (e + (1023 : Nat) + (52 : Nat)).toNat + 1 then _
    else if m.log2 + 1 = 53 then packComponents Format.binary64 s
      (BitVec.ofNat 11 (e + (1023 : Nat) + (52 : Nat)).toNat) _ else _) = _
  rw [he]
  exact if_congr (by omega) rfl (if_congr (by omega) rfl rfl)

/-- **A pattern with at most the one NaN is packed from what it unpacks to.** -/
theorem pack_unpack {b : Pattern} (h : Format.binary64.Valid b) :
    UnpackedFloat.pack Format.binary64 (UnpackedFloat.unpack Format.binary64 b) = b := by
  have hb : packComponents Format.binary64 (sign b) (unpackExponent b) (unpackMantissa b) = b :=
    packComponents_unpack b
  have hmlt := toNat_unpackMantissa_lt b
  have hu := unpacks b
  generalize UnpackedFloat.unpack Format.binary64 b = u at hu
  cases hu with
  | infinity he hm => rwa [he, hm] at hb
  | nan he hm => exact (h.eq_packedNaN he hm).symm
  | zero he hm => rwa [he, hm] at hb
  | subnormal he hpos =>
    have hlog : (unpackMantissa b).toNat.log2 ≠ 52 := by
      have hlt := (Nat.log2_lt (Nat.ne_of_gt hpos)).mpr hmlt
      omega
    rw [pack_finite, if_neg (by decide), if_neg hlog, BitVec.ofNat_toNat, BitVec.setWidth_eq, ← he]
    exact hb
  | normal htop hbottom hpos =>
    have hlog : (2 ^ 52 + (unpackMantissa b).toNat).log2 = 52 :=
      (Nat.log2_eq_iff (by omega)).mpr ⟨by omega, by omega⟩
    have hexponent : ((unpackExponent b).toNat - 1075 + 1075 : Int).toNat =
        (unpackExponent b).toNat := by omega
    rw [pack_finite, hexponent, if_neg (by omega), if_pos hlog, ofNat_mantissa, BitVec.ofNat_toNat,
      BitVec.setWidth_eq]
    exact hb

theorem unpack_pack_unpack (b : Pattern) :
    UnpackedFloat.unpack Format.binary64 (UnpackedFloat.pack Format.binary64
      (UnpackedFloat.unpack Format.binary64 b)) = UnpackedFloat.unpack Format.binary64 b := by
  by_cases h : Format.binary64.Valid b
  · rw [pack_unpack h]
  · have hu := unpacks b
    generalize UnpackedFloat.unpack Format.binary64 b = u at hu
    cases hu with
    | nan => rfl
    | infinity he hm => exact absurd ⟨fun _ hm' => absurd hm hm'⟩ h
    | zero he hm => exact absurd ⟨fun _ hm' => absurd hm hm'⟩ h
    | subnormal he => exact absurd ⟨fun he' => absurd (he.symm.trans he') (by decide)⟩ h
    | normal htop => exact absurd ⟨fun he => absurd (he ▸ htop) (by decide)⟩ h

end Doubles

/-! ## Exact numbers -/

namespace Binary64

open Doubles

/-- Whether a sign is a minus. -/
def isMinus : Sign → Bool
  | .negative => true
  | .positive => false

/-- The exact number of an unpacked one. -/
def ofUnpacked : UnpackedFloat → Binary64
  | .notANumber => nan
  | .infinity s => infinite (isMinus s)
  | .zero s => finite (isMinus s) 0 minExponent
  | .finite s m e _ => finite (isMinus s) m e

theorem isMinus_injective : Function.Injective isMinus := by
  intro s t h
  cases s <;> cases t <;> trivial

theorem ofUnpacked_injective : Function.Injective ofUnpacked := by
  intro u v h
  cases u <;> cases v <;> simp_all [ofUnpacked, isMinus_injective.eq_iff] <;> omega

theorem isMinus_sign (b : Pattern) : isMinus (sign b) = decide (b.toNat / 2 ^ 63 ≠ 0) := by
  rw [← toNat_unpackSign, sign]
  generalize unpackSign b = s
  revert s
  decide

/-- The number with a sign, an exponent field and a fraction. -/
def ofFields (negative : Bool) (field fraction : Nat) : Binary64 :=
  if field = 0x7FF then if fraction = 0 then infinite negative else nan
  else if field = 0 then finite negative fraction minExponent
  else finite negative (fraction + twoTo 52) (field - 1075)

/-- The fields of a pattern, in plain figures. -/
theorem ofBits_eq_ofFields (b : UInt64) :
    ofBits b = ofFields (decide (b.toNat / 2 ^ 63 ≠ 0)) (b.toNat / 2 ^ 52 % 2 ^ 11)
      (b.toNat % 2 ^ 52) := by
  have hexponent : ((b >>> 52) &&& 0x7FF).toNat = b.toNat / 2 ^ 52 % 2 ^ 11 := by
    have hmask : (0x7FF : UInt64).toNat = 2 ^ 11 - 1 := rfl
    rw [UInt64.toNat_and, hmask, Nat.and_two_pow_sub_one_eq_mod, UInt64.toNat_shiftRight,
      Nat.shiftRight_eq_div_pow]
    rfl
  have hfraction : (b &&& 0xFFFFFFFFFFFFF).toNat = b.toNat % 2 ^ 52 := by
    have hmask : (0xFFFFFFFFFFFFF : UInt64).toNat = 2 ^ 52 - 1 := rfl
    rw [UInt64.toNat_and, hmask, Nat.and_two_pow_sub_one_eq_mod]
  have hsign : (b >>> 63 != 0) = decide (b.toNat / 2 ^ 63 ≠ 0) := by
    have hshift : (b >>> 63).toNat = b.toNat / 2 ^ 63 := by
      rw [UInt64.toNat_shiftRight, Nat.shiftRight_eq_div_pow]
      rfl
    rw [← hshift, Bool.eq_iff_iff, bne_iff_ne, decide_eq_true_iff, ne_eq, ne_eq, ← UInt64.toNat_inj]
    rfl
  unfold ofBits
  dsimp only
  rw [hexponent, hfraction, hsign]
  rfl

/-- The exact number of a pattern is read from the same three fields as its unpacked form. -/
theorem ofBits_eq (b : UInt64) :
    ofBits b = ofUnpacked (UnpackedFloat.unpack Format.binary64 b.toBitVec) := by
  rw [ofBits_eq_ofFields, ← UInt64.toNat_toBitVec, ← toNat_unpackExponent, ← toNat_unpackMantissa,
    ← isMinus_sign]
  have hu := unpacks b.toBitVec
  generalize UnpackedFloat.unpack Format.binary64 b.toBitVec = u at hu
  cases hu with
  | infinity he hm => rw [he, hm]; rfl
  | nan he hm =>
    rw [he, ofFields, if_pos (by decide)]
    exact if_neg fun h => hm (BitVec.eq_of_toNat_eq h)
  | zero he hm => rw [he, hm]; rfl
  | subnormal he hpos => rw [he]; rfl
  | normal htop hbottom hpos =>
    rw [ofFields, if_neg (Nat.ne_of_lt htop), if_neg (Nat.ne_of_gt hbottom), Nat.add_comm]
    rfl

theorem ofFloat_eq (x : Float) : ofFloat x = ofUnpacked x.toModel.unpack := ofBits_eq _

theorem ofFloat_ofBits (b : UInt64) : ofFloat (Float.ofBits b) = ofBits b := by
  rw [ofFloat_eq, ofBits_eq]
  exact congrArg ofUnpacked (unpack_pack_unpack b.toBitVec)

theorem ofFloat_injective : Function.Injective ofFloat := by
  intro x y h
  rw [ofFloat_eq, ofFloat_eq, ofUnpacked_injective.eq_iff] at h
  have hpack : ∀ z : Float, UnpackedFloat.pack Format.binary64 z.toModel.unpack = z.toModel.toBits.toBitVec :=
    fun z => pack_unpack z.toModel.valid
  have hbits : x.toModel.toBits = y.toModel.toBits := by
    rw [← UInt64.toBitVec_inj, ← hpack, ← hpack, h]
  rcases x with ⟨⟨bx, hx⟩⟩
  rcases y with ⟨⟨by', hy⟩⟩
  cases hbits
  rfl

/-- The number is in the range of doubles, with the largest mantissa that its exponent allows. -/
def Proper : Binary64 → Prop
  | finite _ m e =>
    minExponent ≤ e ∧ e ≤ maxExponent ∧ m < mantissaBound ∧ (e = minExponent ∨ twoTo 52 ≤ m)
  | _ => True

theorem proper_ofFloat (x : Float) : (ofFloat x).Proper := by
  rw [ofFloat_eq]
  unfold Float.Model.unpack
  have hu := unpacks x.toModel.toBits.toBitVec
  generalize UnpackedFloat.unpack Format.binary64 x.toModel.toBits.toBitVec = u at hu
  cases hu with
  | infinity he hm => trivial
  | nan he hm => trivial
  | zero he hm => exact ⟨by decide, by decide, by decide, .inl rfl⟩
  | subnormal he hpos =>
    have hlt := toNat_unpackMantissa_lt x.toModel.toBits.toBitVec
    exact ⟨by decide, by decide, Nat.lt_trans hlt (by decide), .inl rfl⟩
  | normal htop hbottom hpos =>
    have hlt := toNat_unpackMantissa_lt x.toModel.toBits.toBitVec
    have hbound : mantissaBound = 2 ^ 53 := rfl
    have htwo : twoTo 52 = 2 ^ 52 := rfl
    refine ⟨?_, ?_, ?_, .inr ?_⟩ <;> simp only [minExponent, maxExponent, hbound, htwo] <;> omega

/-! ## Signs -/

/-- The number with the sign given. -/
def withSign (negative : Bool) : Binary64 → Binary64
  | nan => nan
  | infinite _ => infinite negative
  | finite _ m e => finite negative m e

/-- Whether the number is a zero. -/
def isZero : Binary64 → Bool
  | finite _ m _ => m == 0
  | _ => false

/-- Whether the number is below zero. -/
def isNegative : Binary64 → Bool
  | nan => false
  | infinite negative => negative
  | finite negative m _ => negative && m != 0

variable (x : Float)

theorem isNaN_eq : x.isNaN = decide (ofFloat x = nan) := by
  have hmodel : x.isNaN = x.toModel.unpack.isNaN := rfl
  rw [hmodel, ofFloat_eq]
  cases x.toModel.unpack <;> rfl

theorem beq_zero : (x == 0.0) = (ofFloat x).isZero := by
  have hmodel : (x == 0.0) = x.toModel.unpack.beq (.zero .positive) := rfl
  rw [hmodel, ofFloat_eq]
  cases x.toModel.unpack with
  | notANumber => rfl
  | infinity s => cases s <;> rfl
  | zero s => rfl
  | finite s m e hm =>
    have hne : (m == 0) = false := beq_eq_false_iff_ne.mpr (Nat.ne_of_gt hm)
    rw [ofUnpacked, isZero, hne]
    cases s <;> rfl

theorem ofFloat_zero : ofFloat 0.0 = .finite false 0 minExponent := by decide +kernel

/-- There are two zeros. -/
theorem eq_zero_of_beq {x : Float} (h : (x == 0.0) = true) : x = 0.0 ∨ x = -0.0 := by
  have hproper := proper_ofFloat x
  have hminus : ofFloat (-0.0) = .finite true 0 minExponent := by decide +kernel
  rw [beq_zero] at h
  cases hx : ofFloat x with
  | nan => rw [hx] at h; cases h
  | infinite negative => rw [hx] at h; cases h
  | finite negative m e =>
    rw [hx] at h hproper
    have hm : m = 0 := eq_of_beq h
    rw [hm] at hproper hx
    have he : e = minExponent := hproper.2.2.2.resolve_right (by decide)
    rw [he] at hx
    cases negative with
    | false => exact .inl (ofFloat_injective (hx.trans ofFloat_zero.symm))
    | true => exact .inr (ofFloat_injective (hx.trans hminus.symm))

theorem lt_zero_iff : x < 0.0 ↔ (ofFloat x).isNegative = true := by
  have hmodel : x < 0.0 ↔ x.toModel.unpack.lt (.zero .positive) = true := decide_eq_true_iff
  rw [hmodel, ofFloat_eq]
  cases x.toModel.unpack with
  | notANumber => rfl
  | infinity s => cases s <;> decide
  | zero s => cases s <;> decide
  | finite s m e hm =>
    have hne : (m != 0) = true := bne_iff_ne.mpr (Nat.ne_of_gt hm)
    rw [ofUnpacked, isNegative, hne, Bool.and_true]
    cases s with
    | negative => exact iff_of_true rfl rfl
    | positive => exact iff_of_false Bool.false_ne_true Bool.false_ne_true

/-- Without its sign bit, a pattern has the same exponent and the same fraction. -/
theorem unpack_pack_abs (b : Pattern) :
    UnpackedFloat.unpack Format.binary64 (UnpackedFloat.pack Format.binary64
      (UnpackedFloat.unpack Format.binary64 b).abs) = (UnpackedFloat.unpack Format.binary64 b).abs := by
  have hm := toNat_unpackMantissa_lt b
  have he : (unpackExponent b).toNat < 2 ^ 11 := BitVec.isLt _
  obtain ⟨b', hb'⟩ : ∃ b', b' = packComponents Format.binary64 .positive (unpackExponent b) (unpackMantissa b) :=
    ⟨_, rfl⟩
  have hnat : b'.toNat = (unpackExponent b).toNat * 2 ^ 52 + (unpackMantissa b).toNat := by
    rw [hb', toNat_packComponents]
    simp [Sign.toBitVec]
  have hmantissa : unpackMantissa b' = unpackMantissa b := by
    apply BitVec.eq_of_toNat_eq
    rw [toNat_unpackMantissa, hnat]
    omega
  have hexponent : unpackExponent b' = unpackExponent b := by
    apply BitVec.eq_of_toNat_eq
    rw [toNat_unpackExponent, hnat]
    omega
  have hsign : unpackSign b' = 0#1 := by
    apply BitVec.eq_of_toNat_eq
    rw [toNat_unpackSign, hnat, BitVec.toNat_ofNat]
    omega
  have habs : (UnpackedFloat.unpack Format.binary64 b).abs = UnpackedFloat.unpack Format.binary64 b' := by
    unfold UnpackedFloat.unpack
    dsimp only
    simp only [hmantissa, hexponent, hsign]
    repeat' split
    all_goals rfl
  rw [habs, unpack_pack_unpack]

theorem ofFloat_abs : ofFloat x.abs = (ofFloat x).withSign false := by
  have hmodel : x.abs.toModel.unpack = x.toModel.unpack.abs := unpack_pack_abs _
  rw [ofFloat_eq, ofFloat_eq, hmodel]
  cases x.toModel.unpack <;> rfl

end Binary64

end Fluxion
