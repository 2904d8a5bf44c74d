import Fluxion.Proofs.DoubleValues

/-!
# Comparing doubles

Two doubles that have a value are compared by class first, from minus infinity over the negative
numbers, the zeros and the positive numbers to infinity, then by exponent and then by mantissa; below
zero the other way round. `rank` puts these three into one triple, so that the order of doubles is the
lexicographic order of the triples. Its laws come from there.

A difference taken the other way round has the same absolute value: it is rounded from the same
mantissa and the same exponent, and rounding does not look at the sign.

* `Doubles.compare_eq`: the comparison of doubles is that of their ranks.
* `Doubles.beq_iff`: equal doubles have a value, and are the same or both zeros.
* `Doubles.lt_of_lt_of_le`: a double below another is below all that are not smaller.
* `Doubles.abs_sub_comm`: the distance of two doubles is the same either way.
-/

namespace Fluxion

open Float.Model (UnpackedFloat Format)
open Float.Model.UnpackedFloat

namespace Doubles

variable {u v : UnpackedFloat} {x y z : Float}

/-! ## Ranks -/

/-- The class, the exponent and the mantissa of a number, with its sign. -/
def rank : UnpackedFloat → Int × Int × Int
  | .notANumber => (0, 0, 0)
  | .infinity s => (s.apply 2, 0, 0)
  | .zero _ => (0, 0, 0)
  | .finite s m e _ => (s.apply 1, s.apply e, s.apply m)

/-- The lexicographic order of ranks. -/
def compareRanks : Int × Int × Int → Int × Int × Int → Ordering :=
  compareLex (compareOn (·.1)) (compareLex (compareOn (·.2.1)) (compareOn (·.2.2)))

instance : Std.TransCmp compareRanks :=
  inferInstanceAs (Std.TransCmp (compareLex _ _))

theorem compareRanks_mk (a b c a' b' c' : Int) : compareRanks (a, b, c) (a', b', c') =
    (compare a a').then ((compare b b').then (compare c c')) := rfl

theorem compareRanks_self (r : Int × Int × Int) : compareRanks r r = .eq := Std.ReflCmp.compare_self

theorem eq_of_compareRanks {r r' : Int × Int × Int} (h : compareRanks r r' = .eq) : r = r' := by
  obtain ⟨a, b, c⟩ := r
  obtain ⟨a', b', c'⟩ := r'
  rw [compareRanks_mk, Ordering.then_eq_eq, Ordering.then_eq_eq] at h
  obtain ⟨ha, hb, hc⟩ := h
  rw [compare_eq_iff_eq.mp ha, compare_eq_iff_eq.mp hb, compare_eq_iff_eq.mp hc]

/-- Below zero the order is turned round. -/
theorem compare_neg (a b : Int) : compare (-a) (-b) = (compare a b).swap := by
  rw [← Std.OrientedOrd.eq_swap]
  rcases lt_trichotomy b a with h | h | h
  · rw [compare_lt_iff_lt.mpr h, compare_lt_iff_lt.mpr (neg_lt_neg h)]
  · rw [h, Std.ReflOrd.compare_self, Std.ReflOrd.compare_self]
  · rw [compare_gt_iff_gt.mpr h, compare_gt_iff_gt.mpr (neg_lt_neg h)]

theorem compare_cast (a b : Nat) : compare (a : Int) (b : Int) = compare a b := by
  rcases lt_trichotomy a b with h | h | h
  · rw [compare_lt_iff_lt.mpr h, compare_lt_iff_lt.mpr (Int.ofNat_lt.mpr h)]
  · rw [h, Std.ReflOrd.compare_self, Std.ReflOrd.compare_self]
  · rw [compare_gt_iff_gt.mpr h, compare_gt_iff_gt.mpr (Int.ofNat_lt.mpr h)]

/-- **The comparison of doubles is that of their ranks.** -/
theorem compare_eq (hu : u ≠ .notANumber) (hv : v ≠ .notANumber) :
    u.compare v = some (compareRanks (rank u) (rank v)) := by
  cases u with
  | notANumber => exact absurd rfl hu
  | infinity s =>
    cases v with
    | notANumber => exact absurd rfl hv
    | infinity t => cases s <;> cases t <;> rfl
    | zero t => cases s <;> rfl
    | finite t n d hn => cases s <;> cases t <;> rfl
  | zero s =>
    cases v with
    | notANumber => exact absurd rfl hv
    | infinity t => cases t <;> rfl
    | zero t => rfl
    | finite t n d hn => cases t <;> rfl
  | finite s m e hm =>
    cases v with
    | notANumber => exact absurd rfl hv
    | infinity t => cases s <;> cases t <;> rfl
    | zero t => cases s <;> rfl
    | finite t n d hn =>
      rw [rank, rank, compareRanks_mk]
      cases s with
      | negative =>
        cases t with
        | negative =>
          have h : ((compare e d).then (compare m n)).swap =
              (compare (-e) (-d)).then (compare (-(m : Int)) (-(n : Int))) := by
            rw [compare_neg, compare_neg, compare_cast, Ordering.swap_then]
          exact congrArg some h
        | positive => rfl
      | positive =>
        cases t with
        | negative => rfl
        | positive =>
          have h : (compare e d).then (compare m n) =
              (compare e d).then (compare (m : Int) (n : Int)) := by
            rw [compare_cast]
          exact congrArg some h

theorem ne_nan_of_compare {o : Ordering} (h : u.compare v = some o) :
    u ≠ .notANumber ∧ v ≠ .notANumber := by
  constructor
  · rintro rfl
    cases h
  · rintro rfl
    cases u <;> cases h

/-- The sign and the size of what a sign is put before. -/
theorem apply_eq_iff (s t : Sign) {m n : Nat} (hm : 0 < m) :
    s.apply m = t.apply n ↔ s = t ∧ m = n := by
  cases s <;> cases t <;> simp [Sign.apply] <;> omega

/-- Only the two zeros share a rank. -/
theorem eq_or_zero_of_rank (hu : u ≠ .notANumber) (hv : v ≠ .notANumber) (h : rank u = rank v) :
    u = v ∨ (∃ s, u = .zero s) ∧ ∃ s, v = .zero s := by
  have hclass := congrArg (·.1) h
  cases u with
  | notANumber => exact absurd rfl hu
  | infinity s =>
    cases v with
    | notANumber => exact absurd rfl hv
    | infinity t => cases s <;> cases t <;> first | exact .inl rfl | cases hclass
    | zero t => cases s <;> cases hclass
    | finite t n d hn => cases s <;> cases t <;> cases hclass
  | zero s =>
    cases v with
    | notANumber => exact absurd rfl hv
    | infinity t => cases t <;> cases hclass
    | zero t => exact .inr ⟨⟨s, rfl⟩, t, rfl⟩
    | finite t n d hn => cases t <;> cases hclass
  | finite s m e hm =>
    cases v with
    | notANumber => exact absurd rfl hv
    | infinity t => cases s <;> cases t <;> cases hclass
    | zero t => cases s <;> cases hclass
    | finite t n d hn =>
      obtain ⟨rfl, rfl⟩ := (apply_eq_iff s t hm).mp (congrArg (·.2.2) h)
      have he : s.apply e = s.apply d := congrArg (·.2.1) h
      obtain rfl : e = d := by cases s <;> simp only [Sign.apply] at he <;> omega
      exact .inl rfl

/-! ## Equality and order -/

theorem beq_eq (x y : Float) : (x == y) = x.toModel.unpack.beq y.toModel.unpack := rfl

theorem lt_iff : x < y ↔ x.toModel.unpack.lt y.toModel.unpack = true := decide_eq_true_iff

theorem le_iff : x ≤ y ↔ x.toModel.unpack.le y.toModel.unpack = true := decide_eq_true_iff

theorem unpack_injective (h : x.toModel.unpack = y.toModel.unpack) : x = y :=
  Binary64.ofFloat_injective (by rw [Binary64.ofFloat_eq, Binary64.ofFloat_eq, h])

theorem isZero_of_unpack {s : Sign} (h : x.toModel.unpack = .zero s) : (x == 0.0) = true := by
  rw [Binary64.beq_zero, Binary64.ofFloat_eq, h]
  rfl

/-- **Equal doubles have a value, and are the same or both zeros.** -/
theorem beq_iff : (x == y) = true ↔
    x.isNaN = false ∧ y.isNaN = false ∧ (x = y ∨ (x == 0.0) = true ∧ (y == 0.0) = true) := by
  rw [beq_eq, UnpackedFloat.beq, beq_iff_eq, ← Bool.not_eq_true, ← Bool.not_eq_true, isNaN_iff, isNaN_iff]
  constructor
  · intro h
    obtain ⟨hx, hy⟩ := ne_nan_of_compare h
    rw [compare_eq hx hy, Option.some.injEq] at h
    refine ⟨hx, hy, ?_⟩
    rcases eq_or_zero_of_rank hx hy (eq_of_compareRanks h) with heq | ⟨⟨s, hs⟩, t, ht⟩
    · exact .inl (unpack_injective heq)
    · exact .inr ⟨isZero_of_unpack hs, isZero_of_unpack ht⟩
  · rintro ⟨hx, hy, rfl | ⟨hx', hy'⟩⟩
    · rw [compare_eq hx hx, compareRanks_self]
    · rw [beq_eq, UnpackedFloat.beq, beq_iff_eq] at hx' hy'
      obtain ⟨-, hzero⟩ := ne_nan_of_compare hx'
      rw [compare_eq hx hzero, Option.some.injEq] at hx'
      rw [compare_eq hy hzero, Option.some.injEq] at hy'
      rw [compare_eq hx hy, eq_of_compareRanks hx', ← eq_of_compareRanks hy', compareRanks_self]

/-- **A double below another is below all that are not smaller.** -/
theorem lt_of_lt_of_le (hxy : x < y) (hyz : y ≤ z) : x < z := by
  rw [lt_iff, UnpackedFloat.lt, beq_iff_eq] at *
  rw [le_iff, UnpackedFloat.le, Option.any_eq_true] at hyz
  obtain ⟨o, ho, hle⟩ := hyz
  obtain ⟨hx, hy⟩ := ne_nan_of_compare hxy
  obtain ⟨-, hz⟩ := ne_nan_of_compare ho
  rw [compare_eq hx hy, Option.some.injEq] at hxy
  rw [compare_eq hy hz, Option.some.injEq] at ho
  rw [compare_eq hx hz, Option.some.injEq]
  exact Std.TransCmp.lt_of_lt_of_isLE hxy (ho ▸ hle)

theorem not_abs_lt_zero : ¬x.abs < 0.0 := by
  rw [Binary64.lt_zero_iff, Binary64.ofFloat_abs]
  cases Binary64.ofFloat x <;> simp [Binary64.withSign, Binary64.isNegative]

/-! ## Distances -/

/-- Two patterns with the same fields but for the sign stand for numbers of the same size. -/
theorem abs_unpack_congr {b b' : Pattern} (he : unpackExponent b = unpackExponent b')
    (hm : unpackMantissa b = unpackMantissa b') :
    (UnpackedFloat.unpack Format.binary64 b).abs = (UnpackedFloat.unpack Format.binary64 b').abs := by
  unfold UnpackedFloat.unpack
  dsimp only
  simp only [he, hm]
  repeat' split
  all_goals rfl

/-- Numbers of the same size have the same size after they were packed. -/
theorem abs_repacked_congr (h : u.abs = v.abs) : (repacked u).abs = (repacked v).abs := by
  cases u with
  | notANumber =>
    cases v with
    | notANumber => rfl
    | _ => cases h
  | infinity s =>
    cases v with
    | infinity t => rw [repacked_infinity, repacked_infinity]; rfl
    | _ => cases h
  | zero s =>
    cases v with
    | zero t => rw [repacked_zero, repacked_zero]; rfl
    | _ => cases h
  | finite s m e hm =>
    cases v with
    | finite t n d hn =>
      cases h
      -- The sign goes into its own field.
      refine abs_unpack_congr ?_ ?_ <;> rw [pack_finite, pack_finite]
      · split_ifs <;> simp only [packedInfinity, unpackExponent_packComponents]
      · split_ifs <;> simp only [packedInfinity, unpackMantissa_packComponents]
    | _ => cases h

theorem abs_round (s : Sign) (m : Nat) (e : Int) :
    (UnpackedFloat.round Format.binary64 s m e).abs =
      (UnpackedFloat.round Format.binary64 .positive m e).abs := by
  unfold UnpackedFloat.round roundWithAccuracy
  dsimp only
  split <;> rfl

/-- The number with the mantissa turned round has the same size. -/
theorem abs_normalize_neg (k : Int) (e : Int) :
    (UnpackedFloat.normalize Format.binary64 (-k) e .positive).abs =
      (UnpackedFloat.normalize Format.binary64 k e .positive).abs := by
  unfold UnpackedFloat.normalize
  have h : compare (-k) 0 = (compare k 0).swap := compare_neg k 0
  rw [h]
  cases compare k 0 with
  | lt => exact (abs_round _ _ _).symm
  | eq => rfl
  | gt =>
    rw [neg_neg]
    exact abs_round _ _ _

theorem abs_sub (u v : UnpackedFloat) :
    (u.sub Format.binary64 v).abs = (v.sub Format.binary64 u).abs := by
  cases u with
  | notANumber => cases v <;> rfl
  | infinity s =>
    cases v with
    | infinity t => cases s <;> cases t <;> rfl
    | _ => rfl
  | zero s =>
    cases v with
    | zero t => cases s <;> cases t <;> rfl
    | _ => rfl
  | finite s m e hm =>
    cases v with
    | finite t n d hn =>
      unfold UnpackedFloat.sub
      dsimp only
      rw [min_comm d e, ← abs_normalize_neg, neg_sub]
    | _ => rfl

theorem unpack_sub (x y : Float) :
    (x - y).toModel.unpack = repacked (x.toModel.unpack.sub Format.binary64 y.toModel.unpack) := rfl

/-- **The distance of two doubles is the same either way.** -/
theorem abs_sub_comm (x y : Float) : (x - y).abs = (y - x).abs := by
  have hmodel : ∀ z : Float, z.abs.toModel.unpack = z.toModel.unpack.abs := fun _ =>
    Binary64.unpack_pack_abs _
  refine unpack_injective ?_
  rw [hmodel, hmodel, unpack_sub, unpack_sub]
  exact abs_repacked_congr (abs_sub _ _)

end Doubles

end Fluxion
