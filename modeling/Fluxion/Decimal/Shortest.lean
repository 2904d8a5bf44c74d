import Fluxion.Decimal.Binary64

/-!
# Shortest decimals

Every finite double is the nearest double to a whole interval of reals. The shortest decimal of a
double is the decimal in that interval with the fewest digits and, among those, the one nearest to
the double, an exact tie going to the even last digit.

* `Shortest.ofBinary` is that decimal for a positive double `mantissa · 2 ^ exponent`.
* `Shortest.rounded` is the nearest decimal with a given number of digits, for a fixed precision.

Both work on exact natural numbers: for a grid of decimals `10 ^ k` apart, the only candidates are
the two grid points around the value.
-/

namespace Fluxion

namespace Shortest

/-- The power of ten of the leading digit of `n / d`, for positive `n` and `d`. -/
def leadingPower (n d : Nat) : Int :=
  if d ≤ n then ((Nat.toDigits 10 (n / d)).length : Int) - 1
  else
    let places := (Nat.toDigits 10 (d / n)).length
    if d ≤ n * tenTo (places - 1) then 1 - (places : Int) else -(places : Int)

/-- A positive double with its rounding interval, all three in quarters of its last place. -/
structure Interval where
  low : Nat
  value : Nat
  high : Nat
  closed : Bool
  exponent : Int
deriving Repr

/-- The rounding interval of `mantissa · 2 ^ exponent`. It reaches half a place to either side, but
only a quarter below a power of two, where the doubles become denser; its ends belong to it when
the mantissa is even. -/
def Interval.ofBinary (mantissa : Nat) (exponent : Int) : Interval :=
  let narrow := mantissa = twoTo 52 && Binary64.minExponent < exponent
  { low := 4 * mantissa - (if narrow then 1 else 2)
    value := 4 * mantissa
    high := 4 * mantissa + 2
    closed := mantissa % 2 = 0
    exponent := exponent - 2 }

/-- Whether the point `p` of a grid lies in the interval, for an interval and a grid scaled to
whole numbers by `a` and `b`. -/
def Interval.holds (i : Interval) (a b p : Nat) : Bool :=
  if i.closed then i.low * a ≤ p * b && p * b ≤ i.high * a
  else i.low * a < p * b && p * b < i.high * a

/-- Of the two points around the value on the grid of step `10 ^ k`, the one in the interval; of
two such points the nearer, and of two equally near ones the even. -/
def Interval.pick? (i : Interval) (k : Int) : Option Nat :=
  let a := twoTo i.exponent.toNat * tenTo (-k).toNat
  let b := twoTo (-i.exponent).toNat * tenTo k.toNat
  let below := i.value * a / b
  let above := below + 1
  match i.holds a b below, i.holds a b above with
  | false, false => none
  | true, false => some below
  | false, true => some above
  | true, true =>
    let gapBelow := i.value * a - below * b
    let gapAbove := above * b - i.value * a
    if gapBelow < gapAbove then some below
    else if gapAbove < gapBelow then some above
    else if below % 2 = 0 then some below else some above

/-- A positive double as a quotient of whole numbers. -/
def quotient (mantissa : Nat) (exponent : Int) : Nat × Nat :=
  (mantissa * twoTo exponent.toNat, twoTo (-exponent).toNat)

/-- The shortest decimal of the positive double `mantissa · 2 ^ exponent`. Seventeen digits always
suffice. -/
def ofBinary (mantissa : Nat) (exponent : Int) : Decimal :=
  let i := Interval.ofBinary mantissa exponent
  let (n, d) := quotient mantissa exponent
  let top := leadingPower n d
  let found := (List.range 17).findSome? fun (places : Nat) =>
    let k := top - places
    (i.pick? k).map fun p => Decimal.mk p k
  (found.getD ⟨mantissa, 0⟩).lowest

/-- The nearest decimal with `places` digits to the positive double `mantissa · 2 ^ exponent`, a tie
going to the even last digit. -/
def rounded (places : Nat) (mantissa : Nat) (exponent : Int) : Decimal :=
  let (n, d) := quotient mantissa exponent
  let k := leadingPower n d - (places - 1)
  Decimal.lowest ⟨Binary64.roundDiv (n * tenTo (-k).toNat) (d * tenTo k.toNat), k⟩

end Shortest

end Fluxion
