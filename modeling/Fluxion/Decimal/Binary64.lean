import Fluxion.Decimal.Basic

/-!
# Doubles as exact numbers

A finite double is a signed integer times a power of two. This module takes a double apart into
those numbers and rounds an exact quotient to the nearest double, a tie going to the double with
the even mantissa.

* `Binary64.ofFloat` classifies a double and gives the exact magnitude of a finite one.
* `Binary64.nearestBits` is the bit pattern of the nearest non-negative double to a quotient.
* `Binary64.ofDecimal` is the nearest double to a decimal.
-/

namespace Fluxion

/-- The natural number two to the `n`. -/
def twoTo (n : Nat) : Nat := Nat.pow 2 n

/-- What a double is: not a number, an infinity, or `mantissa · 2 ^ exponent` with a sign. -/
inductive Binary64 where
  | nan
  | infinite (negative : Bool)
  | finite (negative : Bool) (mantissa : Nat) (exponent : Int)
deriving Repr, DecidableEq

namespace Binary64

/-- The smallest exponent of a double, shared by zero and the subnormal numbers. -/
def minExponent : Int := -1074

/-- The largest exponent of a double. -/
def maxExponent : Int := 971

/-- One more than the largest mantissa. -/
def mantissaBound : Nat := twoTo 53

/-- The double of a bit pattern, taken apart. -/
def ofBits (bits : UInt64) : Binary64 :=
  let negative := bits >>> 63 != 0
  let field := ((bits >>> 52) &&& 0x7FF).toNat
  let fraction := (bits &&& 0xFFFFFFFFFFFFF).toNat
  if field = 0x7FF then
    if fraction = 0 then infinite negative else nan
  else if field = 0 then finite negative fraction minExponent
  else finite negative (fraction + twoTo 52) (field - 1075)

/-- A double, taken apart. -/
def ofFloat (x : Float) : Binary64 := ofBits x.toBits

/-- The quotient `n / d` rounded to a whole number, a tie going to the even one. -/
def roundDiv (n d : Nat) : Nat :=
  let q := n / d
  let r := n % d
  if 2 * r < d then q
  else if d < 2 * r then q + 1
  else if q % 2 = 0 then q else q + 1

/-- `n / d` in units of `2 ^ e`, as a quotient. -/
def inUnits (n d : Nat) (e : Int) : Nat × Nat :=
  (n * twoTo (-e).toNat, d * twoTo e.toNat)

/-- The exponent at which the nearest double to `n / d` has its mantissa: the largest that keeps
53 bits of it, and at least the smallest exponent there is. -/
def exponentFor (n d : Nat) : Int :=
  let e : Int := (n.log2 : Int) - d.log2 - 52
  let (p, q) := inUnits n d e
  let e := if p < q * twoTo 52 then e - 1 else e
  max e minExponent

/-- A mantissa and its exponent, where rounding may have made the mantissa one bit too long. -/
def carry (mantissa : Nat) (exponent : Int) : Nat × Int :=
  if mantissa = mantissaBound then (twoTo 52, exponent + 1) else (mantissa, exponent)

/-- The bit pattern of `mantissa · 2 ^ exponent`, or of the infinity if the exponent is too large. -/
def bits (mantissa : Nat) (exponent : Int) : UInt64 :=
  if maxExponent < exponent then 0x7FF0000000000000
  else if mantissa < twoTo 52 then mantissa.toUInt64
  else (((exponent + 1075).toNat <<< 52) + (mantissa - twoTo 52)).toUInt64

/-- The bit pattern of the nearest double to `n / d`. -/
def nearestBits (n d : Nat) : UInt64 :=
  if n = 0 then 0
  else
    let e := exponentFor n d
    let units := inUnits n d e
    let rounded := carry (roundDiv units.1 units.2) e
    bits rounded.1 rounded.2

/-- The bit of the sign. -/
def signBit (negative : Bool) : UInt64 := if negative then 0x8000000000000000 else 0

/-- Beyond this power of ten every decimal overflows, and below its negative every one vanishes. -/
def decimalReach : Int := 400

/-- The nearest double to a signed decimal. -/
def ofDecimal (negative : Bool) (d : Decimal) : Float :=
  let bits :=
    if d.digits = 0 || d.magnitude < -decimalReach then 0
    else if decimalReach < d.magnitude then 0x7FF0000000000000
    else nearestBits (d.digits * tenTo d.exponent.toNat) (tenTo (-d.exponent).toNat)
  Float.ofBits (bits ||| signBit negative)

end Binary64

end Fluxion
