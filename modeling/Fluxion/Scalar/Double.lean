import Fluxion.Numeral
import Fluxion.Scalar.Basic

/-!
# Doubles as scalars

The scalars of the running library. The threshold below which a denominator counts as zero is
`10 ^ -10`. An exponent is whole when it is a whole number that a signed 64-bit word can hold: a
negative base to any other power has no value.
-/

namespace Fluxion

/-- Whether a double is a whole number within the signed 64-bit words. -/
def isWholeWord (x : Float) : Bool :=
  x.floor == x && (-9223372036854775808.0 : Float) ≤ x && x < (9223372036854775808.0 : Float)

instance : Scalar Float where
  ofNat := Float.ofNat
  half := 0.5
  minusOne := -1.0
  pred x := x - 1.0
  nan := Float.ofBits 0x7FF8000000000000
  threshold := 1e-10
  quarterTurn := 1.5707963267948966
  add := (· + ·)
  sub := (· - ·)
  mul := (· * ·)
  div := (· / ·)
  pow := Float.pow
  abs := Float.abs
  log := Float.log
  sin := Float.sin
  cos := Float.cos
  tan := Float.tan
  sinh := Float.sinh
  cosh := Float.cosh
  arcsin := Float.asin
  arccos := Float.acos
  arctan := Float.atan
  arsinh := Float.asinh
  arccosh := Float.acosh
  artanh := Float.atanh
  isNaN := Float.isNaN
  isFinite := Float.isFinite
  isWhole := isWholeWord
  eq := (· == ·)
  lt x y := x < y
  le x y := x ≤ y

end Fluxion
