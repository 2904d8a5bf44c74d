import Fluxion.Operation
import Fluxion.Scalar.Basic

/-!
# Kernels

A kernel says what an operation computes. The guarded kernel is the one that evaluation uses: an
argument outside the domain of an operation gives `nan`, a denominator closer to zero than the
threshold counts as zero, and `nan` is passed on by every operation. The bare kernel applies the
elementary functions without guards and takes the inverse cotangent odd, as `arctan (1 / x)`; it is
the yardstick against which a derivative is compared.

* `Kernel.guarded` and `Kernel.bare` are the two kernels.
-/

namespace Fluxion

/-- The meaning of the operations of one and of two arguments. -/
structure Kernel (κ : Type) where
  binary : Operation → κ → κ → κ
  unary : Operation → κ → κ

namespace Kernel

variable {κ : Type} [Scalar κ]

open Scalar

/-- The guarded quotient. -/
def divide (l r : κ) : κ := if lt (abs r) threshold then nan else div l r

/-- The guarded power: a negative base needs a whole exponent, and zero has no negative power. -/
def power (l r : κ) : κ :=
  if isNaN l || isNaN r then nan
  else if lt l zero && !isWhole r then nan
  else if eq l zero && lt r zero then nan
  else pow l r

/-- The guarded logarithm of `r` to the base `l`: both are positive and the base is not one. -/
def logarithm (l r : κ) : κ :=
  if le l zero || le r zero || lt (abs (sub l one)) threshold then nan
  else div (log r) (log l)

/-- The guarded meaning of an operation of two arguments. -/
def guardedBinary : Operation → κ → κ → κ
  | .add, l, r => add l r
  | .sub, l, r => sub l r
  | .mul, l, r => mul l r
  | .div, l, r => divide l r
  | .pow, l, r => power l r
  | .log, l, r => logarithm l r
  | _, _, _ => nan

/-- The value `f x` where `inside` holds and `nan` elsewhere. -/
def onDomain (inside : Bool) (value : κ) : κ := if inside then value else nan

/-- The guarded meaning of an operation of one argument, at a number. -/
def guardedFunction : Operation → κ → κ
  | .sin, x => sin x
  | .cos, x => cos x
  | .tan, x => tan x
  | .cot, x => onDomain (!lt (abs (tan x)) threshold) (div one (tan x))
  | .sinh, x => sinh x
  | .cosh, x => cosh x
  | .arcsin, x =>
    onDomain (!(lt x Coefficient.minusOne || lt one x)) (arcsin x)
  | .arccos, x =>
    onDomain (!(lt x Coefficient.minusOne || lt one x)) (arccos x)
  | .arctan, x => arctan x
  | .arccot, x => sub quarterTurn (arctan x)
  | .arsinh, x => arsinh x
  | .arccosh, x => onDomain (!lt x one) (arccosh x)
  | .artanh, x =>
    onDomain (!(le x Coefficient.minusOne || le one x)) (artanh x)
  | .ln, x => onDomain (!le x zero) (log x)
  | _, _ => nan

/-- The guarded meaning of an operation of one argument. -/
def guardedUnary (op : Operation) (x : κ) : κ := if isNaN x then nan else guardedFunction op x

/-- The kernel of evaluation. -/
def guarded : Kernel κ := ⟨guardedBinary, guardedUnary⟩

/-- The unguarded meaning of an operation of two arguments. -/
def bareBinary : Operation → κ → κ → κ
  | .add, l, r => add l r
  | .sub, l, r => sub l r
  | .mul, l, r => mul l r
  | .div, l, r => div l r
  | .pow, l, r => pow l r
  | .log, l, r => div (log r) (log l)
  | _, _, _ => nan

/-- The unguarded meaning of an operation of one argument. -/
def bareUnary : Operation → κ → κ
  | .sin, x => sin x
  | .cos, x => cos x
  | .tan, x => tan x
  | .cot, x => div one (tan x)
  | .sinh, x => sinh x
  | .cosh, x => cosh x
  | .arcsin, x => arcsin x
  | .arccos, x => arccos x
  | .arctan, x => arctan x
  | .arccot, x => arctan (div one x)
  | .arsinh, x => arsinh x
  | .arccosh, x => arccosh x
  | .artanh, x => artanh x
  | .ln, x => log x
  | _, _ => nan

/-- The kernel of comparisons. -/
def bare : Kernel κ := ⟨bareBinary, bareUnary⟩

end Kernel

end Fluxion
