import Fluxion.Scalar.Basic
import Fluxion.Tree.Basic

/-!
# Rules of differentiation

The derivative of an operation is put together from its operands and from their derivatives. How, is
told by a recipe, which is plain data: the same recipe is followed on trees and in a store.

A power has three rules: with a literal exponent, with a literal base, and the general one. The
first two need the derivative of the other operand only.

* `Recipe` is the type of recipes over the operands `ι`, and `Recipe.fill` follows one on trees.
* `Recipe.ofFunction` are the rules for functions of one argument.
* `Plan.ofOperation` are the rules for operations of two arguments.
-/

namespace Fluxion

/-- How a derivative is put together from operands `ι`. Recipes are followed from the left to the
right and inner parts before outer ones, except where they say otherwise. -/
inductive Recipe (κ ι : Type) where
  /-- A constant. -/
  | literal (value : κ)
  /-- A copy of an operand. -/
  | operand (i : ι)
  /-- The derivative of an operand. -/
  | derivative (i : ι)
  /-- An operation of two arguments. -/
  | binary (op : Operation) (left right : Recipe κ ι)
  /-- An operation of two arguments, the right one followed before the left one. -/
  | backward (op : Operation) (left right : Recipe κ ι)
  /-- An operation of one argument. -/
  | unary (op : Operation) (argument : Recipe κ ι)
deriving Repr

/-- The operands of an operation of two arguments. -/
inductive Side where
  | left
  | right
deriving Repr, DecidableEq

/-- One of two things. -/
def Side.pick {α : Type} (l r : α) : Side → α
  | left => l
  | right => r

namespace Recipe

variable {κ ι : Type}

/-- Follows a recipe on trees, given the operands and their derivatives. -/
def fill (u du : ι → Tree κ) : Recipe κ ι → Tree κ
  | literal c => .literal c
  | operand i => u i
  | derivative i => du i
  | binary op a b => .apply₂ op (a.fill u du) (b.fill u du)
  | backward op a b => .apply₂ op (a.fill u du) (b.fill u du)
  | unary op a => .apply₁ op (a.fill u du)

variable [Coefficient κ]

/-! ## Parts of rules -/

/-- A whole number. -/
def whole (n : Nat) : Recipe κ ι := literal (Coefficient.ofNat n)

/-- The square. -/
def square (q : Recipe κ ι) : Recipe κ ι := binary .pow q (whole 2)

/-- The square root, as a power. -/
def root (q : Recipe κ ι) : Recipe κ ι := binary .pow q (literal Coefficient.half)

/-- The opposite; what is turned comes before the factor that turns it. -/
def negated (q : Recipe κ ι) : Recipe κ ι := backward .mul (literal Coefficient.minusOne) q

/-! ## Functions of one argument -/

/-- The argument of a function. -/
def argument : Recipe κ Unit := operand ()

/-- The derivative of the argument of a function. -/
def inner : Recipe κ Unit := derivative ()

/-- The rule for a function of one argument. -/
def ofFunction : Operation → Option (Recipe κ Unit)
  | .ln => some (binary .div inner argument)
  | .sin => some (binary .mul (unary .cos argument) inner)
  | .cos => some (binary .mul (negated (unary .sin argument)) inner)
  | .tan => some (binary .div inner (square (unary .cos argument)))
  | .cot => some (binary .div (negated inner) (square (unary .sin argument)))
  | .sinh => some (binary .mul (unary .cosh argument) inner)
  | .cosh => some (binary .mul (unary .sinh argument) inner)
  | .arcsin => some (binary .div inner (root (binary .sub (whole 1) (square argument))))
  | .arccos => some (binary .div (negated inner) (root (binary .sub (whole 1) (square argument))))
  | .arctan => some (binary .div inner (binary .add (whole 1) (square argument)))
  | .arccot => some (binary .div (negated inner) (binary .add (whole 1) (square argument)))
  | .arsinh => some (binary .div inner (root (binary .add (square argument) (whole 1))))
  | .arccosh => some (binary .div inner (root (binary .sub (square argument) (whole 1))))
  | .artanh => some (binary .div inner (binary .sub (whole 1) (square argument)))
  | .add | .sub | .mul | .div | .pow | .log => none

/-! ## Operations of two arguments -/

/-- The left operand. -/
def l : Recipe κ Side := operand .left

/-- The right operand. -/
def r : Recipe κ Side := operand .right

/-- The derivative of the left operand. -/
def dl : Recipe κ Side := derivative .left

/-- The derivative of the right operand. -/
def dr : Recipe κ Side := derivative .right

/-- The product rule. -/
def product : Recipe κ Side := binary .add (binary .mul dl r) (binary .mul l dr)

/-- The quotient rule. -/
def quotient : Recipe κ Side :=
  binary .div (binary .sub (binary .mul dl r) (binary .mul l dr)) (binary .mul r r)

/-- The rule for a power with the literal exponent `c`. -/
def powerOfLiteral (c : κ) : Recipe κ Unit :=
  binary .mul
    (backward .mul (literal c) (binary .pow argument (literal (Coefficient.pred c))))
    inner

/-- The rule for a power of the literal base `a`. -/
def literalToPower (a : κ) : Recipe κ Unit :=
  binary .mul (binary .mul (binary .pow (literal a) argument) (unary .ln (literal a))) inner

/-- The rule for any other power. -/
def power : Recipe κ Side :=
  backward .mul (binary .pow l r)
    (binary .add (binary .mul dr (unary .ln l)) (binary .div (binary .mul r dl) l))

/-- The rule for a logarithm, as the quotient of two natural logarithms. -/
def logarithm : Recipe κ Side :=
  binary .div
    (binary .sub (binary .mul (binary .div dr r) (unary .ln l))
      (binary .mul (unary .ln r) (binary .div dl l)))
    (binary .mul (unary .ln l) (unary .ln l))

end Recipe

/-- Which operands of an operation of two arguments are differentiated, and the recipe for the
whole. -/
inductive Plan (κ : Type) where
  | left (recipe : Recipe κ Unit)
  | right (recipe : Recipe κ Unit)
  | both (recipe : Recipe κ Side)
deriving Repr

namespace Plan

variable {κ : Type} [Coefficient κ]

/-- The rule for an operation of two arguments, given the literals that its operands are, if they
are any. -/
def ofOperation (op : Operation) (left right : Option κ) : Option (Plan κ) :=
  match op with
  | .add => some (both (.binary .add .dl .dr))
  | .sub => some (both (.binary .sub .dl .dr))
  | .mul => some (both .product)
  | .div => some (both .quotient)
  | .pow =>
    match left, right with
    | _, some c => some (Plan.left (.powerOfLiteral c))
    | some a, none => some (Plan.right (.literalToPower a))
    | none, none => some (both .power)
  | .log => some (both .logarithm)
  | _ => none

/-- The rule at a node with two slots. -/
def ofOperator (op : Operator) (left right : Option κ) : Option (Plan κ) :=
  (op.resolveArity 2).bind fun o => ofOperation o left right

end Plan

namespace Recipe

/-- The rule at a node with one slot. -/
def ofOperator {κ : Type} [Coefficient κ] (op : Operator) : Option (Recipe κ Unit) :=
  (op.resolveArity 1).bind ofFunction

end Recipe

end Fluxion
