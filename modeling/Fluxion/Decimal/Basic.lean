import Fluxion.Text.DecimalDigit

/-!
# Decimal numbers

A decimal is a natural number of digits scaled by a power of ten. Every decimal that the library
makes or reads is in lowest form, with no trailing zero among its digits, so two decimals of one
value are one decimal.

* `Decimal.lowest` strips trailing zeros.
* `Decimal.scan?` reads the longest unsigned decimal at the front of a text: digits with at most
  one point among them, then optionally an exponent. An exponent mark without digits after it is
  left in the rest.
-/

namespace Fluxion

/-- The natural number ten to the `n`. -/
def tenTo (n : Nat) : Nat := Nat.pow 10 n

/-- The number `digits · 10 ^ exponent`. -/
structure Decimal where
  digits : Nat
  exponent : Int
deriving Repr, DecidableEq

namespace Decimal

/-- The decimal of the same value without trailing zeros; zero has exponent zero. -/
def lowest (d : Decimal) : Decimal :=
  if _h : d.digits = 0 then ⟨0, 0⟩
  else if d.digits % 10 = 0 then lowest ⟨d.digits / 10, d.exponent + 1⟩
  else d
termination_by d.digits
decreasing_by omega

/-- The decimal digits of `digits`, most significant first. -/
def digitChars (d : Decimal) : List Char := Nat.toDigits 10 d.digits

/-- The position of the leading digit: the value is at least `10 ^ magnitude` and below ten times
that, unless it is zero. -/
def magnitude (d : Decimal) : Int := d.digitChars.length + d.exponent - 1

/-- Whether the value is a whole number below ten to the `places`. -/
def isWholeBelow (places : Nat) (d : Decimal) : Bool :=
  0 ≤ d.exponent && d.magnitude < places

/-! ## Reading -/

/-- The decimal digits at the front of a text, as values, and what follows them. -/
def takeDigits : List Char → List Nat × List Char
  | [] => ([], [])
  | c :: r =>
    match Text.digitValue? c with
    | some v => let (vs, rest) := takeDigits r; (v :: vs, rest)
    | none => ([], c :: r)

/-- The number that a list of digit values spells. -/
def ofDigits (vs : List Nat) : Nat := vs.foldl (fun n v => 10 * n + v) 0

/-- The whole part and the fraction at the front of a text, and what follows. There is a digit on
at least one side of the point. -/
def scanMantissa? (s : List Char) : Option (List Nat × List Nat × List Char) :=
  match takeDigits s with
  | ([], '.' :: r) =>
    match takeDigits r with
    | ([], _) => none
    | (fraction, rest) => some ([], fraction, rest)
  | ([], _) => none
  | (whole, '.' :: r) => let (fraction, rest) := takeDigits r; some (whole, fraction, rest)
  | (whole, rest) => some (whole, [], rest)

/-- A sign at the front of a text, whether it is a minus, and what follows. -/
def takeSign : List Char → Bool × List Char
  | '-' :: r => (true, r)
  | '+' :: r => (false, r)
  | s => (false, s)

/-- The exponent at the front of a text and what follows; without one the exponent is zero and
nothing is taken. -/
def scanExponent (s : List Char) : Int × List Char :=
  match s with
  | [] => (0, [])
  | c :: r =>
    if c = 'e' || c = 'E' then
      let (negative, r) := takeSign r
      match takeDigits r with
      | ([], _) => (0, s)
      | (vs, rest) => (if negative then -(ofDigits vs : Int) else ofDigits vs, rest)
    else (0, s)

/-- The longest unsigned decimal at the front of a text, and what follows it. -/
def scan? (s : List Char) : Option (Decimal × List Char) :=
  (scanMantissa? s).map fun (whole, fraction, r) =>
    let (exponent, rest) := scanExponent r
    (lowest ⟨ofDigits (whole ++ fraction), exponent - fraction.length⟩, rest)

end Decimal

end Fluxion
