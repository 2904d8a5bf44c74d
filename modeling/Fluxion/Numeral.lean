import Fluxion.Decimal.Shortest

/-!
# Numerals

A numeral is what a number looks like on paper: not a number, an infinity, or a signed decimal. The
library writes numbers in three layouts and reads them in one, all through numerals, so that
printing and reading never depend on how the numbers themselves are stored.

* `Numeral.exact` keeps the point of a whole number, and is positional from `10 ^ -4` up to
  `10 ^ 16`.
* `Numeral.plain` writes a whole number below `10 ^ 16` by its digits alone, and is `exact` on
  anything else.
* `Numeral.brief` drops the point of a whole number, and is positional up to `10 ^ 6`.
* `Numeral.read?` reads a signed decimal of any script with single underscores between digits, or
  the word for an infinity or for no number, in any case.
* `Literal` is the class of scalars that have numerals; `Float` is one.
-/

namespace Fluxion

/-- A number as written. -/
inductive Numeral where
  | nan
  | infinite (negative : Bool)
  | finite (negative : Bool) (magnitude : Decimal)
deriving Repr, DecidableEq

namespace Numeral

/-! ## Writing -/

/-- How the digits of a decimal are laid out: from which power of ten up to which they are written
in place, and whether a whole number keeps its point. -/
structure Layout where
  positionalFrom : Int
  positionalBelow : Int
  keepsPoint : Bool
deriving Repr

/-- The layout that shows every digit. -/
def Layout.exact : Layout := ⟨-4, 16, true⟩

/-- The layout for numbers of six digits. -/
def Layout.brief : Layout := ⟨-4, 6, false⟩

/-- A list of zeros. -/
def zeros (n : Nat) : List Char := List.replicate n '0'

/-- A decimal with every digit in its place. -/
def positional (keepsPoint : Bool) (d : Decimal) : List Char :=
  let ds := d.digitChars
  if 0 ≤ d.exponent then
    ds ++ zeros d.exponent.toNat ++ (if keepsPoint then ['.', '0'] else [])
  else
    let places := (-d.exponent).toNat
    if places < ds.length then
      ds.take (ds.length - places) ++ '.' :: ds.drop (ds.length - places)
    else '0' :: '.' :: zeros (places - ds.length) ++ ds

/-- A decimal with one digit before the point and its power of ten, in at least two digits, behind
it. -/
def scientific (d : Decimal) : List Char :=
  let power := d.magnitude
  let powerDigits := Nat.toDigits 10 power.natAbs
  let mantissa :=
    match d.digitChars with
    | [] => []
    | [c] => [c]
    | c :: cs => c :: '.' :: cs
  mantissa ++ 'e' :: (if power < 0 then '-' else '+') ::
    (zeros (2 - powerDigits.length) ++ powerDigits)

/-- A decimal in a layout. -/
def Layout.write (l : Layout) (d : Decimal) : List Char :=
  if l.positionalFrom ≤ d.magnitude && d.magnitude < l.positionalBelow then
    positional l.keepsPoint d
  else scientific d

/-- A minus sign where one is needed. -/
def signed (negative : Bool) (s : List Char) : List Char := if negative then '-' :: s else s

/-- A numeral in a layout. -/
def write (l : Layout) : Numeral → List Char
  | nan => ['n', 'a', 'n']
  | infinite negative => signed negative ['i', 'n', 'f']
  | finite negative d => signed negative (l.write d)

/-- The text that shows every digit of a numeral. -/
def exact (n : Numeral) : String := String.ofList (n.write .exact)

/-- The text of a numeral of few digits. -/
def brief (n : Numeral) : String := String.ofList (n.write .brief)

/-- The text of a numeral in a tree: a whole number below `10 ^ 16` is its digits alone, without a
sign if it is zero. -/
def plainChars : Numeral → List Char
  | finite negative d =>
    if d.isWholeBelow 16 then signed (negative && d.digits != 0) (positional false d)
    else write .exact (finite negative d)
  | n => n.write .exact

/-- The text of a numeral in a tree. -/
def plain (n : Numeral) : String := String.ofList n.plainChars

/-- Whether a numeral is below zero. -/
def isNegative : Numeral → Bool
  | nan => false
  | infinite negative => negative
  | finite negative d => negative && d.digits != 0

/-- The numeral without its sign. -/
def unsigned : Numeral → Numeral
  | nan => nan
  | infinite _ => infinite false
  | finite _ d => finite false d

/-! ## Reading -/

/-- Drops the underscores of a text, each of which must stand between two digits. The flag says
whether the character before was a digit. -/
def dropUnderscores? : Bool → List Char → Option (List Char)
  | _, [] => some []
  | afterDigit, '_' :: c :: r =>
    if afterDigit && Text.isDigit c then (dropUnderscores? true r).map (c :: ·) else none
  | _, c :: r =>
    if c = '_' then none else (dropUnderscores? (Text.isDigit c) r).map (c :: ·)

/-- Reads an unsigned number: a decimal, or the word for an infinity or for no number. -/
def readUnsigned? (s : List Char) : Option Numeral :=
  match Decimal.scan? s with
  | some (d, []) => some (finite false d)
  | _ =>
    let word := String.ofList (s.map Char.toLower)
    if word = "inf" || word = "infinity" then some (infinite false)
    else if word = "nan" then some nan
    else none

/-- The numeral with the sign turned if asked. -/
def withSign (negative : Bool) : Numeral → Numeral
  | nan => nan
  | infinite _ => infinite negative
  | finite _ d => finite negative d

/-- Reads a number that fills the whole text. -/
def read? (s : List Char) : Option Numeral :=
  (dropUnderscores? false s).bind fun s =>
    let (negative, r) := Decimal.takeSign s
    (readUnsigned? r).map (withSign negative)

end Numeral

/-! ## Scalars with numerals -/

/-- Scalars that can be written down and read back. `rounded` is the numeral to six digits, for
messages. -/
class Literal (κ : Type) where
  toNumeral : κ → Numeral
  ofNumeral : Numeral → κ
  rounded : κ → Numeral

namespace Binary64

/-- The numeral of a double, its decimal chosen by `pick` unless it is zero. -/
def toNumeral (pick : Nat → Int → Decimal) : Binary64 → Numeral
  | nan => .nan
  | infinite negative => .infinite negative
  | finite negative mantissa exponent =>
    .finite negative (if mantissa = 0 then ⟨0, 0⟩ else pick mantissa exponent)

/-- The double that a numeral stands for. -/
def ofNumeral : Numeral → Float
  | .nan => Float.ofBits 0x7FF8000000000000
  | .infinite negative => Float.ofBits (0x7FF0000000000000 ||| signBit negative)
  | .finite negative d => ofDecimal negative d

end Binary64

/-- Doubles are written by their shortest decimals. -/
instance : Literal Float where
  toNumeral x := (Binary64.ofFloat x).toNumeral Shortest.ofBinary
  ofNumeral := Binary64.ofNumeral
  rounded x := (Binary64.ofFloat x).toNumeral (Shortest.rounded 6)

end Fluxion
