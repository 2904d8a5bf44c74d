import Fluxion.Numeral
import Fluxion.Store.Links
import Fluxion.Text.Blank

/-!
# Reading formulas

The grammar of formulas, from the loosest to the tightest binding:

* a sum is a chain of products with `+` and `-` between them, nested to the left;
* a product is a chain of powers with `*` and `/` between them, nested to the left;
* a power is a primary, optionally followed by `^` and another power;
* a primary is a function with its arguments in brackets, a sum in brackets, one letter, or an
  unsigned decimal.

Blanks may stand before every token. Where a primary is due, the first function whose symbol stands
there is taken, before any letter. The whole text is at nesting level one, and every pair of
brackets, function argument and exponent is one level deeper than what surrounds it; `limit` is the
deepest level allowed.

A reader takes the text that is left, makes the nodes of what it reads as soon as their operands are
there, and gives the root with what is left after it. Where the text does not read, the readers that
hold a finished subtree give it back on the way out, the innermost first, so that nothing stays
behind. The readers are built level by level: what may stand inside brackets at one level is made
from the reader of powers one level further in, so the recursion is on the levels left.

* `Formula.read` reads a whole text.
* `Formula.Failure` tells what was wrong and where.
-/

namespace Fluxion

namespace Formula

/-- Why a formula does not read: the complaint, and the text left at that point. -/
structure Failure where
  complaint : Complaint
  rest : List Char

/-- The fault of a failure in reading `text`: the position is where the text left begins. -/
def Failure.fault (text : String) (f : Failure) : Fault :=
  .malformed f.complaint (text.toList.length - f.rest.length) text

/-- The failure at a text that should have ended or gone on differently. -/
def unexpected : List Char → Failure
  | [] => ⟨.unexpectedEnd, []⟩
  | c :: r => ⟨.unexpectedChar c, c :: r⟩

/-- What is left after the token `wanted`. -/
def expect (wanted : Char) (s : List Char) : Except Failure (List Char) :=
  match Text.skipBlanks s with
  | [] => .error ⟨.wantedAtEnd wanted, []⟩
  | c :: r => if c = wanted then .ok r else .error ⟨.wantedInstead wanted c, c :: r⟩

/-- The signs of a sum. -/
def sumSign : Char → Option Operation
  | '+' => some .add
  | '-' => some .sub
  | _ => none

/-- The signs of a product. -/
def productSign : Char → Option Operation
  | '*' => some .mul
  | '/' => some .div
  | _ => none

/-- The nesting allowed unless told otherwise. -/
def defaultLimit : Int := 100

/-- A reader of one part of a formula. -/
abbrev Reader (κ : Type) := List Char → Act (Store κ) (Ref × List Char)

section

variable {κ α : Type}

/-- An act that gives back the tree below `r` where a text does not read. -/
def orRelease (r : Ref) (act : Act (Store κ) α) : Act (Store κ) α :=
  act.onMalformed fun _ _ => Store.release (some r)

variable (text : String)

/-- Takes the token `wanted`; if it does not stand there, gives back the trees `partials`. -/
def takeToken (wanted : Char) (partials : List Ref) (s : List Char) :
    Act (Store κ) (List Char) := do
  match expect wanted s with
  | .ok rest => pure rest
  | .error f =>
    partials.forM fun r => Store.release (some r)
    throw (f.fault text)

/-- Extends the chain `left` as long as a sign follows. Every round takes at least a sign, so the
length of the text bounds the number of rounds. -/
def readChainTail (sign : Char → Option Operation) (operand : Reader κ) : Nat → Ref → Reader κ
  | rounds, left, s =>
    match Text.skipBlanks s with
    | [] => pure (left, [])
    | c :: r =>
      match sign c, rounds with
      | some op, rounds + 1 => do
        let (right, rest) ← orRelease left (operand r)
        let node ← Store.newBinary .pool (.known op) (some left) (some right)
        readChainTail sign operand rounds node rest
      | _, _ => pure (left, c :: r)

/-- Reads a chain of operands with signs between them. -/
def readChain (sign : Char → Option Operation) (operand : Reader κ) : Reader κ := fun s => do
  let (first, rest) ← operand s
  readChainTail sign operand rest.length first rest

/-- Reads the arguments of a function whose symbol was taken. -/
def readCall (op : Operation) (argument : Reader κ) : Reader κ := fun s => do
  let s ← takeToken text '(' [] s
  let (first, s) ← argument s
  if op.arity = 1 then
    let s ← takeToken text ')' [first] s
    return (← Store.newUnary .pool (.known op) (some first), s)
  else
    let s ← takeToken text ',' [first] s
    let (second, s) ← orRelease first (argument s)
    let s ← takeToken text ')' [first, second] s
    return (← Store.newBinary .pool (.known op) (some first) (some second), s)

/-- Reads a sum and the bracket that closes it. -/
def readBracket (inner : Reader κ) : Reader κ := fun s => do
  let (node, s) ← inner s
  return (node, ← takeToken text ')' [node] s)

/-- Refuses to go one level deeper. -/
def readTooDeep (limit : Int) : Reader κ := fun s => throw (Failure.fault text ⟨.tooDeep limit, s⟩)

variable [Literal κ]

/-- Reads a primary; `inner` reads what stands in brackets. -/
def readPrimary (inner : Reader κ) : Reader κ := fun s => do
  let s := Text.skipBlanks s
  match Operation.function? s with
  | some op => readCall text op inner (s.drop op.symbol.length)
  | none =>
    match s with
    | [] => throw ((unexpected s).fault text)
    | c :: r =>
      if c = '(' then readBracket text inner r
      else if c.isAlpha then return (← Store.newVar .pool (some (String.singleton c)), r)
      else
        match Decimal.scan? s with
        | some (d, rest) =>
          return (← Store.newLiteral .pool (Literal.ofNumeral (.finite false d)), rest)
        | none => throw ((unexpected s).fault text)

/-- Reads a power; `inner` reads what stands in brackets and `exponent` what stands after `^`. -/
def readPowerWith (inner exponent : Reader κ) : Reader κ := fun s => do
  let (base, rest) ← readPrimary text inner s
  match Text.skipBlanks rest with
  | '^' :: r =>
    let (e, rest) ← orRelease base (exponent r)
    return (← Store.newBinary .pool (.known .pow) (some base) (some e), rest)
  | rest => return (base, rest)

omit [Literal κ] in
/-- Reads a sum, given a reader of powers. -/
def readSumOf (power : Reader κ) : Reader κ := readChain sumSign (readChain productSign power)

/-- Reads a power with `levels` more levels of nesting allowed inside it. -/
def readPower (limit : Int) : Nat → Reader κ
  | 0 => readPowerWith text (readTooDeep text limit) (readTooDeep text limit)
  | levels + 1 =>
    readPowerWith text (readSumOf (readPower limit levels)) (readPower limit levels)

/-- Reads a sum that opens a level of nesting, with `levels` levels allowed. -/
def readSum (limit : Int) : Nat → Reader κ
  | 0 => readTooDeep text limit
  | levels + 1 => readSumOf (readPower text limit levels)

/-- Reads a whole text; gives the root. -/
@[irreducible] def read (limit : Int) : Act (Store κ) Ref := do
  let (root, rest) ← readSum text limit limit.toNat text.toList
  match Text.skipBlanks rest with
  | [] => pure root
  | c :: r =>
    Store.release (some root)
    throw ((unexpected (c :: r)).fault text)

end

end Formula

end Fluxion
