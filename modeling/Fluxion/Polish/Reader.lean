import Fluxion.Numeral
import Fluxion.Polish.Printer
import Fluxion.Store.Links
import Fluxion.Text.Blank

/-!
# Reading trees in Polish notation

A text is cut into tokens: a bracket is a token by itself, and so is every longest run of characters
that are neither brackets nor blanks. The tokens must spell one tree and nothing after it, where a
tree is `nil`, or an opening bracket, a value, two trees and a closing bracket.

Whether a value fits its slots is checked once both slots are read: a symbol of two arguments has
two operands, a symbol of one argument has one in the left slot, and any other value is a leaf, a
letter or a number.

Reading is a loop over a stack of open brackets, each with its value and the children read so far. A
node is made as soon as its two slots are known. Where the text does not read, all children that the
open brackets hold are given back, those of the outermost first.

* `Polish.tokens` cuts a text.
* `Polish.readTree` is the loop, and `Polish.fill` closes brackets.
* `Polish.read` reads a whole text.
-/

namespace Fluxion

namespace Polish

/-- A token and the position of its first character. -/
structure Token where
  chars : List Char
  start : Nat
deriving Repr, DecidableEq

/-- A token as a text. -/
def Token.text (t : Token) : String := String.ofList t.chars

/-- The word that ends before position `p`, given backwards. -/
def wordToken (word : List Char) (p : Nat) : List Token :=
  match word with
  | [] => []
  | c :: r => [⟨(c :: r).reverse, p - (c :: r).length⟩]

/-- The tokens of a text from position `p` on, after the characters `word`, given backwards, of a
word under way. -/
def tokensFrom (word : List Char) (p : Nat) : List Char → List Token
  | [] => wordToken word p
  | c :: r =>
    if Text.isBlank c then wordToken word p ++ tokensFrom [] (p + 1) r
    else if c = '(' || c = ')' then wordToken word p ++ ⟨[c], p⟩ :: tokensFrom [] (p + 1) r
    else tokensFrom (c :: word) (p + 1) r

/-- The tokens of a text. -/
def tokens (s : List Char) : List Token := tokensFrom [] 0 s

/-- Why a text does not read: the complaint, and the tokens left at that point. -/
structure Failure where
  complaint : Complaint
  rest : List Token

/-- The fault of a failure in reading `text`: the position is where the next token begins, or the
end of the text. -/
def Failure.fault (text : String) (f : Failure) : Fault :=
  let position :=
    match f.rest with
    | [] => text.toList.length
    | t :: _ => t.start
  .malformed f.complaint position text

/-- An open bracket: its value, and the children read so far. -/
structure Frame where
  value : Token
  slots : List (Option Ref)

/-- The children that open brackets hold, those of the outermost first. -/
def held (frames : List Frame) : List (Option Ref) := frames.reverse.flatMap (·.slots)

/-- Where a reading stands: at the end of the tree, or inside open brackets, the innermost first. -/
inductive Progress where
  | finished (root : Option Ref) (rest : List Token)
  | inside (frames : List Frame) (rest : List Token)

section

variable {κ α : Type} (text : String)

/-- Refuses, after giving back what the open brackets hold. -/
def refuse (frames : List Frame) (f : Failure) : Act (Store κ) α := do
  (held frames).forM Store.release
  throw (f.fault text)

variable [Literal κ]

/-- Makes the node with a value and two slots, if the value fits them; `ts` are the tokens left. -/
def makeNode (value : Token) (l r : Option Ref) (ts : List Token) : Act (Store κ) Ref :=
  let refuse (c : Complaint) : Act (Store κ) Ref := throw (Failure.fault text ⟨c, ts⟩)
  if value.chars = openToken || value.chars = closeToken then refuse (.bracketAsValue value.text)
  else
    match Operation.ofSymbol? value.text with
    | some op =>
      if op.arity = 2 then
        if l.isNone || r.isNone then refuse (.wantsTwoOperands value.text)
        else Store.newBinary .pool (.known op) l r
      else if l.isNone || !r.isNone then refuse (.wantsOneOperand value.text)
      else Store.newUnary .pool (.known op) l
    | none =>
      if !l.isNone || !r.isNone then refuse (.leafWithChildren value.text)
      else if Name.isLetter (some value.text) then Store.newVar .pool (some value.text)
      else
        match Numeral.read? value.chars with
        | some n => Store.newLiteral .pool (Literal.ofNumeral n)
        | none => refuse (.unknownValue value.text)

/-- Makes a node of a bracket with two children and takes its closing bracket; `frames` are the open
brackets around it. The children stay in the bracket if no node can be made of it. -/
def closeBracket (value : Token) (l r : Option Ref) (frames : List Frame) (ts : List Token) :
    Act (Store κ) (Ref × List Token) := do
  let node ← (makeNode text value l r ts).onMalformed fun _ _ =>
    (held (⟨value, [l, r]⟩ :: frames)).forM Store.release
  match ts with
  | [] =>
    Store.release (some node)
    refuse text frames ⟨.notClosed, []⟩
  | b :: rest =>
    if b.chars = closeToken then pure (node, rest)
    else
      Store.release (some node)
      refuse text frames ⟨.notClosed, b :: rest⟩

/-- Puts a finished node into the innermost open bracket. A bracket with two children is closed, and its
node goes into the bracket around it. -/
def fill (node : Option Ref) : List Frame → List Token → Act (Store κ) Progress
  | [], ts => pure (.finished node ts)
  | ⟨value, slots⟩ :: frames, ts =>
    match slots ++ [node] with
    | [l, r] => do
      let (node, rest) ← closeBracket text value l r frames ts
      fill (some node) frames rest
    | slots => pure (.inside (⟨value, slots⟩ :: frames) ts)

/-- Reads one tree inside open brackets, and goes on until all brackets are closed. Every round takes
a token, so the number of tokens bounds the rounds. -/
def readTree : Nat → List Frame → List Token → Act (Store κ) (Option Ref × List Token)
  | 0, frames, ts => refuse text frames ⟨.treeEnds, ts⟩
  | _ + 1, frames, [] => refuse text frames ⟨.treeEnds, []⟩
  | rounds + 1, frames, t :: ts =>
    if t.chars = openToken then
      match ts with
      | [] => refuse text frames ⟨.treeEnds, []⟩
      | value :: ts => readTree rounds (⟨value, []⟩ :: frames) ts
    else if t.chars = nilToken then do
      match ← fill text none frames ts with
      | .finished root rest => pure (root, rest)
      | .inside frames rest => readTree rounds frames rest
    else refuse text frames ⟨.notATree t.text, t :: ts⟩

/-- Reads a whole text; gives the root. -/
def read : Act (Store κ) (Option Ref) := do
  let ts := tokens text.toList
  match ← readTree text (ts.length + 1) [] ts with
  | (root, []) => pure root
  | (root, next :: rest) =>
    Store.release root
    throw (Failure.fault text ⟨.afterTree next.text, next :: rest⟩)

end

end Polish

end Fluxion
