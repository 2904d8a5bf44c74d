import Fluxion.Numeral
import Fluxion.Tree.Basic

/-!
# Writing trees in Polish notation

In Polish notation a node is written in brackets, its value first and its two slots after it. An
empty slot is `nil`; an operation of one operand keeps it in the left slot, and a leaf leaves both
slots empty. One space stands between any two tokens.

* `Tree.polishFrom` writes by a stack of what is pending.
* `Tree.polish` is the text of a tree, or the fault of an operator that has no symbol.
-/

namespace Fluxion

namespace Polish

/-- The token of an empty slot. -/
def nilToken : List Char := ['n', 'i', 'l']

/-- The opening bracket. -/
def openToken : List Char := ['(']

/-- The closing bracket. -/
def closeToken : List Char := [')']

/-- The token of an operator; empty for an operator without a symbol. -/
def operatorToken (o : Operator) : List Char :=
  match o.resolve with
  | some op => op.symbol.toList
  | none => []

/-- Puts a space between tokens. -/
def spaced (ts : List (List Char)) : List Char := [' '].intercalate ts

/-- What is still to be written: a tree, or a closing bracket. -/
inductive Item (κ : Type) where
  | tree (t : Tree κ)
  | closing

namespace Item

variable {κ : Type}

/-- The work that items stand for. -/
def effort : List (Item κ) → Nat
  | [] => 0
  | .tree t :: rest => 4 * t.size + 1 + effort rest
  | .closing :: rest => 1 + effort rest

end Item

end Polish

namespace Tree

variable {κ : Type}

/-- What is in the two slots of the root; an operand stands in the left one. -/
def polishSlots : Tree κ → Tree κ × Tree κ
  | binary _ l r => (l, r)
  | unary _ x => (x, absent)
  | _ => (absent, absent)

variable [Literal κ]

/-- The token of the root, if it is not an operation without a symbol. -/
def polishValue : Tree κ → Except Fault (List Char)
  | absent => .ok Polish.nilToken
  | literal v => .ok (Literal.toNumeral v).plainChars
  | var n => .ok n.shown.toList
  | binary op _ _ | unary op _ =>
    if op.resolve.isNone then .error (.unwritable op) else .ok (Polish.operatorToken op)

open Polish

/-- Writes the items that are pending behind the tokens so far, the last one first. A tree goes on
with what is in its slots, and then with its closing bracket. -/
def polishFrom (pending : List (Item κ)) (tokens : List (List Char)) :
    Except Fault (List (List Char)) :=
  match pending with
  | [] => .ok tokens.reverse
  | .closing :: pending => polishFrom pending (closeToken :: tokens)
  | .tree t :: pending =>
    if _h : t.isAbsent then polishFrom pending (nilToken :: tokens)
    else
      match t.polishValue with
      | .error f => .error f
      | .ok v =>
        polishFrom (.tree t.polishSlots.1 :: .tree t.polishSlots.2 :: .closing :: pending)
          (v :: openToken :: tokens)
termination_by Item.effort pending
decreasing_by
  · simp only [Item.effort]
    omega
  · simp only [Item.effort]
    omega
  · cases t <;> simp_all [Item.effort, polishSlots, size, isAbsent] <;> omega

/-- The text of a tree in Polish notation. -/
def polish (t : Tree κ) : Except Fault String := do
  return String.ofList (spaced (← polishFrom [.tree t] []))

end Tree

end Fluxion
