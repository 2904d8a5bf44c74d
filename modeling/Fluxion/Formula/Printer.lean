import Fluxion.Numeral
import Fluxion.Tree.Basic

/-!
# Writing formulas

A formula is the infix text of a tree, with every infix operation in brackets. Formulas have neither
a minus sign in front of a number nor a word for an infinity, so a negative literal is written as a
difference from zero, an infinite one as a number that is too large, and one without a value as zero
over zero. An operator without a meaning is shown between angle brackets, an empty slot as `nil`.

* `Tree.renderFrom` renders by a stack of trees and a stack of texts.
* `Tree.formula` is the text of a tree.
-/

namespace Fluxion

namespace Numeral

/-- An unsigned numeral in a formula. -/
def formulaMagnitude : Numeral → List Char
  | infinite _ => "1e999".toList
  | n => n.unsigned.plainChars

/-- A numeral in a formula. -/
def formulaChars (n : Numeral) : List Char :=
  match n with
  | nan => "(0 / 0)".toList
  | n => if n.isNegative then "(0 - ".toList ++ n.formulaMagnitude ++ [')'] else n.formulaMagnitude

end Numeral

namespace Operator

/-- The symbol of an operator in a formula. -/
def formulaSymbol (o : Operator) : List Char :=
  match o.resolve with
  | some op => op.symbol.toList
  | none => "<op ".toList ++ o.shown.toList ++ ['>']

/-- Whether an operator is written before its operands. -/
def isFunction (o : Operator) : Bool :=
  match o.resolve with
  | some op => op.isFunction
  | none => false

end Operator

namespace Tree

variable {κ : Type}

/-- What is in the slots of the root, empty ones included. -/
def slots : Tree κ → List (Tree κ)
  | binary _ l r => [l, r]
  | unary _ x => [x]
  | _ => []

variable [Literal κ]

/-- The text of the root, given the texts of what is in its slots. -/
def render : Tree κ → List String → String
  | absent, _ => "nil"
  | literal v, _ => String.ofList (Literal.toNumeral v).formulaChars
  | var n, _ => n.shown
  | binary op _ _, [l, r] =>
    let symbol := String.ofList op.formulaSymbol
    if op.isFunction then symbol ++ "(" ++ l ++ ", " ++ r ++ ")"
    else "(" ++ l ++ " " ++ symbol ++ " " ++ r ++ ")"
  | unary op _, [x] => String.ofList op.formulaSymbol ++ "(" ++ x ++ ")"
  | _, _ => ""

/-- Renders what is on a stack, on top of the texts so far, the last one first. A tree goes back on the
stack under what is in its slots, and takes their texts once they are there. -/
def renderFrom (stack : List (Tree κ × Bool)) (texts : List String) : String :=
  match stack with
  | [] => texts.getLastD ""
  | (t, expanded) :: stack =>
    if t.slots.isEmpty || expanded then
      renderFrom stack
        (t.render (texts.take t.slots.length).reverse :: texts.drop t.slots.length)
    else renderFrom (t.slots.map (fun c => (c, false)) ++ (t, true) :: stack) texts
termination_by effort stack
decreasing_by
  · cases expanded <;> simp [effort]
  · cases t <;> simp_all [effort, slots, size] <;> omega

/-- The formula of a tree; the empty expression has the empty text. -/
def formula (t : Tree κ) : String :=
  if t.isAbsent then "" else renderFrom [(t, false)] []

/-- The formula of a tree after the name of the kind of its root. -/
def described (t : Tree κ) : String :=
  match t.kind? with
  | some k => k.label ++ "(" ++ t.formula ++ ")"
  | none => "None"

/-- The formula of an expression between quotes; a variable by itself may have no name to quote. -/
def quoted : Tree κ → String
  | var n => n.quoted
  | t => Text.quote t.formula

/-- The formula of an expression after the word for an expression. -/
def announced (t : Tree κ) : String := "Expression(" ++ t.quoted ++ ")"

end Tree

end Fluxion
