import Fluxion.Text.Quoted

/-!
# Operations and operators

The library knows twenty operations: five infix signs, the logarithm to a base, and fourteen
functions of one argument. Each has a code, a symbol and a number of arguments. The order of
declaration matters: a reader takes the first function whose symbol stands at the front of a text,
so `sinh` is declared before `sin` and `arccosh` before `arccos`.

A node may also carry something that is no operation of this list: a code or a text without meaning,
or nothing. `Operator` is what a node carries, and `Operator.resolve` is the operation it means, if
any.

* `Operation.all` is the list in order of declaration.
* `Operation.function?` is the first function at the front of a text.
* `Operator.resolve` reads a code equal to the code of an operation as that operation.
-/

namespace Fluxion

/-- The operations that trees are built from. -/
inductive Operation where
  | add | sub | mul | div | pow
  | log
  | ln | sinh | cosh | sin | cos | tan | cot
  | arcsin | arccosh | arccos | arctan | arccot | arsinh | artanh
deriving Repr, DecidableEq, Inhabited

namespace Operation

/-- Every operation, in order of declaration. -/
def all : List Operation :=
  [add, sub, mul, div, pow, log, ln, sinh, cosh, sin, cos, tan, cot, arcsin, arccosh, arccos,
    arctan, arccot, arsinh, artanh]

/-- The number by which a node may refer to an operation. -/
def code : Operation → Nat
  | add => 0 | sub => 1 | mul => 2 | div => 3 | pow => 4
  | log => 5
  | sin => 6 | cos => 7 | tan => 8 | cot => 9 | sinh => 10 | cosh => 11
  | arcsin => 12 | arccos => 13 | arctan => 14 | arccot => 15
  | arsinh => 16 | arccosh => 17 | artanh => 18
  | ln => 19

/-- How an operation is written. -/
def symbol : Operation → String
  | add => "+" | sub => "-" | mul => "*" | div => "/" | pow => "^"
  | log => "log"
  | ln => "ln" | sinh => "sinh" | cosh => "cosh"
  | sin => "sin" | cos => "cos" | tan => "tan" | cot => "cot"
  | arcsin => "arcsin" | arccosh => "arccosh" | arccos => "arccos"
  | arctan => "arctan" | arccot => "arccot"
  | arsinh => "arsinh" | artanh => "artanh"

/-- How many arguments an operation takes. -/
def arity : Operation → Nat
  | add | sub | mul | div | pow | log => 2
  | _ => 1

/-- Whether an operation is written before its arguments in brackets. -/
def isFunction : Operation → Bool
  | add | sub | mul | div | pow => false
  | _ => true

/-- The name of an operation in the registry. -/
def label : Operation → String
  | add => "ADD" | sub => "SUB" | mul => "MUL" | div => "DIV" | pow => "POW"
  | log => "LOG"
  | ln => "LN" | sinh => "SINH" | cosh => "COSH"
  | sin => "SIN" | cos => "COS" | tan => "TAN" | cot => "COT"
  | arcsin => "ARCSIN" | arccosh => "ARCCOSH" | arccos => "ARCCOS"
  | arctan => "ARCTAN" | arccot => "ARCCOT"
  | arsinh => "ARSINH" | artanh => "ARTANH"

/-- The typesetting template of an operation: arguments are numbered in braces, and a brace that is
to be printed is doubled. -/
def template : Operation → String
  | add => "\x7b0\x7d + \x7b1\x7d"
  | sub => "\x7b0\x7d - \x7b1\x7d"
  | mul => "\x7b0\x7d \\cdot \x7b1\x7d"
  | div => "\\frac\x7b\x7b\x7b0\x7d\x7d\x7d\x7b\x7b\x7b1\x7d\x7d\x7d"
  | pow => "\x7b0\x7d^\x7b\x7b\x7b1\x7d\x7d\x7d"
  | log => "\\log_\x7b\x7b\x7b0\x7d\x7d\x7d\x7b\x7b\x7b1\x7d\x7d\x7d"
  | ln => "\\ln \x7b0\x7d"
  | sinh => "\\sinh \x7b0\x7d"
  | cosh => "\\cosh \x7b0\x7d"
  | sin => "\\sin \x7b0\x7d"
  | cos => "\\cos \x7b0\x7d"
  | tan => "\\tan \x7b0\x7d"
  | cot => "\\cot \x7b0\x7d"
  | arcsin => "\\arcsin \x7b0\x7d"
  | arccosh => "\\operatorname\x7b\x7barccosh\x7d\x7d \x7b0\x7d"
  | arccos => "\\arccos \x7b0\x7d"
  | arctan => "\\arctan \x7b0\x7d"
  | arccot => "\\operatorname\x7b\x7barccot\x7d\x7d \x7b0\x7d"
  | arsinh => "\\operatorname\x7b\x7barsinh\x7d\x7d \x7b0\x7d"
  | artanh => "\\operatorname\x7b\x7bartanh\x7d\x7d \x7b0\x7d"

/-- All operations take one argument or two. -/
theorem arity_eq (op : Operation) : op.arity = 1 ∨ op.arity = 2 := by
  cases op <;> decide

/-- The functions, in order of declaration. -/
def functions : List Operation := all.filter isFunction

/-- The infix signs, in order of declaration. -/
def signs : List Operation := all.filter (!·.isFunction)

/-- The first function, in order of declaration, whose symbol stands at the front of a text. -/
def function? (s : List Char) : Option Operation :=
  functions.find? fun f => f.symbol.toList.isPrefixOf s

/-- The first function whose symbol stands at a position of a text. A negative position counts from
the end, and one before the beginning is the beginning. -/
def functionAt? (s : List Char) (position : Int) : Option Operation :=
  if position < 0 then function? (s.drop (s.length - position.natAbs))
  else function? (s.drop position.toNat)

/-- The operation written by a symbol. -/
def ofSymbol? (s : String) : Option Operation := all.find? (·.symbol == s)

/-- The operation with a code. -/
def ofCode? (n : Int) : Option Operation := all.find? fun op => (op.code : Int) == n

end Operation

/-- What an operation node carries. -/
inductive Operator where
  | known (op : Operation)
  | code (n : Int)
  | text (s : String)
  | absent
deriving Repr, DecidableEq

namespace Operator

/-- The operation that an operator means, if any. -/
def resolve : Operator → Option Operation
  | known op => some op
  | code n => Operation.ofCode? n
  | text _ => none
  | absent => none

/-- An operation and its bare code are one operator for comparisons; `canonical` picks the code. -/
def canonical : Operator → Operator
  | known op => code op.code
  | o => o

/-- Whether two operators compare equal. -/
def same (a b : Operator) : Bool := a.canonical = b.canonical

/-- The operation with `n` arguments that an operator means, if any. -/
def resolveArity (n : Nat) (o : Operator) : Option Operation :=
  match o.resolve with
  | some op => if op.arity = n then some op else none
  | none => none

/-- An operator as it stands in running text; an operation shows its code. -/
def shown : Operator → String
  | known op => toString op.code
  | code n => toString n
  | text s => s
  | absent => "None"

/-- An operator as a message names it. -/
def quoted : Operator → String
  | known op => "<OpType." ++ op.label ++ ": " ++ toString op.code ++ ">"
  | code n => toString n
  | text s => Text.quote s
  | absent => "None"

end Operator

end Fluxion
