import Fluxion.Name
import Fluxion.Operation

/-!
# Faults

Everything the library refuses to do, by cause. The wording of each refusal is fixed here, in
`Complaint.message` for malformed text and in `Fault.message` for the rest.

* `Fault.concernsExpression` singles out the faults of an expression itself (it does not read, or
  has no value, or no derivative) from those of the way the library was used.
-/

namespace Fluxion

/-- What is wrong with a text at a position. The first five are complaints about a formula, the
others about a tree in Polish notation. -/
inductive Complaint where
  | unexpectedEnd
  | unexpectedChar (c : Char)
  | wantedAtEnd (wanted : Char)
  | wantedInstead (wanted found : Char)
  | tooDeep (limit : Int)
  | treeEnds
  | notATree (token : String)
  | bracketAsValue (token : String)
  | wantsTwoOperands (symbol : String)
  | wantsOneOperand (symbol : String)
  | leafWithChildren (token : String)
  | unknownValue (token : String)
  | notClosed
  | afterTree (token : String)
deriving Repr, DecidableEq

/-- The wording of a complaint. -/
def Complaint.message : Complaint → String
  | unexpectedEnd => "Unexpected end of expression"
  | unexpectedChar c => "Unexpected character " ++ Text.quote (String.singleton c)
  | wantedAtEnd w => "Expected '" ++ String.singleton w ++ "' but reached end of expression"
  | wantedInstead w c =>
    "Expected '" ++ String.singleton w ++ "' but found " ++ Text.quote (String.singleton c)
  | tooDeep limit => "Expression nested deeper than " ++ toString limit ++ " levels"
  | treeEnds => "Unexpected end of tree text"
  | notATree t => "Expected '(' or 'nil', found " ++ Text.quote t
  | bracketAsValue t => "Expected a node value, found " ++ Text.quote t
  | wantsTwoOperands s => "'" ++ s ++ "' needs two operands"
  | wantsOneOperand s => "'" ++ s ++ "' needs exactly one operand in the left slot"
  | leafWithChildren t => "Leaf " ++ Text.quote t ++ " cannot have children"
  | unknownValue t => "Unrecognized node value " ++ Text.quote t
  | notClosed => "Expected ')'"
  | afterTree t => "Unexpected token " ++ Text.quote t ++ " after tree"

/-- The kinds of nodes. -/
inductive Kind where
  | var
  | literal
  | binary
  | unary
deriving Repr, DecidableEq

/-- The name of a kind of nodes in messages. -/
def Kind.label : Kind → String
  | var => "VariableNode"
  | literal => "ConstantNode"
  | binary => "BinaryOpNode"
  | unary => "UnaryOpNode"

/-- The causes for which the library refuses. -/
inductive Fault where
  /-- A text does not read. -/
  | malformed (complaint : Complaint) (position : Nat) (text : String)
  /-- A variable has no value. -/
  | unbound (name : Name)
  /-- A node carries no operation that could be evaluated or differentiated. -/
  | unknownOperation (operator : Operator)
  /-- An empty slot stands where a value is needed. -/
  | unknownNode
  /-- A node carries no operation that could be written. -/
  | unwritable (operator : Operator)
  /-- A name is not a letter. -/
  | invalidName (name : Name)
  /-- A derivative of negative order is asked for. -/
  | negativeOrder (order : Int)
  /-- A Taylor polynomial of negative order is asked for. -/
  | negativeTaylorOrder (order : Int)
  /-- An empty expression has no value. -/
  | nothingToEvaluate
  /-- An empty expression has no Taylor polynomial. -/
  | nothingToExpand
  /-- An empty expression has no form outside the library. -/
  | nothingToConvert
  /-- An operation with two operands has no form outside the library. -/
  | unconvertibleBinary (operator : Operator)
  /-- An operation with one operand has no form outside the library. -/
  | unconvertibleUnary (operator : Operator)
  /-- A node already has a parent. -/
  | alreadyOwned
  /-- A node would become its own child. -/
  | ownChild
  /-- A node is not among the children of another. -/
  | notAChild
  /-- An empty slot is to be replaced. -/
  | emptySlot
  /-- A node of this kind has no slots. -/
  | noChildren (kind : Kind)
  /-- A root has a parent. -/
  | ownedRoot
  /-- A node to be replaced hangs nowhere. -/
  | strayTarget
  /-- A table needs room. -/
  | noCapacity
  /-- A grid needs two points. -/
  | tooFewPoints
  /-- There is no such order of listing nodes. -/
  | unknownTraversal (name : String)
  /-- There is no such order of walking a tree. -/
  | unknownWalk (name : String)
  /-- The session was closed. -/
  | sessionClosed
  /-- An operation takes an operand from results that have run out. -/
  | noOperand
  /-- An evaluation ends without a result. -/
  | noResult
deriving Repr, DecidableEq

namespace Fault

/-- The wording of a refusal. A malformed text is shown with a mark under the position. -/
def message : Fault → String
  | malformed c p t =>
    c.message ++ " at position " ++ toString p ++ "\n  " ++ t ++ "\n  " ++
      String.ofList (List.replicate p ' ') ++ "^"
  | unbound n => "No value bound for variable '" ++ n.shown ++ "'"
  | unknownOperation o => "Unknown operation: " ++ o.quoted
  | unknownNode => "Unknown node type: 'NoneType'"
  | unwritable o => "Cannot serialize unknown operation " ++ o.quoted
  | invalidName n => "Variable name must be a single ASCII letter, got " ++ n.quoted
  | negativeOrder n => "Derivative order must be non-negative, got " ++ toString n
  | negativeTaylorOrder n => "Taylor order must be non-negative, got " ++ toString n
  | nothingToEvaluate => "Cannot evaluate an empty expression"
  | nothingToExpand => "Cannot build a Taylor polynomial of an empty expression"
  | nothingToConvert => "Cannot convert an empty expression"
  | unconvertibleBinary o => "to_sympy reached unexpected binary operation: " ++ o.shown
  | unconvertibleUnary o => "to_sympy reached unexpected unary operation: " ++ o.shown
  | alreadyOwned => "Node already belongs to another tree position; use copy()"
  | ownChild => "A node cannot be its own child"
  | notAChild => "Node is not a child of this node"
  | emptySlot => "Cannot replace an empty slot"
  | noChildren k => k.label ++ " has no children"
  | ownedRoot => "Root node must not have a parent; detach or copy() it first"
  | strayTarget => "Target is neither the root nor attached to a parent"
  | noCapacity => "initial_capacity must be positive"
  | tooFewPoints => "n_points must be at least 2"
  | unknownTraversal s => "Invalid traversal_order: " ++ s
  | unknownWalk s => "Invalid order: " ++ s
  | sessionClosed => "Session is closed"
  | noOperand => "pop from empty list"
  | noResult => "list index out of range"

/-- Whether a fault lies with the expression: its text does not read, a value is missing, or an
operation has no meaning. -/
def concernsExpression : Fault → Bool
  | malformed .. | unbound _ | unknownOperation _ | unknownNode => true
  | _ => false

end Fault

end Fluxion
