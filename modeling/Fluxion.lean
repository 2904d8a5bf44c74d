import Fluxion.Reference
import Fluxion.Scalar.Double
import Fluxion.Session
import Fluxion.Shelf
import Fluxion.Tree.Traversal
import Fluxion.Proofs.Derivative
import Fluxion.Proofs.Planting
import Fluxion.Proofs.Copying
import Fluxion.Proofs.Derivation
import Fluxion.Proofs.Holdings
import Fluxion.Proofs.Seats
import Fluxion.Proofs.Passes
import Fluxion.Proofs.Simplification
import Fluxion.Proofs.StackLoops
import Fluxion.Proofs.ReadingFormulas
import Fluxion.Proofs.ReadingPolish
import Fluxion.Proofs.Reading
import Fluxion.Proofs.Differentiation
import Fluxion.Proofs.Expansion
import Fluxion.Proofs.Ownership
import Fluxion.Proofs.Runs
import Fluxion.Proofs.Accounting
import Fluxion.Proofs.PartialReal
import Fluxion.Proofs.Preservation
import Fluxion.Proofs.Grammar
import Fluxion.Proofs.PolishRoundTrip
import Fluxion.Proofs.FormulaRoundTrip
import Fluxion.Proofs.DoubleValues
import Fluxion.Proofs.Linked
import Fluxion.Proofs.NodeCalls
import Fluxion.Proofs.Refusals
import Fluxion.Proofs.TaylorSum
import Fluxion.Proofs.PlainSession
import Fluxion.Proofs.Sessions
import Fluxion.Proofs.Audit
import Fluxion.Proofs.GuardedDerivative
import Fluxion.Proofs.NormalForm
import Fluxion.Proofs.PolishGrammar
import Fluxion.Proofs.Evaluation
import Fluxion.Proofs.Recomputation
import Fluxion.Proofs.Refunds
import Fluxion.Proofs.Undefinedness
import Fluxion.Proofs.Transparency
import Fluxion.Proofs.Insensitivity
import Fluxion.Proofs.Completion
import Fluxion.Proofs.Matching
import Fluxion.Proofs.PlainTable
import Fluxion.Proofs.Shelves
import Fluxion.Proofs.Traversals
import Fluxion.Proofs.Records
import Fluxion.Proofs.SinglePass
