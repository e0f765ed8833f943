import ConstFlow.BitSet
import ConstFlow.Error
import ConstFlow.Event
import ConstFlow.Flow.Fact
import ConstFlow.Flow.FactMap
import ConstFlow.Flow.Potential
import ConstFlow.Flow.Solution
import ConstFlow.Flow.Solve
import ConstFlow.Flow.State
import ConstFlow.Flow.Transfer
import ConstFlow.Flow.Visits
import ConstFlow.Flow.Worklist
import ConstFlow.Fold.Options
import ConstFlow.Fold.Pass
import ConstFlow.Fold.Schedule
import ConstFlow.Fold.Simplify
import ConstFlow.Fold.Workspace
import ConstFlow.Func.Basic
import ConstFlow.Func.Edit
import ConstFlow.Func.Script
import ConstFlow.Func.Validity
import ConstFlow.Graph.Basic
import ConstFlow.Graph.Traversal
import ConstFlow.Journal
import ConstFlow.Op
import ConstFlow.Operand
import ConstFlow.Predicate
import ConstFlow.Proofs.AllOrNothing
import ConstFlow.Proofs.AnyOrder
import ConstFlow.Proofs.AuditTrail
import ConstFlow.Proofs.BitSet
import ConstFlow.Proofs.Bookkeeping
import ConstFlow.Proofs.ClaimFirst
import ConstFlow.Proofs.Comparison
import ConstFlow.Proofs.Construction
import ConstFlow.Proofs.ControlFlow
import ConstFlow.Proofs.Convergence
import ConstFlow.Proofs.DepthFirst
import ConstFlow.Proofs.Driver
import ConstFlow.Proofs.Edits
import ConstFlow.Proofs.Effort
import ConstFlow.Proofs.Evaluation
import ConstFlow.Proofs.Execution
import ConstFlow.Proofs.FailedPass
import ConstFlow.Proofs.Failure
import ConstFlow.Proofs.FiniteSet
import ConstFlow.Proofs.FoldedForm
import ConstFlow.Proofs.Folding
import ConstFlow.Proofs.FullScan
import ConstFlow.Proofs.Hearing
import ConstFlow.Proofs.History
import ConstFlow.Proofs.Idempotence
import ConstFlow.Proofs.Least
import ConstFlow.Proofs.Meaning
import ConstFlow.Proofs.Order
import ConstFlow.Proofs.Placement
import ConstFlow.Proofs.Planning
import ConstFlow.Proofs.Queues
import ConstFlow.Proofs.Quiescence
import ConstFlow.Proofs.Reachability
import ConstFlow.Proofs.Scheduling
import ConstFlow.Proofs.Simultaneous
import ConstFlow.Proofs.Stages
import ConstFlow.Proofs.Strict
import ConstFlow.Proofs.Transfer
import ConstFlow.Proofs.Transport
import ConstFlow.Proofs.Traversal
import ConstFlow.Proofs.Updates
import ConstFlow.Proofs.Users
import ConstFlow.Proofs.Validated
import ConstFlow.Proofs.WellFormed
