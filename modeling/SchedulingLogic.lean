import SchedulingLogic.Evaluation
import SchedulingLogic.Expr.Traversal
import SchedulingLogic.Interchange.Expr
import SchedulingLogic.Rendering
import SchedulingLogic.Proofs.Walk
import SchedulingLogic.Proofs.Itinerary
import SchedulingLogic.Proofs.Typing
import SchedulingLogic.Proofs.Events
import SchedulingLogic.Proofs.Json.Rereading
import SchedulingLogic.Proofs.Interchange.RoundTrip
import SchedulingLogic.Proofs.Bracketing
import SchedulingLogic.Proofs.Interchange.Spelling
import SchedulingLogic.Proofs.Interchange.Canonical
import SchedulingLogic.Proofs.Rendering.Infix
import SchedulingLogic.Proofs.Rendering.Function
import SchedulingLogic.Proofs.Rendering.Comparison
import SchedulingLogic.Proofs.Rendering.Symbols
import SchedulingLogic.Proofs.Preorder.Decoding
import SchedulingLogic.Proofs.Preorder.Layout
import SchedulingLogic.Proofs.Depth
import SchedulingLogic.Proofs.Flattening
import SchedulingLogic.Proofs.Rebuilding
import SchedulingLogic.Proofs.Substitution
import SchedulingLogic.Proofs.Writes
import SchedulingLogic.Proofs.Observation
import SchedulingLogic.Proofs.Extension
import SchedulingLogic.Proofs.Chains
import SchedulingLogic.Proofs.TimeShift
import SchedulingLogic.Proofs.Labels
import SchedulingLogic.Proofs.Combinators
import SchedulingLogic.Proofs.Causes
import SchedulingLogic.Proofs.Negation
import SchedulingLogic.Proofs.Precedence
import SchedulingLogic.Proofs.Relaxation
