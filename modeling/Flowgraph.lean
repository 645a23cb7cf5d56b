import Flowgraph.Context.History
import Flowgraph.Expr.Construction
import Flowgraph.Expr.Eval
import Flowgraph.Expr.Layout
import Flowgraph.Expr.Typing
import Flowgraph.Graph.Search
import Flowgraph.Machine.Heights
import Flowgraph.Program.Encoding
import Flowgraph.Proofs.Encoding.Exact
import Flowgraph.Proofs.Encoding.RoundTrip
import Flowgraph.Proofs.Lowering.Wiring
import Flowgraph.Proofs.Lowering.Invariant
import Flowgraph.Proofs.Lowering.Growth
import Flowgraph.Proofs.Lowering.Outcome
import Flowgraph.Proofs.Graph.Paths
import Flowgraph.Proofs.Lowering.Meaning
import Flowgraph.Proofs.Graph.Search
import Flowgraph.Proofs.Lowering.Closed
import Flowgraph.Expr.Operands
import Flowgraph.Proofs.Expr.Typing
import Flowgraph.Proofs.Lowering.Balance
import Flowgraph.Proofs.Lowering.Anchors
import Flowgraph.Proofs.Lowering.Unwinding
import Flowgraph.Context.Anchors
import Flowgraph.Proofs.Context.Steps
import Flowgraph.Proofs.Context.Frames
import Flowgraph.Slot.History
import Flowgraph.Proofs.Slot.Requests
import Flowgraph.Proofs.Lowering.Appends
import Flowgraph.Graph.Shift
import Flowgraph.Proofs.Lowering.Shift
import Flowgraph.Expr.Tables
import Flowgraph.Proofs.Expr.Tables
import Flowgraph.Proofs.Expr.Filing
import Flowgraph.Expr.Code
import Flowgraph.Proofs.Graph.DepthFirst
import Flowgraph.Proofs.Lowering.Emission
import Flowgraph.Proofs.Graph.Lines
import Flowgraph.Proofs.Lowering.Straight
import Flowgraph.Proofs.Lowering.Effect
import Flowgraph.Graph.Rounds
import Flowgraph.Proofs.Graph.Rounds
import Flowgraph.Proofs.Graph.Slots
import Flowgraph.Proofs.Lowering.Reach
import Flowgraph.Proofs.Encoding.Truncation
import Flowgraph.Proofs.Graph.Listing
import Flowgraph.Proofs.Context.Slots
