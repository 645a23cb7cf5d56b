import Flowgraph.Context.History
import Flowgraph.Expr.Layout

/-! Which anchors a history of calls leaves to which of the open loops. -/

namespace Flowgraph

/-- All anchors that an open loop keeps. -/
def LoopFrame.anchors (frame : LoopFrame) : List BlockId :=
  frame.exits.toList ++ frame.reentries.toList

/-- At the place there is a block that does nothing and does not branch. -/
def Graph.BareAt (g : Graph) (id : BlockId) : Prop :=
  ∃ block, g.blocks[id.index]? = some block ∧ block.instrs = [] ∧ block.isSimple = true

/-- The trees of expressions, up to the first expression that is not in the arena. -/
def Arena.trees (arena : Arena) : List ExprId → List Expr
  | [] => []
  | id :: rest =>
    match arena.lookup id with
    | .ok (e, _) => e :: trees arena rest
    | .error _ => []

namespace Context

/-- The anchors that wait for their loops to be closed. -/
def pending (cx : Context) : List BlockId :=
  cx.loops.flatMap LoopFrame.anchors

namespace Call

/-- The anchors that a call makes for the innermost open loop, in the order in which it makes them.
A jump inside a loop that the call lowers as a whole is no concern of the loops around it. -/
def anchors (cx : Context) : Call → List (LoopJump × BlockId)
  | addAnchor kind _ => [(kind, cx.graph.nextId)]
  | lower arena id => Expr.anchorsAll cx.graph.size (arena.trees [id])
  | chain arena _ operands => Expr.anchorsAll cx.graph.size (arena.trees operands)
  | _ => []

/-- The context behind calls, whether they fail or not. -/
def runAll (calls : List Call) (cx : Context) : Context :=
  Action.afterSeries (calls.map run) cx

/-- The anchors that calls make while a given number of loops is open. -/
def anchorsAt (depth : Nat) : List Call → Context → List (LoopJump × BlockId)
  | [], _ => []
  | call :: rest, cx =>
    (if cx.depth = depth then call.anchors cx else []) ++
      anchorsAt depth rest (call.run.after cx)

/-- The call behind `before` opens a loop, and the loop stays open as long as `inside` runs. -/
structure Opens (cx : Context) (before : List Call) (node : ExprId) (inside : List Call) :
    Prop where
  stays : ∀ front back, inside = front ++ back →
    (runAll before cx).depth < (runAll (before ++ openLoop node :: front) cx).depth
  /-- In the end no other loop is open inside. -/
  innermost :
    (runAll (before ++ openLoop node :: inside) cx).depth = (runAll before cx).depth + 1

/-- The anchors made for the loop that the call behind `before` opens: those that are made while no
other loop is open inside. -/
def madeFor (cx : Context) (before : List Call) (node : ExprId) (inside : List Call) :
    List (LoopJump × BlockId) :=
  anchorsAt ((runAll before cx).depth + 1) inside (runAll (before ++ [openLoop node]) cx)

/-! ## Elementary laws -/

theorem runAll_append (calls more : List Call) (cx : Context) :
    runAll (calls ++ more) cx = runAll more (runAll calls cx) := by
  rw [runAll, List.map_append, Action.afterSeries_append, runAll, runAll]

end Call

end Context

end Flowgraph
