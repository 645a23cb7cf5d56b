import Flowgraph.Context
import Flowgraph.Graph.Listing

/-! Finished programs: what a compilation hands on. -/

namespace Flowgraph

structure Program where
  graph : Graph
  root : Fragment
  /-- Every slot that was handed out, in order. -/
  slots : Array Slot
  deriving DecidableEq

/-- The blocks that the program can run, as text. -/
def Program.listing (program : Program) : Except Failure String :=
  program.graph.listing program.root.entry

/-- Ends a compilation. An open loop stands for a loop that was never given its exit. -/
def Context.finish (cx : Context) (root : Fragment) : Except Error Program :=
  match cx.loops with
  | [] => .ok ⟨cx.graph, root, cx.slots.allocated⟩
  | frame :: _ => .error (.internal (.loopsLeftOpen cx.depth frame.node))

theorem Context.finish_eq_ok_iff {cx : Context} {root : Fragment} {program : Program} :
    cx.finish root = .ok program ↔
      cx.loops = [] ∧ program = ⟨cx.graph, root, cx.slots.allocated⟩ := by
  unfold Context.finish
  split <;> simp_all [eq_comm]

end Flowgraph
