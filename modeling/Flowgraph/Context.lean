import Flowgraph.Graph
import Flowgraph.Slot.Allocator

/-! The state of one compilation: its slots, the graph under construction and the open loops.

A jump out of a loop is lowered before the place it goes to exists. It becomes an empty block, an
anchor, which its loop keeps until the loop is closed and the anchor gets its successor. -/

namespace Flowgraph

structure Options where
  /-- How many slot numbers, from zero on, a program may ask for. -/
  numSlots : UInt32 := 256
  deriving DecidableEq

/-- An open loop and the anchors of the jumps out of it, in the order in which they were lowered. -/
structure LoopFrame where
  node : ExprId
  exits : Array BlockId := #[]
  reentries : Array BlockId := #[]
  deriving DecidableEq

def LoopFrame.register (frame : LoopFrame) (kind : LoopJump) (anchor : BlockId) : LoopFrame :=
  match frame, kind with
  | ⟨node, exits, reentries⟩, .exit => ⟨node, exits.push anchor, reentries⟩
  | ⟨node, exits, reentries⟩, .reenter => ⟨node, exits, reentries.push anchor⟩

structure Context where
  options : Options
  slots : SlotAllocator
  graph : Graph
  /-- The open loops, the innermost first. -/
  loops : List LoopFrame

namespace Context

variable {α : Type}

def new (options : Options) : Context :=
  ⟨options, .new options.numSlots, {}, []⟩

def depth (cx : Context) : Nat :=
  cx.loops.length

/-! ## Parts -/

@[inline] def onSlots (action : Action SlotAllocator α) : Action Context α
  | ⟨options, slots, graph, loops⟩ =>
    match action slots with
    | .ok a slots => .ok a ⟨options, slots, graph, loops⟩
    | .error e slots => .error e ⟨options, slots, graph, loops⟩

@[inline] def onGraph (action : Action Graph α) : Action Context α
  | ⟨options, slots, graph, loops⟩ =>
    match action graph with
    | .ok a graph => .ok a ⟨options, slots, graph, loops⟩
    | .error e graph => .error e ⟨options, slots, graph, loops⟩

def addBlock (block : Block) : Action Context BlockId :=
  onGraph (Graph.addBlock block)

def setNext (source target : BlockId) : Action Context Unit :=
  onGraph (Graph.setNext source target)

/-! ## Loops -/

def openLoop (node : ExprId) : Action Context Unit
  | ⟨options, slots, graph, loops⟩ =>
    .ok () ⟨options, slots, graph, { node } :: loops⟩

/-- A new anchor, kept by the innermost loop. -/
def addAnchor (kind : LoopJump) (node : ExprId) : Action Context BlockId
  | ⟨options, slots, graph, []⟩ =>
    .error (.error (.jumpOutsideLoop kind node)) ⟨options, slots, graph, []⟩
  | ⟨options, slots, graph, frame :: outer⟩ =>
    let anchor := graph.nextId
    .ok anchor ⟨options, slots, graph.push .empty, frame.register kind anchor :: outer⟩

/-- Takes the innermost loop off. -/
def popLoop : Action Context LoopFrame
  | ⟨options, slots, graph, []⟩ =>
    .error (.error (.internal .noOpenLoop)) ⟨options, slots, graph, []⟩
  | ⟨options, slots, graph, frame :: outer⟩ => .ok frame ⟨options, slots, graph, outer⟩

/-- Closes the innermost loop: the anchors behind it go on at `exit`, those back to its condition at
`reentry`. A loop whose anchors cannot be given their successors is closed all the same. -/
def closeLoop (exit reentry : BlockId) : Action Context LoopFrame := do
  let frame ← popLoop
  frame.exits.toList.forM fun anchor => setNext anchor exit
  frame.reentries.toList.forM fun anchor => setNext anchor reentry
  return frame

/-! ## Elementary laws -/

theorem addBlock_run (block : Block) (cx : Context) :
    addBlock block cx = .ok cx.graph.nextId { cx with graph := cx.graph.push block } :=
  rfl

end Context

end Flowgraph
