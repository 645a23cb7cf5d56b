import Flowgraph.Graph.Search
import Flowgraph.Graph.Walk

/-! The walk along a straight line, one round after another, and how it may end.

The rules of its ends look at the graph alone: they know the way that was taken, but no marks. -/

namespace Flowgraph.Graph

/-- The walk before a round: at a block, behind those that are marked. -/
structure LineState (g : Graph) where
  marks : Marks g
  current : BlockId
  /-- The instructions of the blocks before the current one. -/
  found : Array Instr

namespace LineState

variable {g : Graph}

def start (g : Graph) (entry : BlockId) : LineState g :=
  ⟨.none g, entry, #[]⟩

/-- One round of the walk. It goes on at the next block, or it is over and has its result. -/
def round (exit : BlockId) (s : LineState g) : LineState g ⊕ Except Failure (Array Instr) :=
  if h : s.current.index < g.blocks.size then
    if s.marks[s.current.index] then
      .inr (.error (.error (.internal (.cycle s.current))))
    else
      let block := g.blocks[s.current.index]
      let found := s.found ++ block.instrs
      if s.current = exit then
        .inr (.ok found)
      else
        match block.edge with
        | .jump target => .inl ⟨s.marks.set s.current.index true, target, found⟩
        | .none => .inr (.error (.error (.internal (.deadEnd s.current exit))))
        | .branch .. => .inr (.error (.error (.internal (.branchInside s.current))))
  else
    .inr (.error (.outOfRange g.blocks.size s.current.index))

/-- The result of the walk, if it is over after so many rounds. -/
def resultWithin (exit : BlockId) : (rounds : Nat) → LineState g →
    Option (Except Failure (Array Instr))
  | 0, _ => none
  | rounds + 1, s =>
    match s.round exit with
    | .inl next => resultWithin exit rounds next
    | .inr result => some result

end LineState

/-! ## Rules -/

/-- Jumps lead from the entry of the fragment to `last`, by way of different blocks of which none is
the exit. -/
structure Approaches (g : Graph) (fragment : Fragment) (way : List (BlockId × Block))
    (last : BlockId) : Prop where
  follows : g.Follows fragment.entry way last
  apart : (way.map Prod.fst).Nodup
  before : fragment.exit ∉ way.map Prod.fst

/-- The walk to `exit` is over at `last`, where the way has led it, with the given result. -/
inductive Stops (g : Graph) (exit : BlockId) (way : List (BlockId × Block)) (last : BlockId) :
    Except Failure (Array Instr) → Prop where
  | arrived {block} (found : g.blocks[last.index]? = some block) (there : last = exit) :
      Stops g exit way last
        (.ok ((way.flatMap fun stop => stop.2.instrs) ++ block.instrs).toArray)
  | missing (outside : g.size ≤ last.index) :
      Stops g exit way last (.error (.outOfRange g.size last.index))
  /-- The way has come by this block before. -/
  | cycle (again : last ∈ way.map Prod.fst) :
      Stops g exit way last (.error (.error (.internal (.cycle last))))
  | deadEnd {block} (found : g.blocks[last.index]? = some block) (short : last ≠ exit)
      (edge : block.edge = .none) :
      Stops g exit way last (.error (.error (.internal (.deadEnd last exit))))
  | branch {block} (found : g.blocks[last.index]? = some block) (short : last ≠ exit)
      (edge : block.edge.isBranch = true) :
      Stops g exit way last (.error (.error (.internal (.branchInside last))))

end Flowgraph.Graph
