import Flowgraph.Graph

/-! Walks through a graph: the straight line through a fragment, and everything within reach of a
block. Both mark the blocks they have been at, so a cycle does not keep them going. -/

namespace Flowgraph.Graph

/-- Which blocks of a graph have been visited. -/
abbrev Marks (g : Graph) : Type :=
  Vector Bool g.blocks.size

/-- The number of blocks yet to be visited. -/
def Marks.left {g : Graph} (marks : Marks g) : Nat :=
  marks.count false

theorem Marks.left_set {g : Graph} (marks : Marks g) {i : Nat} (h : i < g.blocks.size)
    (fresh : ¬ marks[i] = true) : Marks.left (g := g) (marks.set i true) < marks.left := by
  have fresh : marks[i] = false := by simpa using fresh
  have pos : 0 < marks.count false := Vector.count_pos_iff.2 (fresh ▸ Vector.getElem_mem h)
  rw [left, left, Vector.count_set, fresh]
  change marks.count false - 1 + 0 < marks.count false
  omega

def Marks.none (g : Graph) : Marks g :=
  .replicate _ false

/-! ## Straight lines -/

/-- The instructions from `current` to the end of `exit`, behind those already collected. -/
def lineFrom (g : Graph) (exit : BlockId) (marks : Marks g) (current : BlockId)
    (found : Array Instr) : Except Failure (Array Instr) :=
  if h : current.index < g.blocks.size then
    if seen : marks[current.index] then
      .error (.error (.internal (.cycle current)))
    else
      let block := g.blocks[current.index]
      let found := found ++ block.instrs
      if current = exit then
        .ok found
      else
        match block.edge with
        | .jump target => lineFrom g exit (marks.set current.index true) target found
        | .none => .error (.error (.internal (.deadEnd current exit)))
        | .branch .. => .error (.error (.internal (.branchInside current)))
  else
    .error (.outOfRange g.blocks.size current.index)
termination_by marks.left
decreasing_by exact marks.left_set h seen

/-- The instructions of a fragment in the order in which they run, if control runs from its entry to
the first arrival at its exit without a choice. -/
def straightLine (g : Graph) (fragment : Fragment) : Except Failure (Array Instr) :=
  g.lineFrom fragment.exit (.none g) fragment.entry #[]

/-! ## Depth-first search -/

/-- Visits the pending blocks and what lies behind them, the first pending block first. -/
def visit (g : Graph) (marks : Marks g) (visited : Array BlockId) :
    List BlockId → Except Failure (Array BlockId)
  | [] => .ok visited
  | id :: pending =>
    if h : id.index < g.blocks.size then
      if seen : marks[id.index] then
        visit g marks visited pending
      else
        visit g (marks.set id.index true) (visited.push id)
          (g.blocks[id.index].successors ++ pending)
    else
      .error (.outOfRange g.blocks.size id.index)
termination_by pending => (marks.left, pending.length)
decreasing_by
  · exact .right _ (Nat.lt_succ_self _)
  · exact .left _ _ (marks.left_set h seen)

/-- The blocks within reach of `entry`, in depth-first preorder. -/
def reachable (g : Graph) (entry : BlockId) : Except Failure (Array BlockId) :=
  g.visit (.none g) #[] [entry]

/-- The blocks within reach of `entry`, each with its identity. -/
def reachableBlocks (g : Graph) (entry : BlockId) : Except Failure (List (BlockId × Block)) := do
  let ids ← g.reachable entry
  ids.toList.mapM fun id => return (id, ← g.lookup id)

/-- The slots that instructions within reach of `entry` name, one of each number, in the order in
which the search meets them. -/
def slotsNamed (g : Graph) (entry : BlockId) : Except Failure (List Slot) := do
  let blocks ← g.reachableBlocks entry
  let named := blocks.flatMap fun (_, block) => block.instrs.filterMap Instr.slot?
  return named.eraseDupsBy Slot.aliases

end Flowgraph.Graph
