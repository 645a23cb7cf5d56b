import Flowgraph.Instr
import Flowgraph.Action

/-! Graphs of basic blocks. A block is a list of instructions and one edge, which says where control
goes behind the last of them. Blocks are never removed, and only a block that does not branch ever
gets another edge. -/

namespace Flowgraph

inductive Edge where
  /-- Control ends here, or the successor is not known yet. -/
  | none
  | jump (target : BlockId)
  /-- Pops a number; zero goes to `onFalse`. -/
  | branch (onTrue onFalse : BlockId)
  deriving DecidableEq

namespace Edge

/-- The targets of an edge, the one for a true test first. -/
def targets : Edge → List BlockId
  | none => []
  | jump target => [target]
  | branch onTrue onFalse => [onTrue, onFalse]

def isBranch : Edge → Bool
  | branch .. => true
  | _ => false

end Edge

structure Block where
  instrs : List Instr
  edge : Edge
  deriving DecidableEq

namespace Block

/-- A block without instructions, to be given a successor later. -/
def empty : Block :=
  ⟨[], .none⟩

/-- A block that does not branch. -/
def isSimple (block : Block) : Bool :=
  !block.edge.isBranch

/-- Where a simple block goes on. -/
def next : Block → Option BlockId
  | ⟨_, .jump target⟩ => some target
  | _ => none

def successors (block : Block) : List BlockId :=
  block.edge.targets

end Block

/-- A piece of a graph with one way in and one way out: control enters at the start of `entry` and
leaves at the end of `exit`. -/
structure Fragment where
  entry : BlockId
  exit : BlockId
  deriving DecidableEq

def Fragment.single (block : BlockId) : Fragment :=
  ⟨block, block⟩

structure Graph where
  blocks : Array Block := #[]
  deriving DecidableEq

namespace Graph

def size (g : Graph) : Nat :=
  g.blocks.size

/-- The identity that the next new block gets. -/
def nextId (g : Graph) : BlockId :=
  .ofIndex g.blocks.size

def push (g : Graph) (block : Block) : Graph :=
  ⟨g.blocks.push block⟩

def lookup (g : Graph) (id : BlockId) : Except Failure Block :=
  if h : id.index < g.blocks.size then
    .ok g.blocks[id.index]
  else
    .error (.outOfRange g.blocks.size id.index)

def addBlock (block : Block) : Action Graph BlockId
  | ⟨blocks⟩ =>
    let id := BlockId.ofIndex blocks.size
    .ok id ⟨blocks.push block⟩

/-- Makes `target` the successor of the simple block `source`, in place of any earlier one. -/
def setNext (source target : BlockId) : Action Graph Unit
  | ⟨blocks⟩ =>
    if h : source.index < blocks.size then
      let block := blocks[source.index]
      if block.isSimple then
        .ok () ⟨blocks.set source.index ⟨block.instrs, .jump target⟩⟩
      else
        .error (.error (.internal (.fallThroughOfBranch source))) ⟨blocks⟩
    else
      .error (.outOfRange blocks.size source.index) ⟨blocks⟩

/-! ## Elementary laws -/

theorem lookup_eq_ok_iff {g : Graph} {id : BlockId} {block : Block} :
    g.lookup id = .ok block ↔ g.blocks[id.index]? = some block := by
  unfold lookup
  split <;> simp_all

theorem setNext_run {source : BlockId} {g : Graph} {block : Block} (target : BlockId)
    (found : g.blocks[source.index]? = some block) (simple : block.isSimple = true) :
    setNext source target g =
      .ok () ⟨g.blocks.setIfInBounds source.index ⟨block.instrs, .jump target⟩⟩ := by
  obtain ⟨blocks⟩ := g
  obtain ⟨h, rfl⟩ := Array.getElem?_eq_some_iff.1 found
  simp only [setNext, dif_pos h, if_pos simple, Array.setIfInBounds]

theorem setNext_failure {source target : BlockId} {g after : Graph} {e : Failure}
    (h : setNext source target g = .error e after) : after = g := by
  cases g
  simp only [setNext] at h
  split at h
  · split at h <;> simp_all
  · simp_all

end Graph

end Flowgraph
