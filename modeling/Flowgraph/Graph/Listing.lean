import Flowgraph.Graph.Walk

/-! The text of a graph: block after block in the order of the search from an entry, a line for the
block's name, one for each instruction and one for the edge. -/

namespace Flowgraph

def Edge.text : Edge → String
  | none => "end"
  | jump target => "jump " ++ target.text
  | branch onTrue onFalse => "branch " ++ onTrue.text ++ ", " ++ onFalse.text

/-- The lines of a block under its name. -/
def Block.lines (id : BlockId) (block : Block) : List String :=
  (id.text ++ ":") :: block.instrs.map (fun instr => "  " ++ instr.text) ++
    ["  " ++ block.edge.text]

def Graph.listing (g : Graph) (entry : BlockId) : Except Failure String := do
  let blocks ← g.reachableBlocks entry
  let lines := blocks.flatMap fun (id, block) => block.lines id
  return String.join (lines.map (· ++ "\n"))

end Flowgraph
