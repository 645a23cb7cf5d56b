import Flowgraph.Graph

/-! Pieces of graphs that are alike but for the place at which they start. -/

namespace Flowgraph

/-- The second block lies `d` places behind the first. -/
def BlockId.Shifted (d : Int) (a b : BlockId) : Prop :=
  (b.index : Int) = a.index + d

/-- Edges of one kind, with each target of the second `d` places behind that of the first. -/
inductive Edge.Shifted (d : Int) : Edge → Edge → Prop where
  | none : Shifted d .none .none
  | jump {target target'} (shifted : target.Shifted d target') :
      Shifted d (.jump target) (.jump target')
  | branch {onTrue onTrue' onFalse onFalse'} (shiftedTrue : onTrue.Shifted d onTrue')
      (shiftedFalse : onFalse.Shifted d onFalse') :
      Shifted d (.branch onTrue onFalse) (.branch onTrue' onFalse')

structure Block.Shifted (d : Int) (a b : Block) : Prop where
  instrs_eq : b.instrs = a.instrs
  edge : a.edge.Shifted d b.edge

structure Fragment.Shifted (d : Int) (a b : Fragment) : Prop where
  entry : a.entry.Shifted d b.entry
  exit : a.exit.Shifted d b.exit

end Flowgraph
