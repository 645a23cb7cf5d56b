import Flowgraph.Graph

/-! Rules of the walks, without marks or stacks: which blocks are within reach of another, the order
of the recursive depth-first search, and the way that jumps alone lead. -/

namespace Flowgraph.Graph

/-- `target` can be reached from `source` along edges. -/
inductive Reaches (g : Graph) : (source target : BlockId) → Prop where
  | refl (id) : Reaches g id id
  | step {source middle target block} (found : g.blocks[source.index]? = some block)
      (edge : middle ∈ block.successors) (rest : Reaches g middle target) :
      Reaches g source target

mutual

/-- The recursive search from a block. It adds the block to those visited so far, and then all that
it finds behind the block's successors, one after another; a block visited before adds nothing. -/
inductive Explores (g : Graph) : List BlockId → BlockId → List BlockId → Prop where
  | known {visited id} (known : id ∈ visited) : Explores g visited id visited
  | new {visited id block after} (fresh : id ∉ visited)
      (found : g.blocks[id.index]? = some block)
      (behind : ExploresAll g (visited ++ [id]) block.successors after) :
      Explores g visited id after

inductive ExploresAll (g : Graph) : List BlockId → List BlockId → List BlockId → Prop where
  | nil (visited) : ExploresAll g visited [] visited
  | cons {visited id rest middle after} (first : Explores g visited id middle)
      (others : ExploresAll g middle rest after) : ExploresAll g visited (id :: rest) after

end

/-- Jumps lead from `source` to `target` through the listed blocks, of which `target` itself is not
one. -/
inductive Follows (g : Graph) : (source : BlockId) → List (BlockId × Block) →
    (target : BlockId) → Prop where
  | refl (id) : Follows g id [] id
  | jump {source block next way target} (found : g.blocks[source.index]? = some block)
      (edge : block.edge = .jump next) (rest : Follows g next way target) :
      Follows g source ((source, block) :: way) target

/-! ## Elementary laws -/

theorem Reaches.trans {g : Graph} {a b c : BlockId} (hab : g.Reaches a b) (hbc : g.Reaches b c) :
    g.Reaches a c := by
  induction hab with
  | refl => exact hbc
  | step found edge _ ih => exact .step found edge (ih hbc)

end Flowgraph.Graph
