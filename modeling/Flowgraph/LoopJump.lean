/-! The jumps that a loop's condition and body may take. -/

namespace Flowgraph

/-- A jump ends the innermost loop, or goes back to its condition. -/
inductive LoopJump where
  | exit
  | reenter
  deriving DecidableEq

/-- The word a programmer writes for the jump. -/
def LoopJump.keyword : LoopJump → String
  | exit => "break"
  | reenter => "continue"

end Flowgraph
