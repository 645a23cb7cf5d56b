import Flowgraph.Lowering

/-! Compilations as they come about: from a new context, by calls in any order. -/

namespace Flowgraph.Context

/-- A call that works on a context. -/
inductive Call where
  | openLoop (node : ExprId)
  | addAnchor (kind : LoopJump) (node : ExprId)
  | closeLoop (exit reentry : BlockId)
  | lower (arena : Arena) (id : ExprId)
  | chain (arena : Arena) (instr : Instr) (operands : List ExprId)
  | addSimple (instrs : List Instr)
  | addBranch (instrs : List Instr) (onTrue onFalse : BlockId)
  | setNext (source target : BlockId)

def Call.run : Call → Action Context Unit
  | openLoop node => Context.openLoop node
  | addAnchor kind node => discard (Context.addAnchor kind node)
  | closeLoop exit reentry => discard (Context.closeLoop exit reentry)
  | lower arena id => discard (arena.lower id)
  | chain arena instr operands => discard (arena.chain instr operands)
  | addSimple instrs => discard (addBlock ⟨instrs, .none⟩)
  | addBranch instrs onTrue onFalse => discard (addBlock ⟨instrs, .branch onTrue onFalse⟩)
  | setNext source target => Context.setNext source target

/-- The instructions that a call is given to put into the graph. -/
def Call.given : Call → List Instr
  | chain _ instr _ => [instr]
  | addSimple instrs | addBranch instrs _ _ => instrs
  | openLoop _ | addAnchor .. | closeLoop .. | lower .. | setNext .. => []

/-- The contexts that calls lead to from a new one, whether they fail or not. -/
inductive Reached (options : Options) : Context → Prop where
  | new : Reached options (.new options)
  | call {cx} (before : Reached options cx) (call : Call) : Reached options (call.run.after cx)

end Flowgraph.Context
