import Flowgraph.Expr.Arena

/-! Arenas as they come about: from nothing, by calls that add one node each. -/

namespace Flowgraph.Arena

/-- A call of one of the operations that build a node. -/
inductive Call where
  | int (value : UInt64)
  | bytes (value : List UInt8)
  | seq (items : List ExprId)
  | loop (cond body : ExprId)
  | jump (kind : LoopJump)
  | slotNumber (slot : Slot)
  | load (target : Target) (type : ValueType)
  | store (target : Target) (value : ExprId)
  | storeTop (slot : Slot)
  | storeOrTop (target : Target) (value : Option ExprId)

def Call.run : Call → Action Arena ExprId
  | int value => Arena.int value
  | bytes value => Arena.bytes value
  | seq items => Arena.seq items
  | loop cond body => Arena.loop cond body
  | jump kind => Arena.jump kind
  | slotNumber slot => Arena.slotNumber slot
  | load target type => Arena.load target type
  | store target value => Arena.store target value
  | storeTop slot => Arena.storeTop slot
  | storeOrTop target value => Arena.storeOrTop target value

/-- The arenas that calls lead to, whatever expressions they name and whether they fail or not. -/
inductive Built : Arena → Prop where
  | empty : Built {}
  | call {arena} (before : Built arena) (call : Call) : Built (call.run.after arena)

end Flowgraph.Arena
