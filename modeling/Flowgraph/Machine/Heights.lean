import Flowgraph.Machine

/-! The operand stack, seen only by its height. -/

namespace Flowgraph

/-- How many values an instruction takes off the operand stack. -/
def Opcode.pops : Opcode → Nat
  | int | byte | load => 0
  | store | loads => 1
  | stores => 2

/-- How many values it puts there. -/
def Opcode.pushes : Opcode → Nat
  | int | byte | load | loads => 1
  | store | stores => 0

/-- Height changes from `before` to `after` when some values are popped and then some pushed, if the
values are there; what lies below `floor` is out of reach. -/
def heightAfter (floor pops pushes before : Nat) : Option Nat :=
  if floor + pops ≤ before then some (before - pops + pushes) else none

/-- The machine that keeps the height of the operand stack and is stuck where a value below `floor`
would be popped. Its branch test pops one value and may come out either way. -/
def Machine.heights (floor : Nat) : Machine Nat where
  step instr := heightAfter floor instr.opcode.pops instr.opcode.pushes
  test _ := heightAfter floor 1 0

end Flowgraph
