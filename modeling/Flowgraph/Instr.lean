import Flowgraph.Id
import Flowgraph.Slot
import Flowgraph.Hex

/-! Instructions of the stack machine, and their text. -/

namespace Flowgraph

inductive Opcode where
  /-- Push a number, or the number of a slot. -/
  | int
  /-- Push a byte string. -/
  | byte
  /-- Push the contents of the named slot. -/
  | load
  /-- Pop a value into the named slot. -/
  | store
  /-- Pop a slot number and push that slot's contents. -/
  | loads
  /-- Pop a value, then a slot number, and put the value into that slot. -/
  | stores
  deriving DecidableEq

def Opcode.mnemonic : Opcode → String
  | int => "int"
  | byte => "byte"
  | load => "load"
  | store => "store"
  | loads => "loads"
  | stores => "stores"

inductive Operand where
  | uint (value : UInt64)
  | bytes (value : List UInt8)
  | slot (s : Slot)
  deriving DecidableEq

namespace Operand

def text : Operand → String
  | uint value => toString value.toNat
  | bytes value => "0x" ++ String.ofList (Hex.encode value)
  | slot s => s.text

def slot? : Operand → Option Slot
  | slot s => some s
  | _ => none

/-- The bytes that room for so many operands takes: 24 for each, in powers of two. -/
def room (count : Nat) : Nat :=
  24 * count.nextPowerOfTwo

end Operand

structure Instr where
  opcode : Opcode
  operands : List Operand
  /-- The expression the instruction was lowered from. -/
  origin : ExprId
  deriving DecidableEq

namespace Instr

def text (instr : Instr) : String :=
  instr.opcode.mnemonic ++ String.join (instr.operands.map fun operand => " " ++ operand.text)

/-- The slot an instruction names: its first slot operand. -/
def slot? (instr : Instr) : Option Slot :=
  instr.operands.findSome? Operand.slot?

end Instr

end Flowgraph
