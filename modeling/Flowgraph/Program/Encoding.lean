import Flowgraph.Program
import Flowgraph.Format

/-! The binary form in which a program is handed on: the blocks, the root and the slots. -/

namespace Flowgraph

/-- The memory of the machine that reads a program. -/
structure Memory where
  /-- Whether so many bytes of room can be had at once. -/
  grants : (size : Nat) → Bool

namespace Memory

def upTo (limit : Nat) : Memory :=
  ⟨fun size => size ≤ limit⟩

/-- Makes room for operands before the first of them is read. One operand has its place in the
instruction itself. Nothing takes half of the bytes that a 64-bit word can count, whatever the
memory. -/
def makeRoom (memory : Memory) (count : Nat) : Except DecodeError Unit :=
  let size := Operand.room count
  if count ≤ 1 then
    .ok ()
  else if 0x8000000000000000 ≤ size then
    .error .capacityOverflow
  else if memory.grants size then
    .ok ()
  else
    .error (.outOfMemory size)

end Memory

namespace Format

def slot : Format Slot :=
  (uint32.pair bool).map (fun (id, reserved) => ⟨id, reserved⟩) fun slot => (slot.id, slot.reserved)

def exprId : Format ExprId :=
  uint32.map ExprId.mk ExprId.val

def blockId : Format BlockId :=
  uint32.map BlockId.mk BlockId.val

def opcode : Format Opcode where
  write
    | .int => tag.write 0
    | .byte => tag.write 1
    | .load => tag.write 2
    | .store => tag.write 3
    | .loads => tag.write 4
    | .stores => tag.write 5
  read := do
    match ← tag.read with
    | 0 => return .int
    | 1 => return .byte
    | 2 => return .load
    | 3 => return .store
    | 4 => return .loads
    | 5 => return .stores
    | found => throw (.invalidTag found 6)

def operand : Format Operand where
  write
    | .uint value => tag.write 0 ++ uint64.write value
    | .bytes value => tag.write 1 ++ uint8.list.write value
    | .slot s => tag.write 2 ++ slot.write s
  read := do
    match ← tag.read with
    | 0 => return .uint (← uint64.read)
    | 1 => return .bytes (← uint8.list.read)
    | 2 => return .slot (← slot.read)
    | found => throw (.invalidTag found 3)

def instr (makeRoom : (count : Nat) → Except DecodeError Unit := fun _ => .ok ()) : Format Instr :=
  (opcode.pair ((operand.list makeRoom).pair exprId)).map
    (fun (opcode, operands, origin) => ⟨opcode, operands, origin⟩)
    fun instr => (instr.opcode, instr.operands, instr.origin)

def edge : Format Edge where
  write
    | .none => tag.write 0
    | .jump target => tag.write 1 ++ blockId.write target
    | .branch onTrue onFalse => tag.write 2 ++ (blockId.write onTrue ++ blockId.write onFalse)
  read := do
    match ← tag.read with
    | 0 => return .none
    | 1 => return .jump (← blockId.read)
    | 2 => do
        let onTrue ← blockId.read
        let onFalse ← blockId.read
        return .branch onTrue onFalse
    | found => throw (.invalidTag found 3)

def block (makeRoom : (count : Nat) → Except DecodeError Unit := fun _ => .ok ()) : Format Block :=
  ((instr makeRoom).list.pair edge).map (fun (instrs, edge) => ⟨instrs, edge⟩)
    fun block => (block.instrs, block.edge)

def graph (makeRoom : (count : Nat) → Except DecodeError Unit := fun _ => .ok ()) : Format Graph :=
  (block makeRoom).array.map Graph.mk Graph.blocks

def fragment : Format Fragment :=
  (blockId.pair blockId).map (fun (entry, exit) => ⟨entry, exit⟩)
    fun fragment => (fragment.entry, fragment.exit)

/-- Reading a program, `makeRoom` is asked for room before the operands of each instruction. -/
def program (makeRoom : (count : Nat) → Except DecodeError Unit := fun _ => .ok ()) :
    Format Program :=
  ((graph makeRoom).pair (fragment.pair slot.array)).map
    (fun (graph, root, slots) => ⟨graph, root, slots⟩)
    fun program => (program.graph, program.root, program.slots)

end Format

namespace Program

def encode (program : Program) : List UInt8 :=
  Format.program.write program

/-- The program at the front of the bytes; what comes behind it does not matter. -/
def decode (memory : Memory) (bytes : List UInt8) : Except DecodeError Program :=
  Prod.fst <$> (Format.program memory.makeRoom).read bytes

end Program

end Flowgraph
