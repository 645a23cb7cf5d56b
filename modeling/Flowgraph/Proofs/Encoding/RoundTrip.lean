import Flowgraph.Program.Encoding
import Flowgraph.Proofs.Context.Slots
import Flowgraph.Proofs.Encoding.Exact
import Flowgraph.Proofs.Lowering.Closed

/-! # The round trip of programs

Decoding accepts the bytes that begin with the encoding of a program, and gives back that program.
The lists of a program have to be as long as a 64-bit count can say, and the machine that decodes
it needs room for its operands; for what lowering writes there is always room. -/

namespace Flowgraph

/-! ## Programs that can be written and read -/

/-- Every list is as long as a 64-bit count can say. -/
def Operand.Short : Operand → Prop
  | .bytes value => value.length < UInt64.size
  | _ => True

instance : DecidablePred Operand.Short
  | .bytes value => inferInstanceAs (Decidable (value.length < UInt64.size))
  | .uint _ => inferInstanceAs (Decidable True)
  | .slot _ => inferInstanceAs (Decidable True)

def Instr.Short (instr : Instr) : Prop :=
  instr.operands.length < UInt64.size ∧ ∀ operand ∈ instr.operands, operand.Short

def Block.Short (block : Block) : Prop :=
  block.instrs.length < UInt64.size ∧ ∀ instr ∈ block.instrs, instr.Short

def Program.Short (p : Program) : Prop :=
  (p.graph.size < UInt64.size ∧ ∀ block ∈ p.graph.blocks, block.Short) ∧
    p.slots.size < UInt64.size

instance : DecidablePred Instr.Short := fun _ => inferInstanceAs (Decidable (_ ∧ _))

instance : DecidablePred Block.Short := fun _ => inferInstanceAs (Decidable (_ ∧ _))

instance : DecidablePred Program.Short := fun _ => inferInstanceAs (Decidable (_ ∧ _))

/-- The memory grants the room that is made for the operands of each instruction. -/
def Program.RoomIn (memory : Memory) (p : Program) : Prop :=
  ∀ block ∈ p.graph.blocks, ∀ instr ∈ block.instrs,
    memory.makeRoom instr.operands.length = .ok ()

instance (memory : Memory) : DecidablePred (Program.RoomIn memory) := fun p =>
  inferInstanceAs (Decidable (∀ block ∈ p.graph.blocks, _))

namespace Format

/-! ## Formats of the parts -/

theorem exact_slot : slot.Exact fun _ => True :=
  ((exact_uint32.pair exact_bool).map (fun _ => rfl) fun _ _ => rfl).congr fun _ => by simp

theorem exact_exprId : exprId.Exact fun _ => True :=
  exact_uint32.map (fun _ => rfl) fun _ _ => rfl

theorem exact_blockId : blockId.Exact fun _ => True :=
  exact_uint32.map (fun _ => rfl) fun _ _ => rfl

def opcodeTag : Opcode → UInt32
  | .int => 0
  | .byte => 1
  | .load => 2
  | .store => 3
  | .loads => 4
  | .stores => 5

theorem exact_opcode : opcode.Exact fun _ => True := by
  apply exact_of_tag opcodeTag fun _ => []
  · intro a
    cases a <;> simp [opcode, opcodeTag]
  · rfl
  · intro t bytes a rest
    split
    all_goals simp only [Reader.pure_eq_ok_iff, Reader.throw_eq_ok_iff]
    all_goals cases a <;> simp_all [opcodeTag]

def operandTag : Operand → UInt32
  | .uint _ => 0
  | .bytes _ => 1
  | .slot _ => 2

def operandPayload : Operand → List UInt8
  | .uint value => uint64.write value
  | .bytes value => uint8.list.write value
  | .slot s => slot.write s

theorem exact_operand : operand.Exact Operand.Short := by
  have exact_bytes := exact_uint8.list fun _ => .ok ()
  apply exact_of_tag operandTag operandPayload
  · intro a
    cases a <;> rfl
  · rfl
  · intro t bytes a rest
    split
    all_goals simp only [Reader.bind_eq_ok_iff, Reader.pure_eq_ok_iff, Reader.throw_eq_ok_iff,
      exact_uint64 bytes, exact_bytes bytes, exact_slot bytes]
    all_goals cases a <;> simp_all [operandTag, operandPayload, Operand.Short]

def edgeTag : Edge → UInt32
  | .none => 0
  | .jump _ => 1
  | .branch _ _ => 2

def edgePayload : Edge → List UInt8
  | .none => []
  | .jump target => blockId.write target
  | .branch onTrue onFalse => blockId.write onTrue ++ blockId.write onFalse

theorem exact_edge : edge.Exact fun _ => True := by
  apply exact_of_tag edgeTag edgePayload
  · intro a
    cases a <;> simp [edge, edgeTag, edgePayload]
  · rfl
  · intro t bytes a rest
    split
    all_goals simp only [Reader.bind_eq_ok_iff, Reader.pure_eq_ok_iff, Reader.throw_eq_ok_iff,
      exact_blockId _]
    all_goals cases a <;> simp_all [edgeTag, edgePayload]

section

variable (makeRoom : Nat → Except DecodeError Unit)

theorem exact_instr : (instr makeRoom).Exact fun instr =>
    instr.Short ∧ makeRoom instr.operands.length = .ok () := by
  have parts := exact_opcode.pair ((exact_operand.list makeRoom).pair exact_exprId)
  refine (parts.map (fun _ => rfl) fun _ _ => rfl).congr ?_
  intro instr
  simp only [Instr.Short]
  tauto

theorem exact_block : (block makeRoom).Exact fun block =>
    block.Short ∧ ∀ instr ∈ block.instrs, makeRoom instr.operands.length = .ok () := by
  have parts := ((exact_instr makeRoom).list fun _ => .ok ()).pair exact_edge
  refine (parts.map (fun _ => rfl) fun _ _ => rfl).congr ?_
  intro block
  simp only [Block.Short, forall_and]
  tauto

theorem exact_graph : (graph makeRoom).Exact fun graph =>
    (graph.size < UInt64.size ∧ ∀ block ∈ graph.blocks, block.Short) ∧
      ∀ block ∈ graph.blocks, ∀ instr ∈ block.instrs,
        makeRoom instr.operands.length = .ok () := by
  have blocks := (exact_block makeRoom).array fun _ => .ok ()
  refine (blocks.map (fun _ => rfl) fun _ _ => rfl).congr ?_
  intro graph
  simp only [Graph.size, forall_and]
  tauto

theorem exact_fragment : fragment.Exact fun _ => True :=
  ((exact_blockId.pair exact_blockId).map (fun _ => rfl) fun _ _ => rfl).congr fun _ => by simp

theorem exact_program : (program makeRoom).Exact fun p =>
    p.Short ∧ ∀ block ∈ p.graph.blocks, ∀ instr ∈ block.instrs,
      makeRoom instr.operands.length = .ok () := by
  have parts := (exact_graph makeRoom).pair
    (exact_fragment.pair (exact_slot.array fun _ => .ok ()))
  refine (parts.map (fun _ => rfl) fun _ _ => rfl).congr ?_
  intro p
  simp only [Program.Short]
  tauto

/-! What is written does not depend on the room that there is for a reader. -/

theorem write_instr (instr : Instr) :
    (Format.instr makeRoom).write instr = Format.instr.write instr :=
  rfl

theorem write_block (block : Block) :
    (Format.block makeRoom).write block = Format.block.write block := by
  have same : (Format.instr makeRoom).write = Format.instr.write := funext (write_instr makeRoom)
  simp only [Format.block, map, pair, list, array, same]

theorem write_program (p : Program) : (program makeRoom).write p = p.encode := by
  have same : (Format.block makeRoom).write = Format.block.write := funext (write_block makeRoom)
  simp only [program, graph, map, pair, array, same, Program.encode]

end

end Format

/-! ## Programs -/

namespace Program

theorem decode_eq_ok_iff_read {memory : Memory} {bytes : List UInt8} {p : Program} :
    decode memory bytes = .ok p ↔
      ∃ rest, (Format.program memory.makeRoom).read bytes = .ok (p, rest) := by
  unfold decode
  cases (Format.program memory.makeRoom).read bytes with
  | error e => simp [Functor.map, Except.map]
  | ok found =>
      obtain ⟨q, rest⟩ := found
      simp [Functor.map, Except.map]

/-- Reading takes the encoding of the program off the front, byte for byte. -/
theorem read_eq_ok_iff {memory : Memory} {bytes rest : List UInt8} {p : Program} :
    (Format.program memory.makeRoom).read bytes = .ok (p, rest) ↔
      (p.Short ∧ p.RoomIn memory) ∧ bytes = p.encode ++ rest := by
  rw [Format.exact_program memory.makeRoom, Format.write_program, RoomIn]

theorem decode_eq_ok_iff {memory : Memory} {bytes : List UInt8} {p : Program} :
    decode memory bytes = .ok p ↔ (p.Short ∧ p.RoomIn memory) ∧ p.encode <+: bytes := by
  simp only [decode_eq_ok_iff_read, read_eq_ok_iff, exists_and_left]
  exact and_congr_right fun _ => exists_congr fun _ => eq_comm

theorem encode_injective {p q : Program} (hp : p.Short) (hq : q.Short)
    (same : p.encode = q.encode) : p = q := by
  have free := Format.exact_program fun _ => .ok ()
  have whole : Format.program.write p ++ [] = Format.program.write q ++ [] :=
    congrArg (· ++ []) same
  exact (free.injective ⟨hp, fun _ _ _ _ => rfl⟩ ⟨hq, fun _ _ _ _ => rfl⟩ whole).1

/-- Decoding gives a program back exactly where its encoding comes first and there is room for its
operands. So decoding undoes encoding, bytes behind the program do not matter, the bytes taken are
the encoding again, and no other program has that encoding. -/
theorem decode_iff_encode_isPrefix (p : Program) (short : p.Short) :
    (∀ memory bytes, decode memory bytes = .ok p ↔ p.RoomIn memory ∧ p.encode <+: bytes) ∧
      (∀ memory bytes rest, (Format.program memory.makeRoom).read bytes = .ok (p, rest) ↔
        p.RoomIn memory ∧ bytes = p.encode ++ rest) ∧
      (∀ bytes rest, Format.program.read bytes = .ok (p, rest) ↔ bytes = p.encode ++ rest) ∧
      ∀ q : Program, q.Short → q.encode = p.encode → q = p := by
  refine ⟨?_, ?_, ?_, ?_⟩
  · intro memory bytes
    rw [decode_eq_ok_iff, and_iff_right short]
  · intro memory bytes rest
    rw [read_eq_ok_iff, and_iff_right short]
  · intro bytes rest
    rw [Format.exact_program fun _ => .ok ()]
    simp only [short, implies_true, and_self, true_and]
    rfl
  · intro q hq same
    exact encode_injective hq short same

theorem decode_iff_encode_isPrefix_branching :
    let p : Program :=
      ⟨⟨#[⟨[⟨.store, [.slot ⟨3, true⟩, .bytes [1, 2]], ⟨4⟩⟩], .branch ⟨1⟩ ⟨0⟩⟩, .empty]⟩,
        ⟨⟨0⟩, ⟨1⟩⟩, #[⟨3, true⟩, ⟨9, false⟩]⟩
    p.Short ∧ p.RoomIn (.upTo 48) ∧ decode (.upTo 48) (p.encode ++ [255]) = .ok p := by
  intro p
  have short : p.Short := by decide
  have room : p.RoomIn (.upTo 48) := by decide +kernel
  have decoded := (decode_iff_encode_isPrefix p short).1 (.upTo 48) (p.encode ++ [255])
  exact ⟨short, room, decoded.mpr ⟨room, List.prefix_append _ _⟩⟩

/-! ## Compiled programs -/

section

variable {options : Options} {calls : List Context.Call} {arena : Arena} {id : ExprId} {p : Program}

/-- Lowering writes one operand at most, so a compiled program has room in every memory if the calls
before it were given no instruction with more. -/
theorem roomIn_of_compile
    (compiled : arena.compile id (Context.Call.runAll calls (.new options)) = .ok p)
    (few : ∀ call ∈ calls, ∀ instr ∈ call.given, instr.operands.length ≤ 1) (memory : Memory) :
    p.RoomIn memory := by
  obtain ⟨after, lowered, -, same⟩ := Arena.compile_cases compiled
  have behind : after = Context.Call.runAll (calls ++ [.lower arena id]) (.new options) := by
    rw [Context.Call.runAll_append, ← Action.after_of_ok lowered]
    exact (Context.after_discard _ _).symm
  intro block inGraph instr inBlock
  rw [same, behind] at inGraph
  rw [Memory.makeRoom, if_pos]
  rcases Context.Call.given_or_length_le_one (Graph.mem_code inGraph inBlock) with given | short
  · obtain ⟨call, called, given⟩ := given
    rcases List.mem_append.mp called with called | called
    · exact few call called instr given
    · cases List.mem_singleton.mp called
      cases given
  · exact short

/-- Such a program comes through its encoding unchanged. -/
theorem decode_encode_of_compile
    (compiled : arena.compile id (Context.Call.runAll calls (.new options)) = .ok p)
    (few : ∀ call ∈ calls, ∀ instr ∈ call.given, instr.operands.length ≤ 1) (short : p.Short)
    (memory : Memory) : decode memory p.encode = .ok p :=
  decode_eq_ok_iff.mpr ⟨⟨short, roomIn_of_compile compiled few memory⟩, List.prefix_rfl⟩

end

end Program

end Flowgraph
