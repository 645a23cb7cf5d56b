import Flowgraph.Proofs.Graph.Slots
import Flowgraph.Proofs.Lowering.Emission

/-! # Slots behind the first operand

An instruction names its first slot operand, and that is all that the collection of slots looks at.
Lowering writes no instruction with more than one operand. So what the collection misses in a graph
that is built by calls are slots of instructions that one of the calls was given. -/

namespace Flowgraph

/-! ## Slots among operands -/

namespace Instr

variable {instr : Instr} {slot : Slot}

/-- The instruction names the slot operand that has no other in front of it. -/
theorem slot?_eq_some_iff :
    instr.slot? = some slot ↔ ∃ front back,
      instr.operands = front ++ .slot slot :: back ∧ ∀ other, .slot other ∉ front := by
  rw [slot?, List.findSome?_eq_some_iff]
  constructor
  · intro first
    obtain ⟨front, operand, back, split, named, none⟩ := first
    cases operand with
    | uint value => cases named
    | bytes value => cases named
    | slot same =>
        cases named
        exact ⟨front, back, split, fun other m => nomatch none _ m⟩
  · intro first
    obtain ⟨front, back, split, none⟩ := first
    refine ⟨front, .slot slot, back, split, rfl, fun operand m => ?_⟩
    cases operand with
    | uint value => rfl
    | bytes value => rfl
    | slot other => exact absurd m (none other)

theorem slot?_of_length_le_one (short : instr.operands.length ≤ 1)
    (m : .slot slot ∈ instr.operands) : instr.slot? = some slot := by
  obtain ⟨front, back, split⟩ := List.append_of_mem m
  have none : front = [] := by
    rw [split, List.length_append, List.length_cons] at short
    exact List.eq_nil_of_length_eq_zero (by omega)
  exact slot?_eq_some_iff.mpr ⟨front, back, split, by simp [none]⟩

end Instr

theorem Expr.length_operands_le_one {e : Expr} {instr : Instr} (own : e.ownInstr = some instr) :
    instr.operands.length ≤ 1 := by
  cases e <;> cases own <;> simp

/-! ## Instructions within reach -/

namespace Graph

variable {g : Graph} {entry : BlockId} {slot : Slot} {instr : Instr} {number : UInt32}
  {P : Instr → Prop}

/-- The instruction stands in a block within reach of the entry. -/
def WithinReach (g : Graph) (entry : BlockId) (instr : Instr) : Prop :=
  ∃ id block, g.Reaches entry id ∧ g.blocks[id.index]? = some block ∧ instr ∈ block.instrs

/-- A slot of the number is an operand of an instruction within reach, in whatever position. -/
def Mentions (g : Graph) (entry : BlockId) (number : UInt32) : Prop :=
  ∃ instr slot, g.WithinReach entry instr ∧ .slot slot ∈ instr.operands ∧ slot.id = number

/-- A slot of the number is an operand of an instruction within reach, with no slot operand in front
of it. -/
def MentionsFirst (g : Graph) (entry : BlockId) (number : UInt32) : Prop :=
  ∃ instr front slot back, g.WithinReach entry instr ∧
    instr.operands = front ++ .slot slot :: back ∧ (∀ other, .slot other ∉ front) ∧
    slot.id = number

theorem MentionsFirst.mentions (first : g.MentionsFirst entry number) :
    g.Mentions entry number := by
  obtain ⟨instr, front, slot, back, within, split, -, same⟩ := first
  exact ⟨instr, slot, within, by simp [split], same⟩

theorem WithinReach.mentionsFirst (within : g.WithinReach entry instr)
    (named : instr.slot? = some slot) : g.MentionsFirst entry slot.id := by
  obtain ⟨front, back, split, none⟩ := Instr.slot?_eq_some_iff.mp named
  exact ⟨instr, front, slot, back, within, split, none, rfl⟩

theorem mentionsFirst_iff :
    g.MentionsFirst entry number ↔ ∃ slot, g.Names entry slot ∧ slot.id = number := by
  constructor
  · intro first
    obtain ⟨instr, front, slot, back, ⟨id, block, reaches, found, m⟩, split, none, same⟩ := first
    have named := Instr.slot?_eq_some_iff.mpr ⟨front, back, split, none⟩
    exact ⟨slot, ⟨id, block, reaches, found, instr, m, named⟩, same⟩
  · intro named
    obtain ⟨slot, ⟨id, block, reaches, found, instr, m, named⟩, rfl⟩ := named
    exact WithinReach.mentionsFirst ⟨id, block, reaches, found, m⟩ named

/-- The collection lists the numbers of the first slot operands, each once. -/
theorem exists_slotsNamed_first (inside : g.Inside entry) :
    ∃ named, g.slotsNamed entry = .ok named ∧ (named.map Slot.id).Nodup ∧
      ∀ number, number ∈ named.map Slot.id ↔ g.MentionsFirst entry number := by
  obtain ⟨named, run, collects⟩ := exists_slotsNamed inside
  refine ⟨named, run, collects.nodup_ids, fun number => ?_⟩
  rw [collects.mem_ids_iff, mentionsFirst_iff]

theorem mem_code {block : Block} (inGraph : block ∈ g.blocks) (inBlock : instr ∈ block.instrs) :
    instr ∈ g.code.flatten :=
  List.mem_flatten.mpr
    ⟨block.instrs, List.mem_map_of_mem (Array.mem_toList_iff.mpr inGraph), inBlock⟩

theorem WithinReach.mem_code (within : g.WithinReach entry instr) : instr ∈ g.code.flatten := by
  obtain ⟨id, block, -, found, m⟩ := within
  exact Graph.mem_code (Array.mem_of_getElem? found) m

/-- Instructions come with a new block and are never changed. -/
theorem invariant_code (own : ∀ (e : Expr) (instr : Instr), e.ownInstr = some instr → P instr) :
    Invariant P fun g => ∀ instr ∈ g.code.flatten, P instr where
  push g block before given := by
    rw [code_push, List.flatten_concat]
    intro instr m
    exact (List.mem_append.mp m).elim (before instr) (given instr)
  setNext g source target before := by
    cases run : Graph.setNext source target g with
    | ok answer after => rwa [Action.after_of_ok run, code_setNext run]
    | error e after => rwa [Action.after_of_error run, setNext_failure run]
  own := own

end Graph

/-! ## Graphs that are built by calls -/

namespace Context

/-- An instruction that no call was given comes of a tree and has one operand at most. -/
theorem Call.given_or_length_le_one {options : Options} {calls : List Call} {instr : Instr}
    (m : instr ∈ (runAll calls (.new options)).graph.code.flatten) :
    (∃ call ∈ calls, instr ∈ call.given) ∨ instr.operands.length ≤ 1 := by
  have invariant := Graph.invariant_code
    (P := fun instr => (∃ call ∈ calls, instr ∈ call.given) ∨ instr.operands.length ≤ 1)
    fun e instr own => .inr (Expr.length_operands_le_one own)
  have none : ∀ instr ∈ (Context.new options).graph.code.flatten,
      (∃ call ∈ calls, instr ∈ call.given) ∨ instr.operands.length ≤ 1 := by
    simp [Context.new, Graph.code]
  exact invariant.runAll (fun call m instr given => .inl ⟨call, m, given⟩) none instr m

/-- In a graph that is built by calls, the slots collected from an entry are those that stand first
among the slot operands of an instruction within reach, one of each number. No slot operand within
reach is missed if and only if each slot operand of an instruction that a call was given stands
first in some instruction within reach. -/
theorem slotsNamed_behind_calls (options : Options) (calls : List Call) {entry : BlockId}
    (inside : (Call.runAll calls (.new options)).graph.Inside entry) :
    let g := (Call.runAll calls (.new options)).graph
    ∃ named, g.slotsNamed entry = .ok named ∧ (named.map Slot.id).Nodup ∧
      (∀ number, number ∈ named.map Slot.id ↔ g.MentionsFirst entry number) ∧
      ((∀ number, number ∈ named.map Slot.id ↔ g.Mentions entry number) ↔
        ∀ call ∈ calls, ∀ instr ∈ call.given, g.WithinReach entry instr →
          ∀ slot, .slot slot ∈ instr.operands → g.MentionsFirst entry slot.id) := by
  intro g
  obtain ⟨named, run, once, listed⟩ := Graph.exists_slotsNamed_first inside
  refine ⟨named, run, once, listed, ?_, ?_⟩
  · intro all call _ instr _ within slot m
    exact (listed slot.id).mp ((all slot.id).mpr ⟨instr, slot, within, m, rfl⟩)
  · intro shown number
    rw [listed]
    refine ⟨Graph.MentionsFirst.mentions, ?_⟩
    intro mentioned
    obtain ⟨instr, slot, within, m, rfl⟩ := mentioned
    rcases Call.given_or_length_le_one within.mem_code with ⟨call, called, given⟩ | short
    · exact shown call called instr given within slot m
    · exact within.mentionsFirst (Instr.slot?_of_length_le_one short m)

/-- A second slot operand that is collected because a tree loads from the same slot. -/
theorem slotsNamed_behind_calls_loaded :
    let arena := Action.afterSeries ([.load (.direct ⟨256, false⟩) .any].map Arena.Call.run) {}
    let calls : List Call := [
      .addSimple [⟨.int, [.uint 1, .slot ⟨3, true⟩, .slot ⟨256, false⟩], ⟨7⟩⟩],
      .chain arena ⟨.stores, [.bytes []], ⟨8⟩⟩ [⟨0⟩], .addBranch [] ⟨0⟩ ⟨1⟩, .setNext ⟨0⟩ ⟨3⟩]
    let g := (Call.runAll calls (.new {})).graph
    ∃ named, g.slotsNamed ⟨0⟩ = .ok named ∧ (named.map Slot.id).Nodup ∧
      ∀ number, number ∈ named.map Slot.id ↔ g.Mentions ⟨0⟩ number := by
  intro arena calls g
  let both : Instr := ⟨.int, [.uint 1, .slot ⟨3, true⟩, .slot ⟨256, false⟩], ⟨7⟩⟩
  let loaded : Instr := ⟨.load, [.slot ⟨256, false⟩], ⟨0⟩⟩
  have graph : g = ⟨#[⟨[both], .jump ⟨3⟩⟩, ⟨[loaded], .jump ⟨2⟩⟩,
      ⟨[⟨.stores, [.bytes []], ⟨8⟩⟩], .none⟩, ⟨[], .branch ⟨0⟩ ⟨1⟩⟩]⟩ := by decide +kernel
  have closed : g.Closed := by
    rw [graph]
    simp only [Graph.Closed]
    decide
  have inside : g.Inside ⟨0⟩ := closed.inside (by rw [graph]; decide)
  have atEntry : g.blocks[0]? = some ⟨[both], .jump ⟨3⟩⟩ := by rw [graph]; rfl
  have atLoad : g.blocks[1]? = some ⟨[loaded], .jump ⟨2⟩⟩ := by rw [graph]; rfl
  have atBranch : g.blocks[3]? = some ⟨[], .branch ⟨0⟩ ⟨1⟩⟩ := by rw [graph]; rfl
  have toBranch : g.Reaches ⟨0⟩ ⟨3⟩ := .step atEntry (by decide) (.refl ⟨3⟩)
  have toLoad : g.Reaches ⟨3⟩ ⟨1⟩ := .step atBranch (by decide) (.refl ⟨1⟩)
  have bothWithin : g.WithinReach ⟨0⟩ both := ⟨⟨0⟩, _, .refl _, atEntry, List.mem_cons_self⟩
  have loadedWithin : g.WithinReach ⟨0⟩ loaded :=
    ⟨⟨1⟩, _, toBranch.trans toLoad, atLoad, List.mem_cons_self⟩
  have first : g.MentionsFirst ⟨0⟩ 3 := bothWithin.mentionsFirst rfl
  have second : g.MentionsFirst ⟨0⟩ 256 := loadedWithin.mentionsFirst rfl
  have given : ∀ call ∈ calls, ∀ instr ∈ call.given, ∀ slot, .slot slot ∈ instr.operands →
      slot.id = 3 ∨ slot.id = 256 := by
    simp [calls, Call.given]
  obtain ⟨named, run, once, -, complete⟩ := slotsNamed_behind_calls {} calls inside
  refine ⟨named, run, once, complete.mpr ?_⟩
  intro call called instr own _ slot m
  rcases given call called instr own slot m with same | same
  · rwa [same]
  · rwa [same]

/-- The second slot operand of an instruction is missed. -/
theorem slotsNamed_misses_second :
    let load : Instr := ⟨.load, [.slot ⟨256, false⟩, .slot ⟨257, false⟩], ⟨0⟩⟩
    let g := (Call.runAll [.addSimple [load]] (.new {})).graph
    g.Inside ⟨0⟩ ∧ g.slotsNamed ⟨0⟩ = .ok [⟨256, false⟩] ∧ g.Mentions ⟨0⟩ 257 ∧
      257 ∉ [(⟨256, false⟩ : Slot)].map Slot.id := by
  intro load g
  have closed : g.Closed := by
    simp only [Graph.Closed]
    decide
  have found : g.blocks[0]? = some ⟨[load], .none⟩ := rfl
  have searched : g.reachable ⟨0⟩ = .ok #[⟨0⟩] :=
    Graph.reachable_eq_ok_iff.mpr (.new (by decide) found (.nil _))
  have collected : g.slotsNamed ⟨0⟩ = .ok [⟨256, false⟩] := by
    rw [Graph.slotsNamed, Graph.reachableBlocks, searched]
    rfl
  have within : g.WithinReach ⟨0⟩ load := ⟨⟨0⟩, _, .refl _, found, List.mem_cons_self⟩
  have second : .slot ⟨257, false⟩ ∈ load.operands := by decide
  exact ⟨closed.inside (by decide), collected, ⟨load, _, within, second, rfl⟩, by decide⟩

end Context

end Flowgraph
