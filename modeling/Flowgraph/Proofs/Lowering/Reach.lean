import Flowgraph.Expr.Code
import Flowgraph.Proofs.Graph.Lines
import Flowgraph.Proofs.Graph.Slots
import Flowgraph.Proofs.Lowering.Balance

/-! # Without jumps there is no dead code

From the first block of a tree without jumps, control can come to every other block of it, and on to
what lies behind. So the search from its entry finds all its blocks, and the slots that they name
are all that the tree names. With jumps some blocks may be out of reach, but control still stays
among the blocks of the tree. -/

namespace Flowgraph

namespace Expr

variable {g : Graph} {e : Expr} {start count more : Nat} {next : Option BlockId}
  {targets : LoopJump → Option BlockId}

/-! ## Blocks within reach -/

/-- From the block at `start`, `count` blocks from there on are within reach, and so is what lies
behind them. -/
structure Covered (g : Graph) (start count : Nat) (next : Option BlockId) : Prop where
  blocks : ∀ i < count, g.Reaches (.ofIndex start) (.ofIndex (start + i))
  onward : ∀ target, next = some target → g.Reaches (.ofIndex start) target

theorem Covered.append (first : Covered g start count (some (.ofIndex (start + count))))
    (second : Covered g (start + count) more next) : Covered g start (count + more) next where
  blocks := by
    intro i hi
    by_cases inFirst : i < count
    · exact first.blocks i inFirst
    · have inSecond := second.blocks (i - count) (by omega)
      rw [show start + count + (i - count) = start + i by omega] at inSecond
      exact (first.onward _ rfl).trans inSecond
  onward := fun target same => (first.onward _ rfl).trans (second.onward target same)

theorem covered_single {instrs : List Instr}
    (found : g.blocks[(BlockId.ofIndex start).index]? = some ⟨instrs, .toward next⟩) :
    Covered g start 1 next where
  blocks := by
    intro i hi
    obtain rfl : i = 0 := by omega
    exact .refl _
  onward := by
    rintro target rfl
    exact .step found (by simp [Block.successors, Edge.toward, Edge.targets]) (.refl target)

theorem covered_layoutAll_of {items : List Expr} (nonempty : items ≠ [])
    (ih : ∀ item ∈ items, ∀ start next, g.Holds start (item.layout start next targets) →
      Covered g start item.blockCount next)
    (holds : g.Holds start (layoutAll start next targets items)) :
    Covered g start (blockCountAll items) next := by
  induction items generalizing start with
  | nil => exact absurd rfl nonempty
  | cons item rest ihRest =>
      cases rest with
      | nil => exact ih item (by simp) start next holds
      | cons second rest =>
          obtain ⟨first, others⟩ := holds_cons_cons holds
          rw [blockCountAll_cons]
          exact (ih item (by simp) _ _ first).append
            (ihRest (by simp) (fun item m => ih item (by simp [m])) others)

/-- The parts of a loop are within reach of its condition. -/
theorem HoldsLoop.covered {cond body : Expr} {inside exit : Nat}
    (parts : HoldsLoop g cond body start inside exit next)
    (condCovered : Covered g start cond.blockCount (some (.ofIndex (exit + 1))))
    (bodyCovered : Covered g inside body.blockCount (some (.ofIndex start)))
    (first : inside = start + cond.blockCount) (second : exit = inside + body.blockCount) :
    Covered g start (cond.blockCount + body.blockCount + 2) next := by
  have branch : g.Reaches (.ofIndex start) (.ofIndex (exit + 1)) := condCovered.onward _ rfl
  have toBody : g.Reaches (.ofIndex start) (.ofIndex inside) :=
    branch.trans (.step parts.branchBlock (by simp [Block.successors, Edge.targets]) (.refl _))
  have toExit : g.Reaches (.ofIndex start) (.ofIndex exit) :=
    branch.trans (.step parts.branchBlock (by simp [Block.successors, Edge.targets]) (.refl _))
  constructor
  · intro i hi
    by_cases inCond : i < cond.blockCount
    · exact condCovered.blocks i inCond
    by_cases inBody : i < cond.blockCount + body.blockCount
    · have reached := bodyCovered.blocks (i - cond.blockCount) (by omega)
      rw [show inside + (i - cond.blockCount) = start + i by omega] at reached
      exact toBody.trans reached
    obtain here | here : start + i = exit ∨ start + i = exit + 1 := by omega
    · rwa [here]
    · rwa [here]
  · exact fun target same => toExit.trans ((covered_single parts.exitBlock).onward target same)

theorem covered_of_holds (jumpless : e.isJumpless = true)
    (holds : g.Holds start (e.layout start next targets)) : Covered g start e.blockCount next := by
  induction e using inductionOnRole generalizing start next targets with
  | instr e instr own ih =>
      obtain ⟨operands, block⟩ := holds_of_ownInstr own holds
      rw [blockCount_of_ownInstr own]
      refine Covered.append ?_ (covered_single block)
      by_cases none : e.children = []
      · rw [none]
        exact ⟨fun i hi => absurd hi (Nat.not_lt_zero i), by rintro _ ⟨⟩; exact .refl _⟩
      · exact covered_layoutAll_of none (fun child m start next =>
          ih child m (isJumpless_of_mem_children jumpless m)) operands
  | seq id items ih =>
      cases items with
      | nil => exact covered_single holds.head
      | cons item rest =>
          rw [blockCount_seq_cons]
          exact covered_layoutAll_of (by simp) (fun item m start next =>
            ih item m (isJumpless_of_mem_children jumpless m)) holds
  | loop id cond body ihCond ihBody =>
      have parts := holdsLoop_of_holds holds
      rw [blockCount_loop]
      exact parts.covered
        (ihCond (isJumpless_of_mem_children jumpless (by simp [children])) parts.condHolds)
        (ihBody (isJumpless_of_mem_children jumpless (by simp [children])) parts.bodyHolds) rfl rfl
  | jump id kind => simp [isJumpless, postorder, isJump] at jumpless

/-- The graph has the blocks of the tree, with nothing behind it and no loop around it. -/
structure LaidOut (g : Graph) (start : Nat) (e : Expr) : Prop where
  holds : g.Holds start (e.layout start none noTargets)
  room : start + e.blockCount ≤ UInt32.size
  fits : start + e.blockCount ≤ g.size

theorem laidOut_append (room : (g.append (e.layout g.size none noTargets)).size ≤ UInt32.size) :
    LaidOut (g.append (e.layout g.size none noTargets)) g.size e := by
  have holds := Graph.holds_append room
  rw [Graph.size_append, length_layout] at room
  exact ⟨holds, room, by simp⟩

/-- What is within reach belongs to the tree. -/
theorem LaidOut.exists_of_reaches (laid : LaidOut g start e) {id : BlockId}
    (reaches : g.Reaches (.ofIndex start) id) : ∃ i < e.blockCount, id = .ofIndex (start + i) :=
  Expr.exists_of_reaches laid.holds reaches ⟨0, Nat.zero_lt_of_lt e.exitOffset_lt, rfl⟩

/-! ## Slots -/

theorem slots_eq_filterMap (e : Expr) : e.slots = e.instrs.filterMap Instr.slot? := by
  rw [slots, instrs, List.filterMap_filterMap]
  congr 1
  funext node
  cases node <;> rfl

theorem map_instrs_layoutAll_of {items : List Expr} (start : Nat) (next : Option BlockId)
    (ih : ∀ item ∈ items, ∀ start next,
      (item.layout start next targets).map Block.instrs = item.code) :
    (layoutAll start next targets items).map Block.instrs = items.flatMap code := by
  induction items generalizing start with
  | nil => rfl
  | cons item rest ihRest =>
      cases rest with
      | nil =>
          rw [List.flatMap_singleton]
          exact ih item (by simp) start next
      | cons second rest =>
          rw [layoutAll_cons_cons, List.map_append, ih item (by simp),
            ihRest _ fun item m => ih item (by simp [m]), ← List.flatMap_cons]

/-- A layout has the instructions of its tree, block by block. -/
theorem map_instrs_layout (e : Expr) (start : Nat) (next : Option BlockId)
    (targets : LoopJump → Option BlockId) :
    (e.layout start next targets).map Block.instrs = e.code := by
  induction e using inductionOnRole generalizing start next targets with
  | instr e instr own ih =>
      rw [layout_of_ownInstr _ _ _ own, List.map_append, code_eq, ownCode_of_ownInstr own,
        map_instrs_layoutAll_of _ _ fun child m start next => ih child m start next targets]
      rfl
  | seq id items ih =>
      cases items with
      | nil => rfl
      | cons item rest =>
          rw [code_eq, ownCode, List.append_nil]
          exact map_instrs_layoutAll_of start next fun item m start next =>
            ih item m start next targets
  | loop id cond body ihCond ihBody =>
      rw [layout, code_eq, List.map_append, List.map_append, ihCond, ihBody]
      simp [children, ownCode]
  | jump id kind => rfl

/-- The slots of a tree are those that the instructions of its blocks name. -/
theorem mem_slots_iff {slot : Slot} :
    slot ∈ e.slots ↔ ∃ block ∈ e.layout start next targets,
      ∃ instr ∈ block.instrs, instr.slot? = some slot := by
  rw [slots_eq_filterMap, ← flatten_code, ← map_instrs_layout e start next targets]
  simp only [List.mem_filterMap, List.mem_flatten, List.mem_map, exists_exists_and_eq_and]
  grind

section

variable {slot : Slot}

/-- What is named within reach is named in the tree. -/
theorem LaidOut.mem_slots (laid : LaidOut g start e) (names : g.Names (.ofIndex start) slot) :
    slot ∈ e.slots := by
  obtain ⟨id, block, reaches, found, named⟩ := names
  obtain ⟨i, hi, rfl⟩ := laid.exists_of_reaches reaches
  have here := List.getElem?_eq_getElem (by simpa using hi :
    i < (e.layout start none noTargets).length)
  have same := laid.holds i _ here
  rw [found, Option.some.injEq] at same
  exact mem_slots_iff.mpr ⟨block, same ▸ List.getElem_mem _, named⟩

theorem names_of_mem_slots (jumpless : e.isJumpless = true)
    (holds : g.Holds start (e.layout start next targets)) (m : slot ∈ e.slots) :
    g.Names (.ofIndex start) slot := by
  obtain ⟨block, m, named⟩ := mem_slots_iff.mp m
  obtain ⟨i, hi, rfl⟩ := List.mem_iff_getElem.mp m
  have reaches := (covered_of_holds jumpless holds).blocks i (by simpa using hi)
  exact ⟨_, _, reaches, holds i _ (List.getElem?_eq_getElem hi), named⟩

end

/-! ## The search -/

theorem LaidOut.inside (laid : LaidOut g start e) : g.Inside (.ofIndex start) := by
  have ⟨_, room, fits⟩ := laid
  intro target reaches
  obtain ⟨i, hi, rfl⟩ := laid.exists_of_reaches reaches
  rw [BlockId.index_ofIndex (by omega)]
  omega

/-- The search from the entry of a tree without jumps lists all its blocks. -/
theorem LaidOut.exists_reachable_perm (laid : LaidOut g start e) (jumpless : e.isJumpless = true) :
    ∃ order, g.reachable (.ofIndex start) = .ok order ∧
      order.toList.Perm ((List.range' start e.blockCount).map .ofIndex) := by
  obtain ⟨order, run, -⟩ := Graph.reachable_run laid.inside
  refine ⟨order, run, ?_⟩
  rw [List.perm_ext_iff_of_nodup (Graph.nodup_reachable run) (Graph.nodup_map_ofIndex laid.room)]
  intro id
  rw [Array.mem_toList_iff, Graph.mem_reachable_iff run, List.mem_map]
  constructor
  · intro reaches
    obtain ⟨i, hi, rfl⟩ := laid.exists_of_reaches reaches
    exact ⟨start + i, List.mem_range'_1.mpr (by omega), rfl⟩
  · intro listed
    obtain ⟨i, m, rfl⟩ := listed
    rw [List.mem_range'_1] at m
    have reaches := (covered_of_holds jumpless laid.holds).blocks (i - start) (by omega)
    rwa [Nat.add_sub_cancel' m.1] at reaches

end Expr

/-! ## Fragments and programs -/

namespace Arena

variable {arena : Arena} {id : ExprId} {e : Expr} {type : ValueType} {cx : Context}

/-- The search from the entry of a tree without jumps lists the appended blocks, each of them once,
and the slots collected there are those of the tree, one of each number. In a finished program,
whatever jumps it has, no other slots are collected: if all slots of the tree were handed out by the
allocator of the context, the program has them among its slots. -/
theorem reachable_lower_of_jumpless (found : arena.lookup id = .ok (e, type)) :
    (e.isJumpless = true → ((arena.lower id).after cx).graph.size ≤ UInt32.size →
      ∃ fragment after order named, arena.lower id cx = .ok fragment after ∧
        after.graph.reachable fragment.entry = .ok order ∧
        order.toList.Perm
          ((List.range' cx.graph.size (after.graph.size - cx.graph.size)).map .ofIndex) ∧
        fragment.exit ∈ order ∧
        after.graph.slotsNamed fragment.entry = .ok named ∧ (∀ slot ∈ named, slot ∈ e.slots) ∧
        (named.map Slot.id).Nodup ∧
        ∀ number, number ∈ named.map Slot.id ↔ ∃ slot ∈ e.slots, slot.id = number) ∧
    ∀ program, arena.compile id cx = .ok program → program.graph.size ≤ UInt32.size →
      ∃ named, program.graph.slotsNamed program.root.entry = .ok named ∧
        (∀ slot ∈ named, slot ∈ e.slots) ∧
        ((∀ slot ∈ e.slots, slot ∈ cx.slots.allocated) →
          ∀ slot ∈ named, slot ∈ program.slots) := by
  constructor
  · intro jumpless room
    rw [lower_of_lookup found] at room ⊢
    have lowered := e.lower_run cx room fun _ => Expr.strayJumps_of_isJumpless jumpless
    rw [Action.after_of_ok lowered] at room
    have laid := Expr.laidOut_append room
    obtain ⟨order, run, listed⟩ := laid.exists_reachable_perm jumpless
    obtain ⟨named, collected, collects⟩ := Graph.exists_slotsNamed laid.inside
    have own := collects.congr fun slot =>
      ⟨laid.mem_slots, Expr.names_of_mem_slots jumpless laid.holds⟩
    refine ⟨_, _, order, named, lowered, run, ?_, ?_, collected, own.sound, own.nodup_ids,
      own.mem_ids_iff⟩
    · rwa [Context.size_grown, Expr.length_layout, Nat.add_sub_cancel_left]
    · have inside := e.exitOffset_lt
      rw [← Array.mem_toList_iff, listed.mem_iff]
      exact List.mem_map_of_mem (List.mem_range'_1.mpr (by omega))
  · intro program compiled room
    have closed := loops_of_compile found compiled room
    obtain ⟨after, lowered, -, same⟩ := compile_cases compiled
    rw [same] at room ⊢
    have small : ((arena.lower id).after cx).graph.size ≤ UInt32.size := by
      rwa [Action.after_of_ok lowered]
    obtain ⟨-, root, rfl⟩ := (lower_eq_ok_iff found closed small).mp lowered
    have laid := Expr.laidOut_append room
    obtain ⟨named, collected, collects⟩ := Graph.exists_slotsNamed laid.inside
    have sound := fun slot m => laid.mem_slots (collects.sound slot m)
    rw [root]
    exact ⟨named, collected, sound, fun own slot m => own slot (sound slot m)⟩

/-- A loop without jumps, lowered behind a block of an open loop; and then a program with a store
that is never run, because it comes behind a jump. -/
theorem reachable_lower_of_jumpless_loop :
    let asked : Slot := ⟨3, true⟩
    let given : Slot := ⟨256, false⟩
    let build : Action Arena ExprId := do
      let number ← slotNumber asked
      let loaded ← load (.indirect number) .any
      let body ← store (.direct given) loaded
      let leave ← jump .exit
      let dead ← seq [leave, body]
      let _ ← loop number body
      loop number dead
    let begin : Action Context BlockId := do
      Context.openLoop ⟨9⟩
      Context.addAnchor .exit ⟨0⟩
    let hand : Action Context Slot := Context.onSlots do
      let _ ← SlotAllocator.reserve 3
      SlotAllocator.fresh
    let arena := build.after {}
    let number : Instr := ⟨.int, [.slot asked], ⟨0⟩⟩
    let program : Program := ⟨⟨#[⟨[number], .jump ⟨6⟩⟩, ⟨[], .jump ⟨5⟩⟩, ⟨[number], .jump ⟨3⟩⟩,
      ⟨[⟨.loads, [], ⟨1⟩⟩], .jump ⟨4⟩⟩, ⟨[⟨.store, [.slot given], ⟨2⟩⟩], .jump ⟨0⟩⟩, ⟨[], .none⟩,
      ⟨[], .branch ⟨1⟩ ⟨5⟩⟩]⟩, ⟨⟨0⟩, ⟨5⟩⟩, #[asked, given]⟩
    (∃ fragment after order named,
      arena.lower ⟨5⟩ (begin.after (.new {})) = .ok fragment after ∧
        after.graph.reachable fragment.entry = .ok order ∧
        order.toList.Perm [⟨1⟩, ⟨2⟩, ⟨3⟩, ⟨4⟩, ⟨5⟩, ⟨6⟩] ∧ fragment.exit ∈ order ∧
        after.graph.slotsNamed fragment.entry = .ok named ∧
        (∀ slot ∈ named, slot ∈ [asked, asked, given]) ∧ (named.map Slot.id).Nodup ∧
        ∀ number, number ∈ named.map Slot.id ↔ number = 3 ∨ number = 256) ∧
    arena.compile ⟨6⟩ (hand.after (.new {})) = .ok program ∧
      ∃ named, program.graph.slotsNamed ⟨0⟩ = .ok named ∧
        (∀ slot ∈ named, slot ∈ [asked, asked, given]) ∧ ∀ slot ∈ named, slot ∈ program.slots := by
  intro asked given build begin hand arena number program
  let body : Expr := .store ⟨2⟩ given (.loadAt ⟨1⟩ (.slotNumber ⟨0⟩ asked) .any)
  have found : arena.lookup ⟨5⟩ =
    .ok (.loop ⟨5⟩ (.slotNumber ⟨0⟩ asked) body, .none) := rfl
  have room : ((arena.lower ⟨5⟩).after (begin.after (.new {}))).graph.size ≤ UInt32.size := by
    decide +kernel
  obtain ⟨fragment, after, order, named, lowered, run, listed, exit, collected, own, once, ids⟩ :=
    (reachable_lower_of_jumpless found).1 rfl room
  have size : after.graph.size = 7 := by
    rw [← Action.after_of_ok lowered]
    decide +kernel
  rw [size] at listed
  have foundDead : arena.lookup ⟨6⟩ = .ok (.loop ⟨6⟩ (.slotNumber ⟨0⟩ asked)
    (.seq ⟨4⟩ [.jump ⟨3⟩ .exit, body]), .none) := rfl
  have compiled : arena.compile ⟨6⟩ (hand.after (.new {})) = .ok program := by decide +kernel
  obtain ⟨namedDead, collectedDead, sound, allotted⟩ :=
    (reachable_lower_of_jumpless foundDead).2 program compiled (by decide)
  have allocated : ∀ slot ∈ [asked, asked, given],
      slot ∈ (hand.after (.new {})).slots.allocated := by decide +kernel
  have either (number : UInt32) : (∃ slot ∈ [asked, asked, given], slot.id = number) ↔
      number = 3 ∨ number = 256 := by
    simp [asked, given, eq_comm]
  exact ⟨⟨fragment, after, order, named, lowered, run, listed, exit, collected, own, once,
    fun number => (ids number).trans (either number)⟩,
    compiled, namedDead, collectedDead, sound, allotted allocated⟩

end Arena

end Flowgraph
