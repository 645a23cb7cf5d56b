import Flowgraph.Expr.Operands
import Flowgraph.Proofs.Lowering.Anchors
import Flowgraph.Proofs.Lowering.Outcome

/-! # Lowering only appends

Whether it succeeds or not, lowering leaves the blocks that were there alone, and of the open loops
it changes only the innermost, which gets one anchor for each jump that leaves the tree. -/

namespace Flowgraph

open Context

/-! ## What a context keeps when it grows -/

namespace Context

variable (cx : Context) (blocks : List Block) (made : List (LoopJump × BlockId))

theorem getElem?_grown_of_lt {i : Nat} (old : i < cx.graph.size) :
    (cx.grown blocks made).graph.blocks[i]? = cx.graph.blocks[i]? :=
  Array.getElem?_append_left old

theorem getElem?_grown_add (i : Nat) :
    (cx.grown blocks made).graph.blocks[cx.graph.size + i]? = blocks[i]? := by
  rw [grown, Graph.append, Graph.size, Array.getElem?_append_right (Nat.le_add_right _ i),
    Nat.add_sub_cancel_left, List.getElem?_toArray]

theorem depth_grown : (cx.grown blocks made).depth = cx.depth := by
  obtain ⟨options, slots, graph, loops⟩ := cx
  cases loops <;> rfl

end Context

/-! ## Jumps and their anchors -/

namespace Expr

/-- The anchor is the block of the jump, in a tree that is laid out from `start` on. -/
def AnchorOf (start : Nat) (e : Expr) (jump : LoopJump × ExprId) (anchor : LoopJump × BlockId) :
    Prop :=
  anchor.1 = jump.1 ∧
    ∃ place, anchor.2 = .ofIndex place ∧ PartAt start e place (.jump jump.2 jump.1)

variable {e : Expr} (start : Nat)

theorem anchorOf_anchorsAll_of {items : List Expr} (front : List Expr)
    (split : e.children = front ++ items)
    (ih : ∀ item ∈ items, ∀ start,
      List.Forall₂ (AnchorOf start item) item.strayJumps (item.anchors start)) :
    List.Forall₂ (AnchorOf start e) (strayJumpsAll items)
      (anchorsAll (start + blockCountAll front) items) := by
  induction items generalizing front with
  | nil => exact .nil
  | cons item rest ihRest =>
      have first := ih item (by simp) (start + blockCountAll front)
      have others := ihRest (front ++ [item]) (by simp [split]) fun item m => ih item (by simp [m])
      rw [blockCountAll_append, ← Nat.add_assoc] at others
      refine List.rel_append (first.imp ?_) others
      intro jump anchor of_
      obtain ⟨kind, place, here, inside⟩ := of_
      exact ⟨kind, place, here, .operand split inside⟩

/-- The jumps that leave a tree have one anchor each, in the order in which they are lowered. -/
theorem anchorOf_anchors (e : Expr) :
    List.Forall₂ (AnchorOf start e) e.strayJumps (e.anchors start) := by
  induction e using inductionOnRole generalizing start with
  | instr e instr own ih =>
      rw [strayJumps_of_ownInstr own, anchors_of_ownInstr _ own]
      exact anchorOf_anchorsAll_of start [] rfl fun child m start => ih child m start
  | seq id items ih =>
      exact anchorOf_anchorsAll_of start [] rfl fun item m start => ih item m start
  | loop id cond body => exact .nil
  | jump id kind => exact .cons ⟨rfl, start, rfl, .whole start _⟩ .nil

end Expr

/-! ## Lowering -/

namespace Expr

variable {e : Expr} {cx : Context}

/-- However lowering ends, it has made the context grow. -/
theorem exists_after_lower_eq (room : (e.lower.after cx).graph.size ≤ UInt32.size) :
    ∃ blocks made, e.lower.after cx = cx.grown blocks made ∧
      (cx.loops ≠ [] → made = e.anchors cx.graph.size) := by
  rcases e.lower_cases room with ⟨-, lowered⟩ | ⟨closed, kind, node, others, -, failed⟩
  · exact ⟨_, _, Action.after_of_ok lowered, fun _ => rfl⟩
  · exact ⟨_, _, Action.after_of_error failed, fun open_ => absurd closed open_⟩

/-- The exit of a tree is among the blocks that are appended, and control ends there. -/
theorem exit_grown (room : cx.graph.size + e.blockCount ≤ UInt32.size)
    (made : List (LoopJump × BlockId)) :
    cx.graph.size ≤ (e.fragment cx.graph.size).exit.index ∧
      ∃ block, (cx.grown (e.layout cx.graph.size none noTargets) made).graph.blocks[
        (e.fragment cx.graph.size).exit.index]? = some block ∧ block.edge = .none := by
  have inside := e.exitOffset_lt
  have index : (e.fragment cx.graph.size).exit.index = cx.graph.size + e.exitOffset :=
    BlockId.index_ofIndex (by omega)
  obtain ⟨block, found, ends⟩ := edge_exit_none cx.graph.size e
  rw [index, getElem?_grown_add]
  exact ⟨Nat.le_add_right _ _, block, found, ends⟩

end Expr

namespace Arena

/-- Whether lowering succeeds or not, the blocks that were there, the slots, the options and all
open loops but the innermost are as before. The innermost loop gets an anchor for each jump that
leaves the tree, behind those it has, and each of these is a new block. Where lowering succeeds, the
tree is entered at the first new block and left at a new block that goes on nowhere yet. -/
theorem lower_appends {arena : Arena} {id : ExprId} {e : Expr} {type : ValueType}
    (found : arena.lookup id = .ok (e, type)) {cx : Context}
    (room : ((arena.lower id).after cx).graph.size ≤ UInt32.size) :
    let after := (arena.lower id).after cx
    let made := e.anchors cx.graph.size
    (∀ i < cx.graph.size, after.graph.blocks[i]? = cx.graph.blocks[i]?) ∧
    after.slots = cx.slots ∧ after.options = cx.options ∧ after.depth = cx.depth ∧
    (∀ frame outer, cx.loops = frame :: outer →
      List.Forall₂ (Expr.AnchorOf cx.graph.size e) e.strayJumps made ∧ Expr.Ascending made ∧
      (∀ anchor ∈ made,
        cx.graph.size ≤ anchor.2.index ∧ anchor.2.index < after.graph.size) ∧
      ∃ innermost, after.loops = innermost :: outer ∧ innermost.node = frame.node ∧
        innermost.exits.toList = frame.exits.toList ++ Expr.anchorsOf .exit made ∧
        innermost.reentries.toList = frame.reentries.toList ++ Expr.anchorsOf .reenter made) ∧
    ∀ fragment, (arena.lower id).answer cx = .ok fragment →
      fragment.entry.index = cx.graph.size ∧ cx.graph.size ≤ fragment.exit.index ∧
        ∃ block, after.graph.blocks[fragment.exit.index]? = some block ∧ block.edge = .none := by
  intro after made
  rw [lower_of_lookup found] at room
  have same : after = e.lower.after cx := by rw [← lower_of_lookup found]
  obtain ⟨blocks, kept, grew, open_⟩ := Expr.exists_after_lower_eq room
  refine ⟨?_, ?_, ?_, ?_, ?_, ?_⟩
  · intro i old
    rw [same, grew, getElem?_grown_of_lt _ _ _ old]
  · rw [same, grew, grown]
  · rw [same, grew, grown]
  · rw [same, grew, depth_grown]
  · intro frame outer loops
    have lowered := e.lower_run cx room fun closed => by simp [loops] at closed
    have fits := room
    rw [Action.after_of_ok lowered, size_grown, Expr.length_layout] at fits
    rw [same, Action.after_of_ok lowered, size_grown, Expr.length_layout]
    refine ⟨Expr.anchorOf_anchors _ e, Expr.ascending_anchors _ e fits,
      fun anchor m => Expr.index_anchor _ m fits, frame.registerAll made, ?_,
      frame.node_registerAll made, frame.exits_registerAll made, frame.reentries_registerAll made⟩
    rw [grown, loops, enroll]
  · intro fragment answered
    rw [lower_of_lookup found] at answered
    rcases e.lower_cases room with ⟨-, lowered⟩ | ⟨-, kind, node, others, -, failed⟩
    · rw [Action.answer_of_ok lowered, Except.ok.injEq] at answered
      have fits := room
      rw [Action.after_of_ok lowered, size_grown, Expr.length_layout] at fits
      have some := e.exitOffset_lt
      rw [same, Action.after_of_ok lowered, ← answered]
      exact ⟨BlockId.index_ofIndex (by omega), Expr.exit_grown fits _⟩
    · rw [Action.answer_of_error failed] at answered
      cases answered

/-- An open loop that has an anchor already gets two more from a tree that two jumps leave. -/
theorem lower_appends_open_loop :
    let build : Action Arena ExprId := do
      let one ← int 1
      let leave ← jump .exit
      let again ← jump .reenter
      let inner ← loop one leave
      seq [inner, again, leave]
    let arena := build.after {}
    let begin : Action Context BlockId := do
      openLoop ⟨7⟩
      addAnchor .exit ⟨0⟩
    let cx := begin.after (.new {})
    let after := (arena.lower ⟨4⟩).after cx
    after.graph.blocks[0]? = some .empty ∧ after.slots = cx.slots ∧ after.depth = 1 ∧
      ∃ innermost, after.loops = [innermost] ∧ innermost.node = ⟨7⟩ ∧
        innermost.exits.toList = [⟨0⟩, ⟨6⟩] ∧ innermost.reentries.toList = [⟨5⟩] := by
  intro build arena begin cx after
  have found : arena.lookup ⟨4⟩ = .ok (.seq ⟨4⟩ [.loop ⟨3⟩ (.int ⟨0⟩ 1) (.jump ⟨1⟩ .exit),
    .jump ⟨2⟩ .reenter, .jump ⟨1⟩ .exit], .none) := rfl
  have room : ((arena.lower ⟨4⟩).after cx).graph.size ≤ UInt32.size := by decide +kernel
  obtain ⟨old, slots, -, depth, loops, -⟩ := lower_appends found room
  obtain ⟨-, -, -, innermost, same, node, exits, reentries⟩ := loops ⟨⟨7⟩, #[⟨0⟩], #[]⟩ [] rfl
  exact ⟨old 0 (by decide), slots, depth, innermost, same, node, exits, reentries⟩

end Arena

end Flowgraph
