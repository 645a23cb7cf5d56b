import Flowgraph.Expr.Code
import Flowgraph.Proofs.Context.Steps
import Flowgraph.Proofs.Expr.Typing
import Flowgraph.Proofs.Graph.Lines
import Flowgraph.Proofs.Lowering.Meaning

/-! # Trees without loops and jumps

The blocks of such a tree lie one behind the other and each goes on at the next. So control runs
straight through them, whatever there is around them in the graph, and through the operands of a
chain in their order. -/

namespace Flowgraph

open Context

/-! ## Straight layouts -/

namespace Expr

section

variable {e : Expr} {items : List Expr} (start : Nat) (next : Option BlockId)
  (targets : LoopJump → Option BlockId)

theorem exitOffsetAll_add_one_of (nonempty : items ≠ [])
    (ih : ∀ item ∈ items, item.exitOffset + 1 = item.blockCount) :
    exitOffsetAll items + 1 = blockCountAll items := by
  induction items with
  | nil => exact absurd rfl nonempty
  | cons item rest ihRest =>
      cases rest with
      | nil => simpa [exitOffsetAll] using ih item (by simp)
      | cons second rest =>
          rw [exitOffsetAll_cons_cons, blockCountAll_cons item, Nat.add_assoc,
            ihRest (by simp) fun item m => ih item (by simp [m])]

/-- Where there are no loops, the exit of a tree is its last block. -/
theorem exitOffset_add_one (straight : e.isStraight = true) : e.exitOffset + 1 = e.blockCount := by
  induction e, straight using inductionOnStraight with
  | instr e instr straight own ih => rw [exitOffset_of_ownInstr own, blockCount_of_ownInstr own]
  | seq id items straight ih =>
      cases items with
      | nil => rfl
      | cons item rest =>
          rw [blockCount_seq_cons]
          exact exitOffsetAll_add_one_of (by simp) ih

theorem layoutAll_eq_line_of
    (ih : ∀ item ∈ items, ∀ start next,
      item.layout start next targets = Graph.line start next item.code) :
    layoutAll start next targets items = Graph.line start next (items.flatMap code) := by
  induction items generalizing start with
  | nil => rfl
  | cons item rest ihRest =>
      cases rest with
      | nil =>
          rw [List.flatMap_singleton]
          exact ih item (by simp) start next
      | cons second rest =>
          have nonempty : (second :: rest).flatMap code ≠ [] := by
            have some := exitOffset_lt second
            rw [← List.length_pos_iff, length_flatMap_code, blockCountAll_cons]
            omega
          have split : (item :: second :: rest).flatMap code =
              item.code ++ (second :: rest).flatMap code := List.flatMap_cons
          rw [layoutAll_cons_cons, ih item (by simp), ihRest _ fun item m => ih item (by simp [m]),
            split, Graph.line_append _ nonempty, length_code]

/-- Without loops and jumps, each block goes on at the next one. -/
theorem layout_eq_line (straight : e.isStraight = true) :
    e.layout start next targets = Graph.line start next e.code := by
  induction e, straight using inductionOnStraight generalizing start next with
  | instr e instr straight own ih =>
      have operands := layoutAll_eq_line_of start
        (some (.ofIndex (start + blockCountAll e.children))) targets ih
      rw [layout_of_ownInstr _ _ _ own, operands, code_eq, ownCode_of_ownInstr own,
        Graph.line_append _ (by simp), length_flatMap_code]
      rfl
  | seq id items straight ih =>
      cases items with
      | nil => rfl
      | cons item rest =>
          rw [code_eq, ownCode, List.append_nil]
          exact layoutAll_eq_line_of start next targets ih

theorem layoutAll_eq_line (straight : ∀ item ∈ items, item.isStraight = true) :
    layoutAll start next targets items = Graph.line start next (items.flatMap code) :=
  layoutAll_eq_line_of start next targets fun item m start next =>
    layout_eq_line start next targets (straight item m)

end

end Expr

/-! ## Straight fragments -/

/-- Blocks that are appended one behind the other. -/
theorem Context.runsStraight_grown {cx : Context} {anchors : List (LoopJump × BlockId)}
    {code : List (List Instr)} {offset : Nat}
    (room : (cx.grown (Graph.line cx.graph.size none code) anchors).graph.size ≤ UInt32.size)
    (count : offset + 1 = code.length) :
    (cx.grown (Graph.line cx.graph.size none code) anchors).graph.RunsStraight
      ⟨.ofIndex cx.graph.size, .ofIndex (cx.graph.size + offset)⟩ code.flatten := by
  have holds := Graph.holds_append room
  rw [size_grown, Graph.length_line] at room
  exact Graph.runsStraight_line holds count room

namespace Expr

variable {e : Expr} {cx : Context}

/-- An instruction behind trees that lie one behind the other. -/
theorem emit_runsStraight {items : List Expr} (straight : ∀ item ∈ items, item.isStraight = true)
    (instr : Instr)
    (room : ((lowerAll none items >>= fun head => emit head instr).after cx).graph.size ≤
      UInt32.size) :
    ∃ fragment after, (lowerAll none items >>= fun head => emit head instr) cx =
        .ok fragment after ∧
      after.graph.RunsStraight fragment (items.flatMap instrs ++ [instr]) := by
  have roomAll := (Grows.le_bind (fun head => grows_emit head instr) cx).trans room
  have quiet : strayJumpsAll items = [] := by
    rw [strayJumpsAll_eq, List.flatMap_eq_nil_iff]
    exact fun item m => strayJumps_of_isJumpless (isJumpless_of_isStraight (straight item m))
  have operands := lowerAll_run_of (fun item _ => item.lower_run) roomAll fun _ => quiet
  have fits : cx.graph.size + blockCountAll items ≤ UInt32.size := by
    rwa [Action.after_of_ok operands, size_loweredAll] at roomAll
  have behind : layoutAll cx.graph.size (some (.ofIndex (cx.graph.size + blockCountAll items)))
      noTargets items ++ [⟨[instr], .none⟩] =
        Graph.line cx.graph.size none (items.flatMap code ++ [[instr]]) := by
    rw [layoutAll_eq_line _ _ _ straight, Graph.line_append _ (by simp), length_flatMap_code]
    rfl
  have count : blockCountAll items + 1 = (items.flatMap code ++ [[instr]]).length := by
    rw [List.length_append, length_flatMap_code, List.length_singleton]
  have run : (lowerAll none items >>= fun head => emit head instr) cx =
      .ok ⟨.ofIndex cx.graph.size, .ofIndex (cx.graph.size + blockCountAll items)⟩
        (cx.grown (Graph.line cx.graph.size none (items.flatMap code ++ [[instr]]))
          (anchorsAll cx.graph.size items)) := by
    rw [Action.bind_run operands, loweredAll, emit_run items instr fits, behind]
  rw [Action.after_of_ok run] at room
  have runs := Context.runsStraight_grown room count
  rw [List.flatten_append, flatten_flatMap_code] at runs
  exact ⟨_, _, run, runs⟩

theorem lower_runsStraight (straight : e.isStraight = true)
    (room : (e.lower.after cx).graph.size ≤ UInt32.size) :
    ∃ fragment after, e.lower cx = .ok fragment after ∧
      after.graph.RunsStraight fragment e.instrs := by
  have quiet := strayJumps_of_isJumpless (isJumpless_of_isStraight straight)
  have lowered := e.lower_run cx room fun _ => quiet
  rw [Action.after_of_ok lowered, layout_eq_line _ _ _ straight] at room
  rw [layout_eq_line _ _ _ straight] at lowered
  have runs := Context.runsStraight_grown room
    ((exitOffset_add_one straight).trans e.length_code.symm)
  rw [flatten_code] at runs
  exact ⟨_, _, lowered, runs⟩

end Expr

/-! ## Chains -/

namespace Arena

variable {arena : Arena} {id : ExprId} {operands : List ExprId}
  {entries : List (Expr × ValueType)} {cx : Context}

theorem trees_of_mapM_lookup (found : operands.mapM arena.lookup = .ok entries) :
    arena.trees operands = entries.map Prod.fst ∧ arena.firstFailure operands = none := by
  rw [Except.mapM_eq_ok_iff] at found
  induction found with
  | nil => exact ⟨rfl, rfl⟩
  | cons first _ ih =>
      rw [trees, firstFailure, first]
      exact ⟨congrArg _ ih.1, ih.2⟩

theorem lower_runsStraight {e : Expr} {type : ValueType} (found : arena.lookup id = .ok (e, type))
    (straight : e.isStraight = true) (room : ((arena.lower id).after cx).graph.size ≤ UInt32.size) :
    ∃ fragment after, arena.lower id cx = .ok fragment after ∧
      after.graph.RunsStraight fragment e.instrs := by
  rw [lower_of_lookup found] at room ⊢
  exact Expr.lower_runsStraight straight room

/-- The operands of a chain, all of which are there and none of which has a loop or a jump, run one
behind the other, and the instruction runs behind them. Each of them runs the same instructions when
it is lowered alone, wherever that is. -/
theorem chain_runsStraight (found : operands.mapM arena.lookup = .ok entries)
    (straight : ∀ entry ∈ entries, entry.1.isStraight = true) (instr : Instr)
    (room : ((arena.chain instr operands).after cx).graph.size ≤ UInt32.size) :
    (∃ fragment after, arena.chain instr operands cx = .ok fragment after ∧
      after.graph.RunsStraight fragment
        (entries.flatMap (fun entry => entry.1.instrs) ++ [instr])) ∧
    List.Forall₂ (fun id entry => ∀ cx : Context,
      ((arena.lower id).after cx).graph.size ≤ UInt32.size →
        ∃ fragment after, arena.lower id cx = .ok fragment after ∧
          after.graph.RunsStraight fragment entry.1.instrs) operands entries := by
  obtain ⟨same, complete⟩ := trees_of_mapM_lookup found
  constructor
  · have chained : arena.chain instr operands =
        Expr.lowerAll .none (entries.map Prod.fst) >>= fun head => emit head instr := by
      rw [chain_eq, same, complete]
      rfl
    rw [chained] at room ⊢
    rw [← List.flatMap_map]
    exact Expr.emit_runsStraight (by simpa using straight) instr room
  · clear room same complete
    rw [Except.mapM_eq_ok_iff] at found
    induction found with
    | nil => exact .nil
    | cons first _ ih =>
        refine .cons ?_ (ih fun entry m => straight entry (by simp [m]))
        exact fun cx room => lower_runsStraight first (straight _ (by simp)) room

/-- A tree of several blocks twice, with an empty sequence in between, behind a block of an open
loop. -/
theorem chain_runsStraight_shared :
    let build : Action Arena ExprId := do
      let one ← int 1
      let idle ← seq []
      let loaded ← load (.indirect one) .any
      seq [idle, loaded]
    let arena := build.after {}
    let begin : Action Context BlockId := do
      openLoop ⟨7⟩
      addAnchor .exit ⟨0⟩
    let loaded : List Instr := [⟨.int, [.uint 1], ⟨0⟩⟩, ⟨.loads, [], ⟨2⟩⟩]
    let instr : Instr := ⟨.stores, [], ⟨4⟩⟩
    (∃ fragment after,
      arena.chain instr [⟨3⟩, ⟨1⟩, ⟨3⟩] (begin.after (.new {})) = .ok fragment after ∧
        after.graph.straightLine fragment = .ok (loaded ++ loaded ++ [instr]).toArray) ∧
    ∃ fragment after, arena.lower ⟨3⟩ (.new {}) = .ok fragment after ∧
      after.graph.straightLine fragment = .ok loaded.toArray := by
  intro build arena begin loaded instr
  let one : Expr := .int ⟨0⟩ 1
  let idle : Expr := .seq ⟨1⟩ []
  let twice : Expr := .seq ⟨3⟩ [idle, .loadAt ⟨2⟩ one .any]
  have found : [⟨3⟩, ⟨1⟩, ⟨3⟩].mapM arena.lookup =
      .ok [(twice, .any), (idle, .none), (twice, .any)] := rfl
  have room : ((arena.chain instr [⟨3⟩, ⟨1⟩, ⟨3⟩]).after (begin.after (.new {}))).graph.size ≤
      UInt32.size := by decide +kernel
  have roomAlone : ((arena.lower ⟨3⟩).after (.new {})).graph.size ≤ UInt32.size := by
    decide +kernel
  obtain ⟨⟨fragment, after, run, runs⟩, alone⟩ :=
    chain_runsStraight found (by simp only [List.forall_mem_cons]; decide) instr room
  obtain ⟨single, afterSingle, runSingle, runsSingle⟩ := (List.forall₂_cons.mp alone).1 _ roomAlone
  exact ⟨⟨fragment, after, run, runs.straightLine⟩,
    single, afterSingle, runSingle, runsSingle.straightLine⟩

end Arena

end Flowgraph
