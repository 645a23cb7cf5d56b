import Flowgraph.Proofs.Lowering.Run

/-! # What comes of lowering

An open loop takes every jump that leaves the tree. Where no loop is open, the first such jump is
the one thing that can stop lowering, and no other error comes of it. Ending a compilation fails in
one more case: some loop was open from the start. Where lowering succeeds, the tree's layout is
appended to the graph. -/

namespace Flowgraph

/-! ## Open loops -/

theorem LoopFrame.node_registerAll (frame : LoopFrame) (anchors : List (LoopJump × BlockId)) :
    (frame.registerAll anchors).node = frame.node := by
  induction anchors generalizing frame with
  | nil => rfl
  | cons anchor anchors ih =>
      obtain ⟨kind, a⟩ := anchor
      change ((frame.register kind a).registerAll anchors).node = _
      rw [ih]
      cases kind <;> rfl

theorem Context.finish_grown_open {cx : Context} {frame : LoopFrame} {outer : List LoopFrame}
    (open_ : cx.loops = frame :: outer) (blocks : List Block)
    (anchors : List (LoopJump × BlockId)) (root : Fragment) :
    (cx.grown blocks anchors).finish root =
      .error (.internal (.loopsLeftOpen cx.depth frame.node)) := by
  obtain ⟨options, slots, graph, loops⟩ := cx
  cases open_
  simp [grown, enroll, finish, depth, LoopFrame.node_registerAll]

namespace Expr

variable {e : Expr} {cx : Context}

/-- The error at the first jump that leaves the tree. -/
def jumpError (e : Expr) : Option Error :=
  e.strayJumps.head?.map fun (kind, node) => .jumpOutsideLoop kind node

theorem lower_failure_of_jumpError {error : Error} (closed : cx.loops = [])
    (first : e.jumpError = some error) (room : (e.lower.after cx).graph.size ≤ UInt32.size) :
    e.lower cx = .error (.error error) (cx.grown (e.layoutToJump cx.graph.size) []) := by
  cases stray : e.strayJumps with
  | nil => simp [jumpError, stray] at first
  | cons jump others =>
      obtain ⟨kind, node⟩ := jump
      simp only [jumpError, stray, List.head?_cons, Option.map_some, Option.some.injEq] at first
      rw [← first]
      exact lower_failure e cx kind node others closed stray room

theorem jumpError_eq_none_iff : e.jumpError = none ↔ e.strayJumps = [] := by
  simp [jumpError]

theorem answer_lower_eq_error_iff (room : (e.lower.after cx).graph.size ≤ UInt32.size)
    (failure : Failure) :
    e.lower.answer cx = .error failure ↔
      cx.loops = [] ∧ ∃ error, e.jumpError = some error ∧ failure = .error error := by
  by_cases closed : cx.loops = []
  · cases first : e.jumpError with
    | none =>
        have lowered := lower_run e cx room fun _ => jumpError_eq_none_iff.mp first
        rw [Action.answer_of_ok lowered]
        simp
    | some error =>
        have failed := lower_failure_of_jumpError closed first room
        rw [Action.answer_of_error failed]
        simp [closed, eq_comm]
  · have lowered := lower_run e cx room fun none => absurd none closed
    rw [Action.answer_of_ok lowered]
    simp [closed]

end Expr

namespace Arena

theorem exists_ok_iff {α : Type} {answer : Except Failure α} :
    (∃ a, answer = .ok a) ↔ ∀ failure, answer ≠ .error failure := by
  cases answer <;> simp

theorem lower_of_lookup {arena : Arena} {id : ExprId} {e : Expr} {type : ValueType}
    (found : arena.lookup id = .ok (e, type)) : arena.lower id = e.lower := by
  funext cx
  rw [lower, found]

theorem compile_of_lower_ok {arena : Arena} {id : ExprId} {cx after : Context}
    {fragment : Fragment} (lowered : arena.lower id cx = .ok fragment after) :
    arena.compile id cx = (after.finish fragment).mapError .error := by
  rw [compile, lowered]

theorem compile_of_lower_error {arena : Arena} {id : ExprId} {cx after : Context}
    {failure : Failure} (failed : arena.lower id cx = .error failure after) :
    arena.compile id cx = .error failure := by
  rw [compile, failed]

theorem compile_eq_error_iff {arena : Arena} {id : ExprId} {e : Expr} {type : ValueType}
    (found : arena.lookup id = .ok (e, type)) {cx : Context}
    (room : (e.lower.after cx).graph.size ≤ UInt32.size) (failure : Failure) :
    arena.compile id cx = .error failure ↔
      (cx.loops = [] ∧ ∃ error, e.jumpError = some error ∧ failure = .error error) ∨
        ∃ frame outer, cx.loops = frame :: outer ∧
          failure = .error (.internal (.loopsLeftOpen cx.depth frame.node)) := by
  have same := lower_of_lookup found
  cases loops : cx.loops with
  | nil =>
      cases first : e.jumpError with
      | none =>
          have lowered := e.lower_run cx room fun _ => Expr.jumpError_eq_none_iff.mp first
          rw [← same] at lowered
          rw [compile_of_lower_ok lowered,
            Context.finish_eq_ok_iff.mpr ⟨(Context.loops_grown_eq_nil_iff _ _ _).mpr loops, rfl⟩]
          simp [Except.mapError]
      | some error =>
          have failed := Expr.lower_failure_of_jumpError loops first room
          rw [← same] at failed
          rw [compile_of_lower_error failed]
          simp [eq_comm]
  | cons frame outer =>
      have lowered := e.lower_run cx room fun none => by simp [loops] at none
      rw [← same] at lowered
      rw [compile_of_lower_ok lowered, Context.finish_grown_open loops]
      simp [Except.mapError, eq_comm]

/-- Lowering fails only where no loop is open, and then exactly if some jump leaves the tree, with
the error at the first such jump. A compilation that starts with open loops ends with the complaint
about the innermost of them, and every other compilation fails as lowering does. -/
theorem fails_iff_jumpError {arena : Arena} {id : ExprId} {e : Expr} {type : ValueType}
    (found : arena.lookup id = .ok (e, type)) {cx : Context}
    (room : ((arena.lower id).after cx).graph.size ≤ UInt32.size) :
    ((∃ fragment, (arena.lower id).answer cx = .ok fragment) ↔
      cx.loops ≠ [] ∨ e.strayJumps = []) ∧
    (∀ failure, (arena.lower id).answer cx = .error failure ↔
      cx.loops = [] ∧ ∃ error, e.jumpError = some error ∧ failure = .error error) ∧
    ((∃ program, arena.compile id cx = .ok program) ↔ cx.loops = [] ∧ e.strayJumps = []) ∧
    (∀ failure, arena.compile id cx = .error failure ↔
      (cx.loops = [] ∧ ∃ error, e.jumpError = some error ∧ failure = .error error) ∨
        ∃ frame outer, cx.loops = frame :: outer ∧
          failure = .error (.internal (.loopsLeftOpen cx.depth frame.node))) := by
  rw [lower_of_lookup found] at room ⊢
  have lowers := e.answer_lower_eq_error_iff room
  have compiles := compile_eq_error_iff found room
  refine ⟨?_, lowers, ?_, compiles⟩
  · rw [exists_ok_iff, ← Expr.jumpError_eq_none_iff]
    simp only [ne_eq, lowers]
    cases e.jumpError <;> simp
  · rw [exists_ok_iff, ← Expr.jumpError_eq_none_iff]
    simp only [ne_eq, compiles]
    cases cx.loops <;> cases e.jumpError <;> simp

theorem fails_iff_jumpError_behind_loop :
    let build : Action Arena ExprId := do
      let one ← int 1
      let leave ← jump .exit
      let again ← jump .reenter
      let inner ← loop one leave
      seq [inner, again, leave]
    let arena := build.after {}
    (arena.lower ⟨4⟩).answer (.new {}) = .error (.error (.jumpOutsideLoop .reenter ⟨2⟩)) ∧
      arena.compile ⟨4⟩ (.new {}) = .error (.error (.jumpOutsideLoop .reenter ⟨2⟩)) := by
  intro build arena
  have found : arena.lookup ⟨4⟩ = .ok (.seq ⟨4⟩ [.loop ⟨3⟩ (.int ⟨0⟩ 1) (.jump ⟨1⟩ .exit),
    .jump ⟨2⟩ .reenter, .jump ⟨1⟩ .exit], .none) := rfl
  have room : ((arena.lower ⟨4⟩).after (.new {})).graph.size ≤ UInt32.size := by decide +kernel
  have outcome := fails_iff_jumpError found room
  exact ⟨(outcome.2.1 _).mpr ⟨rfl, _, rfl, rfl⟩, (outcome.2.2.2 _).mpr (.inl ⟨rfl, _, rfl, rfl⟩)⟩

/-! ## What lowering succeeds with -/

/-- Where no loop is open, lowering succeeds if no jump leaves the tree. It appends the tree's
layout to the graph and leaves everything else alone. -/
theorem lower_eq_ok_iff {arena : Arena} {id : ExprId} {e : Expr} {type : ValueType}
    (found : arena.lookup id = .ok (e, type)) {cx : Context} (closed : cx.loops = [])
    (room : ((arena.lower id).after cx).graph.size ≤ UInt32.size) {fragment : Fragment}
    {after : Context} :
    arena.lower id cx = .ok fragment after ↔
      e.strayJumps = [] ∧ fragment = e.fragment cx.graph.size ∧
        after = cx.grown (e.layout cx.graph.size none Expr.noTargets) [] := by
  rw [lower_of_lookup found] at room ⊢
  cases first : e.jumpError with
  | none =>
      have stray := Expr.jumpError_eq_none_iff.mp first
      rw [e.lower_run cx room fun _ => stray, Context.grown_of_loops_eq_nil _ _ closed]
      simp [stray, eq_comm]
  | some error =>
      have failed := Expr.lower_failure_of_jumpError closed first room
      have stray : e.strayJumps ≠ [] := fun none => by
        simp [Expr.jumpError_eq_none_iff.mpr none] at first
      rw [failed]
      simp [stray]

/-- However often an edge was written on the way, the blocks that lowering appends are those of the
layout, in which every edge is written once. -/
theorem blocks_lower_eq_layout {arena : Arena} {id : ExprId} {e : Expr} {type : ValueType}
    (found : arena.lookup id = .ok (e, type)) {cx after : Context} (closed : cx.loops = [])
    {fragment : Fragment} (lowered : arena.lower id cx = .ok fragment after)
    (room : after.graph.size ≤ UInt32.size) :
    after.graph.blocks.toList =
      cx.graph.blocks.toList ++ e.layout cx.graph.size none Expr.noTargets := by
  rw [← Action.after_of_ok lowered] at room
  obtain ⟨-, -, rfl⟩ := (lower_eq_ok_iff found closed room).mp lowered
  simp [Context.grown, Graph.append]

theorem blocks_lower_eq_layout_nested :
    let build : Action Arena ExprId := do
      let one ← int 1
      let leave ← jump .exit
      let again ← jump .reenter
      let inner ← loop one leave
      let idle ← seq []
      let body ← seq [inner, idle, again]
      loop one body
    let arena := build.after {}
    let pushed : Instr := ⟨.int, [.uint 1], ⟨0⟩⟩
    ((arena.lower ⟨6⟩).after (.new {})).graph.blocks.toList =
      [⟨[pushed], .jump ⟨8⟩⟩,
        ⟨[pushed], .jump ⟨4⟩⟩, ⟨[], .jump ⟨3⟩⟩, ⟨[], .jump ⟨5⟩⟩, ⟨[], .branch ⟨2⟩ ⟨3⟩⟩,
        ⟨[], .jump ⟨6⟩⟩, ⟨[], .jump ⟨0⟩⟩, ⟨[], .none⟩, ⟨[], .branch ⟨1⟩ ⟨7⟩⟩] := by
  intro build arena pushed
  have found : arena.lookup ⟨6⟩ = .ok (.loop ⟨6⟩ (.int ⟨0⟩ 1)
    (.seq ⟨5⟩ [.loop ⟨3⟩ (.int ⟨0⟩ 1) (.jump ⟨1⟩ .exit), .seq ⟨4⟩ [], .jump ⟨2⟩ .reenter]),
    .none) := rfl
  have room : ((arena.lower ⟨6⟩).after (.new {})).graph.size ≤ UInt32.size := by decide +kernel
  have lowered := (lower_eq_ok_iff found rfl room).mpr ⟨rfl, rfl, rfl⟩
  rw [Action.after_of_ok lowered] at room ⊢
  exact blocks_lower_eq_layout found rfl lowered room

end Arena

end Flowgraph
