import Flowgraph.Graph.Shift
import Flowgraph.Proofs.Lowering.Outcome

/-! # Lowering does not depend on what came before

Two layouts of one tree differ by the distance between the places at which they start, and so do two
layouts as far as the first jump that leaves the tree. So two contexts, of which neither or both
have a loop open, get the same from lowering, but for the place. -/

namespace Flowgraph

open Context

/-! ## Places at a distance -/

/-- Two places at the distance `d`, with room for `count` blocks behind each. -/
structure Apart (d : Int) (start start' count : Nat) : Prop where
  distance : (start' : Int) = start + d
  room : start + count ≤ UInt32.size
  room' : start' + count ≤ UInt32.size

section

variable {d : Int} {start start' count : Nat}

theorem Apart.part (apart : Apart d start start' count) {i n : Nat} (inside : i + n ≤ count) :
    Apart d (start + i) (start' + i) n := by
  obtain ⟨distance, room, room'⟩ := apart
  exact ⟨by omega, by omega, by omega⟩

theorem Apart.front (apart : Apart d start start' count) {n : Nat} (inside : n ≤ count) :
    Apart d start start' n :=
  apart.part (i := 0) (by omega)

theorem Apart.shifted (apart : Apart d start start' count) {i : Nat} (inside : i < count) :
    (BlockId.ofIndex (start + i)).Shifted d (.ofIndex (start' + i)) := by
  obtain ⟨distance, room, room'⟩ := apart
  rw [BlockId.Shifted, BlockId.index_ofIndex (by omega), BlockId.index_ofIndex (by omega)]
  omega

/-- Both lists of blocks go on nowhere, or go on at the distance `d`. -/
abbrev ShiftedNext (d : Int) : Option BlockId → Option BlockId → Prop :=
  Option.Rel (BlockId.Shifted d)

/-- The blocks are alike one by one. -/
abbrev ShiftedBlocks (d : Int) : List Block → List Block → Prop :=
  List.Forall₂ (Block.Shifted d)

variable {next next' : Option BlockId}

theorem Edge.shifted_toward (onward : ShiftedNext d next next') :
    (Edge.toward next).Shifted d (.toward next') := by
  cases onward with
  | none => exact .none
  | some shifted => exact .jump shifted

theorem shiftedBlocks_singleton (instrs : List Instr) (onward : ShiftedNext d next next') :
    ShiftedBlocks d [⟨instrs, .toward next⟩] [⟨instrs, .toward next'⟩] :=
  .cons ⟨rfl, Edge.shifted_toward onward⟩ .nil

theorem ShiftedNext.or {first first' : Option BlockId} (jump : ShiftedNext d first first')
    (onward : ShiftedNext d next next') : ShiftedNext d (first.or next) (first'.or next') := by
  cases jump with
  | none => exact onward
  | some shifted => exact .some shifted

end

namespace Expr

/-! ## Layouts -/

section

variable {d : Int} {start start' : Nat} {next next' : Option BlockId}
  {targets targets' : LoopJump → Option BlockId}

/-- Wherever there is room, the tree is laid out alike. -/
def LaidOutAlike (d : Int) (targets targets' : LoopJump → Option BlockId) (e : Expr) : Prop :=
  ∀ {start start' next next'}, Apart d start start' e.blockCount → ShiftedNext d next next' →
    ShiftedBlocks d (e.layout start next targets) (e.layout start' next' targets')

theorem shifted_layoutAll_of {items : List Expr}
    (apart : Apart d start start' (blockCountAll items)) (onward : ShiftedNext d next next')
    (ih : ∀ item ∈ items, LaidOutAlike d targets targets' item) :
    ShiftedBlocks d (layoutAll start next targets items)
      (layoutAll start' next' targets' items) := by
  induction items generalizing start start' with
  | nil => exact .nil
  | cons item rest ihRest =>
      have alike : LaidOutAlike d targets targets' item := ih item (by simp)
      rw [blockCountAll_cons] at apart
      cases rest with
      | nil => exact alike (apart.front (by omega)) onward
      | cons second rest =>
          rw [layoutAll_cons_cons, layoutAll_cons_cons]
          have nonempty := exitOffset_lt second
          have behind : ShiftedNext d (some (.ofIndex (start + item.blockCount)))
              (some (.ofIndex (start' + item.blockCount))) := by
            apply Option.Rel.some
            apply apart.shifted
            rw [blockCountAll_cons]
            omega
          exact List.rel_append (alike (apart.front (by omega)) behind)
            (ihRest (apart.part le_rfl) fun item m => ih item (by simp [m]))

/-- A tree is laid out alike wherever it starts. -/
theorem laidOutAlike (e : Expr) (jumps : ∀ kind, ShiftedNext d (targets kind) (targets' kind)) :
    LaidOutAlike d targets targets' e := by
  induction e using inductionOnRole generalizing targets targets' with
  | instr e instr own ih =>
      intro start start' next next' apart onward
      rw [blockCount_of_ownInstr own] at apart
      rw [layout_of_ownInstr _ _ _ own, layout_of_ownInstr _ _ _ own]
      have here := apart.shifted (Nat.lt_succ_self _)
      exact List.rel_append
        (shifted_layoutAll_of (apart.front (by omega)) (.some here) fun child m => ih child m jumps)
        (shiftedBlocks_singleton [instr] onward)
  | seq id items ih =>
      intro start start' next next' apart onward
      cases items with
      | nil => exact shiftedBlocks_singleton [] onward
      | cons item rest =>
          rw [blockCount_seq_cons] at apart
          exact shifted_layoutAll_of apart onward fun item m => ih item m jumps
  | loop id cond body ihCond ihBody =>
      intro start start' next next' apart onward
      rw [blockCount_loop] at apart
      have entry := apart.shifted (i := 0) (by omega)
      have inside := apart.shifted (i := cond.blockCount) (by omega)
      have exit := apart.shifted (i := cond.blockCount + body.blockCount) (by omega)
      have branch := apart.shifted (i := cond.blockCount + body.blockCount + 1) (by omega)
      simp only [← Nat.add_assoc] at exit branch
      have inLoop : ∀ kind, ShiftedNext d
          (loopTargets start (start + cond.blockCount + body.blockCount) kind)
          (loopTargets start' (start' + cond.blockCount + body.blockCount) kind) := fun kind => by
        cases kind with
        | exit => exact .some exit
        | reenter => exact .some entry
      rw [layout, layout]
      refine List.rel_append (List.rel_append ?_ ?_) (.cons ?_ (.cons ?_ .nil))
      · exact ihCond inLoop (apart.front (by omega)) (.some branch)
      · exact ihBody inLoop (apart.part (by omega)) (.some entry)
      · exact ⟨rfl, Edge.shifted_toward onward⟩
      · exact ⟨rfl, .branch inside exit⟩
  | jump id kind =>
      intro start start' next next' apart onward
      exact shiftedBlocks_singleton [] ((jumps kind).or onward)

end

section

variable {d : Int} {start start' : Nat}

theorem shifted_layout (e : Expr) (apart : Apart d start start' e.blockCount) :
    ShiftedBlocks d (e.layout start none noTargets) (e.layout start' none noTargets) :=
  laidOutAlike e (fun _ => .none) apart .none

theorem shifted_layoutAll (items : List Expr)
    (apart : Apart d start start' (blockCountAll items)) :
    ShiftedBlocks d (layoutAll start none noTargets items)
      (layoutAll start' none noTargets items) :=
  shifted_layoutAll_of apart .none fun item _ => laidOutAlike item fun _ => .none

theorem shifted_fragment (e : Expr) (apart : Apart d start start' e.blockCount) :
    (e.fragment start).Shifted d (e.fragment start') := by
  have inside := e.exitOffset_lt
  exact ⟨apart.shifted (i := 0) (by omega), apart.shifted inside⟩

/-! ## Anchors -/

/-- Anchors of jumps of one kind, at the distance `d`. -/
def ShiftedAnchor (d : Int) (anchor anchor' : LoopJump × BlockId) : Prop :=
  anchor'.1 = anchor.1 ∧ anchor.2.Shifted d anchor'.2

theorem shifted_anchorsAll_of {items : List Expr}
    (apart : Apart d start start' (blockCountAll items))
    (ih : ∀ item ∈ items, ∀ {start start'}, Apart d start start' item.blockCount →
      List.Forall₂ (ShiftedAnchor d) (item.anchors start) (item.anchors start')) :
    List.Forall₂ (ShiftedAnchor d) (anchorsAll start items) (anchorsAll start' items) := by
  induction items generalizing start start' with
  | nil => exact .nil
  | cons item rest ihRest =>
      rw [blockCountAll_cons] at apart
      exact List.rel_append (ih item (by simp) (apart.front (by omega)))
        (ihRest (apart.part le_rfl) fun item m => ih item (by simp [m]))

theorem shifted_anchors (e : Expr) (apart : Apart d start start' e.blockCount) :
    List.Forall₂ (ShiftedAnchor d) (e.anchors start) (e.anchors start') := by
  induction e using inductionOnRole generalizing start start' with
  | instr e instr own ih =>
      rw [blockCount_of_ownInstr own] at apart
      rw [anchors_of_ownInstr _ own, anchors_of_ownInstr _ own]
      exact shifted_anchorsAll_of (apart.front (by omega)) fun child m _ _ => ih child m
  | seq id items ih =>
      cases items with
      | nil => exact .nil
      | cons item rest =>
          rw [blockCount_seq_cons] at apart
          exact shifted_anchorsAll_of apart fun item m _ _ => ih item m
  | loop id cond body => exact .nil
  | jump id kind => exact .cons ⟨rfl, apart.shifted (i := 0) (by simp)⟩ .nil

/-! ## Layouts as far as the first jump -/

/-- Wherever there is room, the tree is laid out alike as far as the first jump that leaves it. -/
def StopsAlike (d : Int) (e : Expr) : Prop :=
  ∀ {start start' : Nat}, e.strayJumps ≠ [] → (start' : Int) = start + d →
    start + (e.layoutToJump start).length ≤ UInt32.size →
    start' + (e.layoutToJump start').length ≤ UInt32.size →
    ShiftedBlocks d (e.layoutToJump start) (e.layoutToJump start')

theorem shifted_layoutAllToJump_of {items : List Expr} (ih : ∀ item ∈ items, StopsAlike d item)
    (done : List Expr) (distance : (start' : Int) = start + d)
    (room : start + (layoutAllToJump start done items).length ≤ UInt32.size)
    (room' : start' + (layoutAllToJump start' done items).length ≤ UInt32.size) :
    ShiftedBlocks d (layoutAllToJump start done items) (layoutAllToJump start' done items) := by
  induction items generalizing done with
  | nil =>
      simp only [layoutAllToJump, length_layoutAll] at room room' ⊢
      exact shifted_layoutAll done ⟨distance, room, room'⟩
  | cons item rest ihRest =>
      by_cases clean : item.strayJumps = []
      · simp only [layoutAllToJump, clean, List.isEmpty_nil, if_true] at room room' ⊢
        exact ihRest (fun item m => ih item (by simp [m])) _ room room'
      · have stray : item.strayJumps.isEmpty = false := by simpa using clean
        simp only [layoutAllToJump, stray, Bool.false_eq_true, if_false, List.length_append,
          length_layoutAll] at room room' ⊢
        refine List.rel_append (shifted_layoutAll done ⟨distance, by omega, by omega⟩) ?_
        exact ih item (by simp) clean (by omega) (by omega) (by omega)

theorem stopsAlike (e : Expr) : StopsAlike d e := by
  induction e using inductionOnRole with
  | instr e instr own ih =>
      intro start start' stray distance room room'
      rw [layoutToJump_of_ownInstr _ own stray] at room room' ⊢
      rw [layoutToJump_of_ownInstr _ own stray]
      exact shifted_layoutAllToJump_of ih [] distance room room'
  | seq id items ih =>
      intro start start' stray distance room room'
      exact shifted_layoutAllToJump_of ih [] distance room room'
  | loop id cond body =>
      intro start start' stray distance room room'
      exact .nil
  | jump id kind =>
      intro start start' stray distance room room'
      exact .nil

end

end Expr

/-! ## Two contexts -/

/-- An action does the same to two contexts, but for the distance `d` between their graphs. It hands
back the same fragment or fails alike, and appends the same blocks and anchors. -/
structure SameLowering (d : Int) (action : Action Context Fragment) (cx cx' : Context) : Prop where
  answer :
    (∃ fragment fragment', action.answer cx = .ok fragment ∧
      action.answer cx' = .ok fragment' ∧ fragment.Shifted d fragment') ∨
    ∃ failure, action.answer cx = .error failure ∧ action.answer cx' = .error failure
  after : ∃ blocks blocks' made made', action.after cx = cx.grown blocks made ∧
    action.after cx' = cx'.grown blocks' made' ∧ ShiftedBlocks d blocks blocks' ∧
    List.Forall₂ (Expr.ShiftedAnchor d) made made'

theorem Expr.sameLowering (e : Expr) {cx cx' : Context} (loops : cx.loops = [] ↔ cx'.loops = [])
    (room : (e.lower.after cx).graph.size ≤ UInt32.size)
    (room' : (e.lower.after cx').graph.size ≤ UInt32.size) :
    SameLowering (cx'.graph.size - cx.graph.size) e.lower cx cx' := by
  have distance : (cx'.graph.size : Int) = cx.graph.size + (cx'.graph.size - cx.graph.size) := by
    omega
  rcases e.lower_cases room with ⟨allowed, lowered⟩ | ⟨closed, kind, node, others, stray, failed⟩
  · have allowed' : Allowed cx' e.strayJumps := fun closed => allowed (loops.mpr closed)
    have lowered' := e.lower_run cx' room' allowed'
    rw [Action.after_of_ok lowered, size_grown, length_layout] at room
    rw [Action.after_of_ok lowered', size_grown, length_layout] at room'
    have apart : Apart (cx'.graph.size - cx.graph.size) cx.graph.size cx'.graph.size e.blockCount :=
      ⟨distance, room, room'⟩
    exact ⟨.inl ⟨_, _, Action.answer_of_ok lowered, Action.answer_of_ok lowered',
        e.shifted_fragment apart⟩,
      _, _, _, _, Action.after_of_ok lowered, Action.after_of_ok lowered', e.shifted_layout apart,
      e.shifted_anchors apart⟩
  · have failed' := e.lower_failure cx' kind node others (loops.mp closed) stray room'
    rw [Action.after_of_error failed, size_grown] at room
    rw [Action.after_of_error failed', size_grown] at room'
    have jumps : e.strayJumps ≠ [] := by simp [stray]
    exact ⟨.inr ⟨_, Action.answer_of_error failed, Action.answer_of_error failed'⟩,
      _, _, _, _, Action.after_of_error failed, Action.after_of_error failed',
      e.stopsAlike jumps distance room room', .nil⟩

namespace Arena

/-- What lowering does depends on the tree and on whether a loop is open, and on nothing else that
happened before. -/
theorem lower_same_of_loops {arena : Arena} {id : ExprId} {e : Expr} {type : ValueType}
    (found : arena.lookup id = .ok (e, type)) {cx cx' : Context}
    (loops : cx.loops = [] ↔ cx'.loops = [])
    (room : ((arena.lower id).after cx).graph.size ≤ UInt32.size)
    (room' : ((arena.lower id).after cx').graph.size ≤ UInt32.size) :
    SameLowering (cx'.graph.size - cx.graph.size) (arena.lower id) cx cx' := by
  rw [lower_of_lookup found] at room room' ⊢
  exact e.sameLowering loops room room'

/-- A loop that is left behind when a jump stops lowering, in a context that has seen other calls
and in one that has not. -/
theorem lower_same_of_loops_behind_failure :
    let build : Action Arena ExprId := do
      let one ← int 1
      let leave ← jump .exit
      let inner ← loop one leave
      seq [inner, leave]
    let arena := build.after {}
    let begin : Action Context BlockId := do
      let _ ← onSlots SlotAllocator.fresh
      let first ← addBlock .empty
      addBlock ⟨[], .branch first ⟨9⟩⟩
    let cx := begin.after (.new {})
    let fresh := Context.new ⟨3⟩
    (arena.lower ⟨3⟩).answer fresh = .error (.error (.jumpOutsideLoop .exit ⟨1⟩)) ∧
      ∃ blocks blocks' made made', (arena.lower ⟨3⟩).after cx = cx.grown blocks made ∧
        (arena.lower ⟨3⟩).after fresh = fresh.grown blocks' made' ∧
        ShiftedBlocks (-2) blocks blocks' := by
  intro build arena begin cx fresh
  have found : arena.lookup ⟨3⟩ = .ok (.seq ⟨3⟩ [.loop ⟨2⟩ (.int ⟨0⟩ 1) (.jump ⟨1⟩ .exit),
    .jump ⟨1⟩ .exit], .none) := rfl
  have room : ((arena.lower ⟨3⟩).after cx).graph.size ≤ UInt32.size := by decide +kernel
  have room' : ((arena.lower ⟨3⟩).after fresh).graph.size ≤ UInt32.size := by decide +kernel
  have stops : (arena.lower ⟨3⟩).answer cx = .error (.error (.jumpOutsideLoop .exit ⟨1⟩)) := rfl
  have loops : cx.loops = [] ↔ fresh.loops = [] := ⟨fun _ => rfl, fun _ => rfl⟩
  have same := lower_same_of_loops found loops room room'
  obtain ⟨blocks, blocks', made, made', after, after', shifted, -⟩ := same.after
  refine ⟨?_, blocks, blocks', made, made', after, after', shifted⟩
  rcases same.answer with ⟨fragment, fragment', lowered, -, -⟩ | ⟨failure, failed, failed'⟩
  · rw [stops] at lowered
    cases lowered
  · rw [failed', ← failed, stops]

end Arena

end Flowgraph
