import Flowgraph.Proofs.Lowering.Anchors
import Flowgraph.Proofs.Lowering.Balance

/-! # Jumps find the operand stack as their loop found it

The layout of a tree has the layouts of all its parts, each at its place, and so have the heights.
The anchor of a jump is therefore as high as the exit or the condition that it goes to. Indexed
stores are the exception: a jump out of the value leaves the index on the stack. -/

namespace Flowgraph

namespace Expr

variable {g : Graph} {start place h floor last : Nat} {level : BlockId → Nat}
  {next : Option BlockId} {targets : LoopJump → Option BlockId} {e part child cond body : Expr}
  {front rest : List Expr} {node : ExprId}

/-! ## Parts of a tree -/

/-- The operands of a node come first, each a step higher than the last. -/
theorem exists_levels_eq (h : Nat) (e : Expr) :
    ∃ step own, e.levels h = levelsAll step h e.children ++ own := by
  cases e with
  | seq id items =>
      cases items with
      | nil => exact ⟨0, [h], rfl⟩
      | cons item rest => exact ⟨0, [], (List.append_nil _).symm⟩
  | loop id cond body => exact ⟨0, [h, h + 1], by simp [levels, levelsAll, children]⟩
  | jump id kind => exact ⟨0, [h], rfl⟩
  | _ => exact ⟨1, _, levels_of_ownInstr h rfl⟩

theorem Agrees.operand (agrees : Agrees level start (e.levels h))
    (split : e.children = front ++ child :: rest) :
    ∃ h, Agrees level (start + blockCountAll front) (child.levels h) := by
  obtain ⟨step, own, same⟩ := exists_levels_eq h e
  rw [same, split, levelsAll_append] at agrees
  have behind := agrees.left.right
  rw [length_levelsAll, levelsAll] at behind
  exact ⟨_, behind.left⟩

/-- The heights of a tree have those of each part. -/
theorem PartAt.agrees (inside : PartAt start e place part)
    (agrees : Agrees level start (e.levels h)) : ∃ h, Agrees level place (part.levels h) := by
  induction inside generalizing h with
  | whole start e => exact ⟨h, agrees⟩
  | operand split inside ih =>
      obtain ⟨h, there⟩ := agrees.operand split
      exact ih there

theorem exists_holds_middle
    (holds : g.Holds start (layoutAll start next targets (front ++ child :: rest))) :
    ∃ next, g.Holds (start + blockCountAll front)
      (child.layout (start + blockCountAll front) next targets) := by
  rw [layoutAll_append _ _ _ _ (List.cons_ne_nil _ _)] at holds
  have behind := holds.right
  rw [length_layoutAll] at behind
  exact exists_holds_first behind

theorem exists_holds_child (holds : g.Holds start (e.layout start next targets))
    (split : e.children = front ++ child :: rest) :
    ∃ next targets, g.Holds (start + blockCountAll front)
      (child.layout (start + blockCountAll front) next targets) := by
  cases e using inductionOnRole with
  | instr e instr own =>
      have operands := (holds_of_ownInstr own holds).1
      rw [split] at operands
      obtain ⟨next, there⟩ := exists_holds_middle operands
      exact ⟨next, targets, there⟩
  | seq id items =>
      cases items with
      | nil => cases front <;> cases split
      | cons item others =>
          have items : item :: others = front ++ child :: rest := split
          have all : g.Holds start (layoutAll start next targets (item :: others)) := holds
          rw [items] at all
          obtain ⟨next, there⟩ := exists_holds_middle all
          exact ⟨next, targets, there⟩
  | loop id cond body =>
      have parts := holdsLoop_of_holds holds
      cases front with
      | nil =>
          cases split
          exact ⟨_, _, parts.condHolds⟩
      | cons first front =>
          cases front with
          | nil =>
              cases split
              exact ⟨_, _, parts.bodyHolds⟩
          | cons second front => cases front <;> cases split
  | jump id kind => cases front <;> cases split

/-- A graph with the layout of a tree has that of each part. -/
theorem PartAt.exists_holds (inside : PartAt start e place part)
    (holds : g.Holds start (e.layout start next targets)) :
    ∃ next targets, g.Holds place (part.layout place next targets) := by
  induction inside generalizing next targets with
  | whole start e => exact ⟨next, targets, holds⟩
  | operand split inside ih =>
      obtain ⟨next, targets, there⟩ := exists_holds_child holds split
      exact ih there

/-! ## Anchors -/

/-- The anchors of a loop go to its exit or to its condition. -/
theorem HoldsLoop.anchor {inside exit : Nat} (parts : HoldsLoop g cond body start inside exit next)
    (behind : inside = start + cond.blockCount) {kind : LoopJump} {anchor : BlockId}
    (m : (kind, anchor) ∈ loopAnchors cond body start) :
    ∃ target, loopTargets start exit kind = some target ∧
      g.blocks[anchor.index]? = some ⟨[], .jump target⟩ := by
  have wired : ∃ i place next, anchor = .ofIndex (place + i) ∧
      g.blocks[(BlockId.ofIndex (place + i)).index]? =
        some ⟨[], .toward ((loopTargets start exit kind).or next)⟩ := by
    rcases List.mem_append.mp m with m | m
    · obtain ⟨i, next, same, found⟩ :=
        jumpBlockAt_layout start (some (.ofIndex (exit + 1))) (loopTargets start exit) cond m
      exact ⟨i, start, next, same, parts.condHolds i _ found⟩
    · rw [← behind] at m
      obtain ⟨i, next, same, found⟩ :=
        jumpBlockAt_layout inside (some (.ofIndex start)) (loopTargets start exit) body m
      exact ⟨i, inside, next, same, parts.bodyHolds i _ found⟩
  obtain ⟨i, place, next, rfl, found⟩ := wired
  cases kind with
  | exit => exact ⟨_, rfl, found⟩
  | reenter => exact ⟨_, rfl, found⟩

/-- Where a loop is entered, all its joins are. -/
theorem Agrees.loop (agrees : Agrees level start ((loop node cond body).levels h)) :
    level (.ofIndex start) = h ∧
      level (.ofIndex (start + cond.blockCount + body.blockCount)) = h := by
  have own := agrees.right.head
  rw [List.length_append, length_levels, length_levels, ← Nat.add_assoc] at own
  exact ⟨agrees.first, own⟩

end Expr

/-! ## Finished programs -/

namespace Arena

variable {arena : Arena} {id : ExprId} {e cond body : Expr} {type : ValueType} {cx : Context}
  {program : Program}

/-- What a finished program does to the operand stack: each place has a height, and all runs that
come to it have that height. -/
theorem exists_levels_of_compile (built : Built arena) (found : arena.lookup id = .ok (e, type))
    (plain : e.isPlain = true) (kept : e.keepsIndices = true) (fresh : cx.graph.size = 0)
    (closed : cx.loops = []) (compiled : arena.compile id cx = .ok program)
    (room : program.graph.size ≤ UInt32.size) :
    ∃ level : BlockId → Nat, Expr.Agrees level 0 (e.levels 0) ∧
      (∀ at_, program.graph.Reaches program.root.entry at_ →
        program.graph.FitsAt 0 level e.yield at_) ∧
      ∀ trace at_ h, program.graph.Path (Machine.heights 0) program.root.entry 0 trace at_ h →
        h = level at_ := by
  have same := isLayout_of_compile found fresh closed compiled room
  have root := (compile_eq_layout found closed compiled room).2.1
  rw [fresh] at root
  have orderly := orderly_of_built built found plain kept
  obtain ⟨level, agrees, fits⟩ :=
    Expr.exists_levels_of_holds orderly (same.holds room) (by simpa [same.size_eq] using room) 0
  rw [Nat.zero_add] at fits
  rw [root]
  exact ⟨level, agrees, fits, fun trace at_ h path =>
    path.eq_level fits (.refl _) agrees.first.symm⟩

/-- Where no jump leaves the value of an indexed store, jumps find the operand stack as it was when
their loop was entered, and so does whatever else comes to the loop's exit or back to its condition.
Control passes from each anchor of a loop straight to its target. -/
theorem height_eq_of_jump (built : Built arena) (found : arena.lookup id = .ok (e, type))
    (plain : e.isPlain = true) (kept : e.keepsIndices = true) (fresh : cx.graph.size = 0)
    (closed : cx.loops = []) (compiled : arena.compile id cx = .ok program)
    (room : program.graph.size ≤ UInt32.size) {place : Nat} {node : ExprId}
    (inside : Expr.PartAt 0 e place (.loop node cond body)) {trace : List Instr} {h : Nat}
    (entered :
      program.graph.Path (Machine.heights 0) program.root.entry 0 trace (.ofIndex place) h) :
    let exit := place + cond.blockCount + body.blockCount
    (∀ kind anchor, (kind, anchor) ∈ Expr.loopAnchors cond body place →
      ∃ target, Expr.loopTargets place exit kind = some target ∧
        program.graph.blocks[anchor.index]? = some ⟨[], .jump target⟩ ∧
        ∀ trace h', program.graph.Path (Machine.heights 0) program.root.entry 0 trace anchor h' →
          h' = h) ∧
      ∀ join, join = .ofIndex place ∨ join = .ofIndex exit → ∀ trace h',
        program.graph.Path (Machine.heights 0) program.root.entry 0 trace join h' → h' = h := by
  intro exit
  have holds := (isLayout_of_compile found fresh closed compiled room).holds room
  obtain ⟨level, agrees, fits, same⟩ :=
    exists_levels_of_compile built found plain kept fresh closed compiled room
  obtain ⟨next, targets, holdsPart⟩ := inside.exists_holds holds
  obtain ⟨entry, agreesPart⟩ := inside.agrees agrees
  obtain ⟨atEntry, atExit⟩ := agreesPart.loop
  have joined : ∀ join, join = .ofIndex place ∨ join = .ofIndex exit → level join = h := by
    rw [same _ _ _ entered]
    rintro join (rfl | rfl)
    · rfl
    · exact atExit.trans atEntry.symm
  refine ⟨?_, fun join either trace h' path => (same _ _ _ path).trans (joined join either)⟩
  intro kind anchor m
  obtain ⟨target, aims, foundAnchor⟩ := (Expr.holdsLoop_of_holds holdsPart).anchor rfl m
  refine ⟨target, aims, foundAnchor, fun trace h' path => ?_⟩
  obtain ⟨block, foundBlock, after, ran, arrives⟩ := fits anchor path.reaches
  rw [foundAnchor, Option.some.injEq] at foundBlock
  subst foundBlock
  cases ran
  rw [same _ _ _ path, ← arrives]
  apply joined
  cases kind <;> cases aims
  · exact .inr rfl
  · exact .inl rfl

/-- A loop in the value of an indexed store is entered, and left, with the index on the stack. -/
theorem height_eq_of_jump_in_value :
    let calls : List Call := [.int 1, .int 7, .jump .exit, .loop ⟨0⟩ ⟨2⟩, .int 8, .seq [⟨3⟩, ⟨4⟩],
      .store (.indirect ⟨1⟩) ⟨5⟩]
    let arena := Action.afterSeries (calls.map Call.run) {}
    let graph : Graph := ⟨#[⟨[⟨.int, [.uint 7], ⟨1⟩⟩], .jump ⟨1⟩⟩,
      ⟨[⟨.int, [.uint 1], ⟨0⟩⟩], .jump ⟨4⟩⟩, ⟨[], .jump ⟨3⟩⟩, ⟨[], .jump ⟨5⟩⟩,
      ⟨[], .branch ⟨2⟩ ⟨3⟩⟩, ⟨[⟨.int, [.uint 8], ⟨4⟩⟩], .jump ⟨6⟩⟩,
      ⟨[⟨.stores, [], ⟨6⟩⟩], .none⟩]⟩
    arena.compile ⟨6⟩ (.new {}) = .ok ⟨graph, ⟨⟨0⟩, ⟨6⟩⟩, #[]⟩ ∧
      ∀ trace h, graph.Path (Machine.heights 0) ⟨0⟩ 0 trace ⟨2⟩ h → h = 1 := by
  intro calls arena graph
  let loop : Expr := .loop ⟨3⟩ (.int ⟨0⟩ 1) (.jump ⟨2⟩ .exit)
  let value : Expr := .seq ⟨5⟩ [loop, .int ⟨4⟩ 8]
  have built : Built arena := .afterSeries .empty calls
  have found : arena.lookup ⟨6⟩ = .ok (.storeAt ⟨6⟩ (.int ⟨1⟩ 7) value, .none) := rfl
  have compiled : arena.compile ⟨6⟩ (.new {}) = .ok ⟨graph, ⟨⟨0⟩, ⟨6⟩⟩, #[]⟩ := by decide +kernel
  have first : value.children = [] ++ loop :: [.int ⟨4⟩ 8] := rfl
  have second : (Expr.storeAt ⟨6⟩ (.int ⟨1⟩ 7) value).children = [.int ⟨1⟩ 7] ++ value :: [] := rfl
  have inside : Expr.PartAt 0 (.storeAt ⟨6⟩ (.int ⟨1⟩ 7) value) 1 loop :=
    .operand second (.operand first (.whole _ _))
  have entered : graph.Path (Machine.heights 0) ⟨0⟩ 0 ([⟨.int, [.uint 7], ⟨1⟩⟩] ++ []) ⟨1⟩ 1 :=
    .jump rfl rfl (.here _ _)
  have all := height_eq_of_jump built found rfl rfl rfl rfl compiled (by decide) inside entered
  obtain ⟨target, -, -, same⟩ := all.1 .exit ⟨2⟩ (by decide)
  exact ⟨compiled, same⟩

/-- A jump out of the value of an indexed store leaves the index behind: the loop is entered with an
empty stack, and the jump goes to its exit with one value on it. -/
theorem height_ne_of_jump_from_value :
    let calls : List Call := [.int 1, .int 7, .jump .exit, .int 8, .seq [⟨2⟩, ⟨3⟩],
      .store (.indirect ⟨1⟩) ⟨4⟩, .loop ⟨0⟩ ⟨5⟩]
    let arena := Action.afterSeries (calls.map Call.run) {}
    ∃ cond body graph, Built arena ∧
      arena.lookup ⟨6⟩ = .ok (.loop ⟨6⟩ cond body, .none) ∧
      (Expr.loop ⟨6⟩ cond body).isPlain = true ∧
      arena.compile ⟨6⟩ (.new {}) = .ok ⟨graph, ⟨⟨0⟩, ⟨5⟩⟩, #[]⟩ ∧
      (.exit, ⟨2⟩) ∈ Expr.loopAnchors cond body 0 ∧
      graph.blocks[2]? = some ⟨[], .jump ⟨5⟩⟩ ∧
      ∃ trace, graph.Path (Machine.heights 0) ⟨0⟩ 0 trace ⟨2⟩ 1 := by
  intro calls arena
  let cond : Expr := .int ⟨0⟩ 1
  let body : Expr := .storeAt ⟨5⟩ (.int ⟨1⟩ 7) (.seq ⟨4⟩ [.jump ⟨2⟩ .exit, .int ⟨3⟩ 8])
  let graph : Graph := ⟨#[⟨[⟨.int, [.uint 1], ⟨0⟩⟩], .jump ⟨6⟩⟩,
    ⟨[⟨.int, [.uint 7], ⟨1⟩⟩], .jump ⟨2⟩⟩, ⟨[], .jump ⟨5⟩⟩, ⟨[⟨.int, [.uint 8], ⟨3⟩⟩], .jump ⟨4⟩⟩,
    ⟨[⟨.stores, [], ⟨5⟩⟩], .jump ⟨0⟩⟩, ⟨[], .none⟩, ⟨[], .branch ⟨1⟩ ⟨5⟩⟩]⟩
  have compiled : arena.compile ⟨6⟩ (.new {}) = .ok ⟨graph, ⟨⟨0⟩, ⟨5⟩⟩, #[]⟩ := by decide +kernel
  have toAnchor : graph.Path (Machine.heights 0) ⟨1⟩ 0 _ ⟨2⟩ 1 := .jump rfl rfl (.here _ _)
  have toBody : graph.Path (Machine.heights 0) ⟨6⟩ 1 _ ⟨2⟩ 1 := .branch true rfl rfl rfl toAnchor
  exact ⟨cond, body, graph, .afterSeries .empty calls, rfl, rfl, compiled, by decide, rfl, _,
    .jump rfl rfl toBody⟩

end Arena

end Flowgraph
