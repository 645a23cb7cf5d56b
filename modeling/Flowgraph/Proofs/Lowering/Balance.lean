import Flowgraph.Proofs.Expr.Typing
import Flowgraph.Proofs.Lowering.Levels
import Flowgraph.Proofs.Lowering.Meaning

/-! # The operand stack is in balance

In a graph with the layout of an orderly tree, all runs come to a block at the same height. So a
fragment leaves what the type of its tree says, and whatever way control takes to the exit of a loop
or back to its condition, the stack is as high as it was when the loop was entered. -/

namespace Flowgraph

/-! ## Graphs that fit heights -/

namespace Graph

variable {g : Graph} {floor last : Nat} {level : BlockId → Nat} {entry : BlockId}

/-- The graph has a block at the place, and the block fits the height of the place. -/
def FitsAt (g : Graph) (floor : Nat) (level : BlockId → Nat) (last : Nat) (id : BlockId) : Prop :=
  ∃ block, g.blocks[id.index]? = some block ∧ block.Fits floor level last (level id)

/-- Control that comes from one block at its height comes to the next one at that one's height. -/
theorem Path.eq_level {source target : BlockId} {s s' : Nat} {trace : List Instr}
    (fits : ∀ id, g.Reaches entry id → g.FitsAt floor level last id)
    (path : g.Path (Machine.heights floor) source s trace target s')
    (here : g.Reaches entry source) (start : s = level source) : s' = level target := by
  -- Each block on the way is within reach as well, so the induction carries that along.
  induction path with
  | here => exact start
  | jump found ran rest ih =>
      obtain ⟨block, same, after, ran', edge⟩ := fits _ here
      rw [found, Option.some.injEq] at same
      subst same
      rw [start, ran', Option.some.injEq] at ran
      refine ih (here.trans (.step found ?_ (.refl _))) ?_
      · simp [Block.successors, Edge.targets]
      · rw [← ran]
        exact edge.symm
  | branch answer found ran tested rest ih =>
      obtain ⟨block, same, after, ran', edge⟩ := fits _ here
      rw [found, Option.some.injEq] at same
      subst same
      rw [start, ran', Option.some.injEq] at ran
      refine ih (here.trans (.step found ?_ (.refl _))) ?_
      · cases answer <;> simp [Block.successors, Edge.targets]
      · have arrived := edge answer
        rw [ran, tested, Option.some.injEq] at arrived
        exact arrived

end Graph

namespace Expr

variable {g : Graph} {start h floor last : Nat} {level : BlockId → Nat} {e : Expr}

/-! ## Heights in a graph -/

/-- The heights, as heights of the blocks from `start` on. -/
def levelFrom (start : Nat) (heights : List Nat) (id : BlockId) : Nat :=
  heights.getD (id.index - start) 0

theorem agrees_levelFrom {heights : List Nat} (room : start + heights.length ≤ UInt32.size) :
    Agrees (levelFrom start heights) start heights := by
  intro i h found
  have inside := (List.getElem?_eq_some_iff.mp found).1
  rw [levelFrom, BlockId.index_ofIndex (by omega), Nat.add_sub_cancel_left,
    List.getD_eq_getElem?_getD, found]
  rfl

/-- With nothing behind a tree and no loop around it, control stays among its blocks. -/
theorem exists_of_reaches (holds : g.Holds start (e.layout start none noTargets))
    {source target : BlockId} (reaches : g.Reaches source target)
    (inside : ∃ i < e.blockCount, source = .ofIndex (start + i)) :
    ∃ i < e.blockCount, target = .ofIndex (start + i) := by
  induction reaches with
  | refl => exact inside
  | step found edge rest ih =>
      obtain ⟨i, hi, rfl⟩ := inside
      have here := List.getElem?_eq_getElem (by simpa using hi :
        i < (e.layout start none noTargets).length)
      have same := holds i _ here
      rw [found, Option.some.injEq] at same
      apply ih
      exact (wired_layout _ _ _ e _ (same ▸ List.getElem_mem _)).mem_successors edge

theorem jumpsTo_noTargets (level : BlockId → Nat) (h : Nat) : JumpsTo level noTargets h :=
  fun _ _ found => by cases found

/-- A tree with nothing behind it and no loop around it: whatever control comes to fits. -/
theorem fitsAt_of_holds (orderly : e.Orderly)
    (holds : g.Holds start (e.layout start none noTargets))
    (agrees : Agrees level start (e.levels h)) (above : floor ≤ h) {id : BlockId}
    (reaches : g.Reaches (.ofIndex start) id) : g.FitsAt floor level (h + e.yield) id := by
  have nonempty := exitOffset_lt e
  obtain ⟨i, hi, rfl⟩ := exists_of_reaches holds reaches ⟨0, by omega, rfl⟩
  have inLevels : i < (e.levels h).length := by simpa using hi
  have inLayout : i < (e.layout start none noTargets).length := by simpa using hi
  have ends : (Edge.toward none).Fits floor level (h + e.yield) (h + e.yield) := rfl
  have all := fitsLevels orderly above agrees ends fun _ => jumpsTo_noTargets level h
  have fits := all.get inLevels inLayout
  rw [List.get_eq_getElem, List.get_eq_getElem,
    ← agrees i _ (List.getElem?_eq_getElem inLevels)] at fits
  exact ⟨_, holds i _ (List.getElem?_eq_getElem inLayout), fits⟩

/-- What a tree does to the operand stack: each of its places has a height, and whatever control
comes to fits. -/
theorem exists_levels_of_holds (orderly : e.Orderly)
    (holds : g.Holds start (e.layout start none noTargets))
    (room : start + e.blockCount ≤ UInt32.size) (h : Nat) :
    ∃ level : BlockId → Nat, Agrees level start (e.levels h) ∧
      ∀ id, g.Reaches (.ofIndex start) id → g.FitsAt h level (h + e.yield) id := by
  have agrees : Agrees (levelFrom start (e.levels h)) start (e.levels h) :=
    agrees_levelFrom (by simpa using room)
  exact ⟨_, agrees, fun id => fitsAt_of_holds orderly holds agrees le_rfl⟩

/-- The exit is where the tree's yield is on the stack. -/
theorem height_exit_of_fitsAt (holds : g.Holds start (e.layout start none noTargets))
    (fits : g.FitsAt floor level last (e.fragment start).exit) :
    ∃ block, g.blocks[(e.fragment start).exit.index]? = some block ∧
      (Machine.heights floor).run block.instrs (level (e.fragment start).exit) = some last := by
  obtain ⟨block, found, after, ran, edge⟩ := fits
  obtain ⟨exit, foundExit, ends⟩ := edge_exit_none start e
  have same : g.blocks[(e.fragment start).exit.index]? = some exit := holds _ _ foundExit
  rw [found, Option.some.injEq] at same
  rw [← same] at ends
  rw [ends] at edge
  exact ⟨block, found, by rw [ran, edge]⟩

end Expr

/-! ## Fragments -/

namespace Arena

variable {arena : Arena} {id : ExprId} {e : Expr} {type : ValueType} {cx after : Context}
  {fragment : Fragment}

theorem orderly_of_built (built : Built arena) (found : arena.lookup id = .ok (e, type))
    (plain : e.isPlain = true) (kept : e.keepsIndices = true) : e.Orderly :=
  ⟨(built.typed found).1, plain, kept⟩

/-- Whatever the height at which a fragment is entered, each block within reach has a height of its
own at which all edges arrive. From there its instructions and its branch take nothing that was on
the stack before, and at the end of the exit the stack holds one value more if the tree has one. -/
theorem exists_levels_of_lower (built : Built arena) (found : arena.lookup id = .ok (e, type))
    (plain : e.isPlain = true) (kept : e.keepsIndices = true) (closed : cx.loops = [])
    (lowered : arena.lower id cx = .ok fragment after) (room : after.graph.size ≤ UInt32.size)
    (h : Nat) :
    ∃ level : BlockId → Nat, level fragment.entry = h ∧
      ∀ place, after.graph.Reaches fragment.entry place →
        ∃ block height, after.graph.blocks[place.index]? = some block ∧
          (Machine.heights h).run block.instrs (level place) = some height ∧
          (∀ target, block.edge = .jump target → level target = height) ∧
          (∀ onTrue onFalse, block.edge = .branch onTrue onFalse →
            ∀ answer, (Machine.heights h).test answer height =
              some (level (bif answer then onTrue else onFalse))) ∧
          (place = fragment.exit → height = h + if type.producesValue then 1 else 0) := by
  have orderly := orderly_of_built built found plain kept
  have roomAfter := room
  rw [← Action.after_of_ok lowered] at room
  obtain ⟨-, rfl, rfl⟩ := (lower_eq_ok_iff found closed room).mp lowered
  have holds := Graph.holds_append roomAfter
  obtain ⟨level, agrees, fits⟩ :=
    Expr.exists_levels_of_holds orderly holds (by simpa using roomAfter) h
  refine ⟨level, agrees.first, ?_⟩
  intro place reaches
  obtain ⟨block, foundBlock, height, ran, edge⟩ := fits place reaches
  refine ⟨block, height, foundBlock, ran, ?_, ?_, ?_⟩
  · intro target jumps
    rw [jumps] at edge
    exact edge
  · intro onTrue onFalse branches
    rw [branches] at edge
    exact edge
  · intro atExit
    subst atExit
    obtain ⟨exit, foundExit, ranExit⟩ := Expr.height_exit_of_fitsAt holds (fits _ reaches)
    rw [foundBlock, Option.some.injEq] at foundExit
    rw [← foundExit, ran, Option.some.injEq] at ranExit
    rw [ranExit, Expr.yield, (built.typed found).2]

/-- A loop that is left by a jump, and a load behind it: the stack is one higher at the branch and
at the end. -/
theorem exists_levels_of_lower_loop :
    let calls : List Call := [.int 1, .jump .exit, .jump .reenter, .seq [⟨1⟩, ⟨2⟩], .loop ⟨0⟩ ⟨3⟩,
      .int 7, .load (.indirect ⟨5⟩) .any, .seq [⟨4⟩, ⟨6⟩]]
    let arena := Action.afterSeries (calls.map Call.run) {}
    let graph : Graph := ⟨#[⟨[⟨.int, [.uint 1], ⟨0⟩⟩], .jump ⟨4⟩⟩, ⟨[], .jump ⟨3⟩⟩, ⟨[], .jump ⟨0⟩⟩,
      ⟨[], .jump ⟨5⟩⟩, ⟨[], .branch ⟨1⟩ ⟨3⟩⟩, ⟨[⟨.int, [.uint 7], ⟨5⟩⟩], .jump ⟨6⟩⟩,
      ⟨[⟨.loads, [], ⟨6⟩⟩], .none⟩]⟩
    arena.lower ⟨7⟩ (.new {}) = .ok ⟨⟨0⟩, ⟨6⟩⟩ { Context.new {} with graph } ∧
      ∃ level : BlockId → Nat, level ⟨0⟩ = 3 ∧ level ⟨4⟩ = 4 ∧
        (Machine.heights 3).run [⟨.loads, [], ⟨6⟩⟩] (level ⟨6⟩) = some 4 := by
  intro calls arena graph
  let loop : Expr := .loop ⟨4⟩ (.int ⟨0⟩ 1) (.seq ⟨3⟩ [.jump ⟨1⟩ .exit, .jump ⟨2⟩ .reenter])
  let value : Expr := .loadAt ⟨6⟩ (.int ⟨5⟩ 7) .any
  have built : Built arena := .afterSeries .empty calls
  have found : arena.lookup ⟨7⟩ = .ok (.seq ⟨7⟩ [loop, value], .any) := rfl
  have room : ((arena.lower ⟨7⟩).after (.new {})).graph.size ≤ UInt32.size := by decide +kernel
  have lowered : arena.lower ⟨7⟩ (.new {}) = .ok ⟨⟨0⟩, ⟨6⟩⟩ { Context.new {} with graph } :=
    (lower_eq_ok_iff found rfl room).mpr ⟨rfl, rfl, rfl⟩
  obtain ⟨level, atEntry, all⟩ :=
    exists_levels_of_lower built found rfl rfl rfl lowered (by decide) 3
  obtain ⟨first, height, foundFirst, ran, arrives, -⟩ := all ⟨0⟩ (.refl _)
  cases foundFirst
  have atBranch : level ⟨4⟩ = height := arrives ⟨4⟩ rfl
  rw [atEntry] at ran
  cases ran
  have toValue : graph.Path (Machine.heights 3) ⟨3⟩ 3 _ ⟨6⟩ 4 :=
    .jump rfl rfl (.jump rfl rfl (.here _ _))
  have toEnd : graph.Path (Machine.heights 3) ⟨0⟩ 3 _ ⟨6⟩ 4 :=
    .jump rfl rfl (.branch false rfl rfl rfl toValue)
  obtain ⟨last, height, foundLast, ran, -, -, ends⟩ := all ⟨6⟩ toEnd.reaches
  cases foundLast
  have height : height = 4 := ends rfl
  exact ⟨lowered, level, atEntry, atBranch, height ▸ ran⟩

end Arena

end Flowgraph
