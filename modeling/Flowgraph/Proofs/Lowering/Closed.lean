import Flowgraph.Proofs.Graph.Paths
import Flowgraph.Proofs.Graph.Search
import Flowgraph.Machine
import Flowgraph.Proofs.Lowering.Outcome

/-! # A finished program is closed and has one way out

Each block of a layout goes on inside the tree, behind it or where a jump of a surrounding loop
goes, and a branch goes on inside the tree. So a layout of which no jump leaves, put into an empty
graph with nothing behind it, is closed, and control ends at its exit alone. -/

namespace Flowgraph

@[simp] theorem Edge.isBranch_branch (onTrue onFalse : BlockId) :
    (branch onTrue onFalse).isBranch = true :=
  rfl

namespace Expr

/-! ## Where the blocks of a tree go on -/

/-- The blocks that `count` blocks from `start` on are made of, with `next` behind them and
`targets` for jumps. -/
inductive Wired (start count : Nat) (next : Option BlockId) (targets : LoopJump → Option BlockId) :
    Block → Prop where
  | behind (instrs) : Wired start count next targets ⟨instrs, .toward next⟩
  | jump (kind) : Wired start count next targets ⟨[], .toward ((targets kind).or next)⟩
  | inside (instrs) {i} (h : i < count) :
      Wired start count next targets ⟨instrs, .toward (some (.ofIndex (start + i)))⟩
  | branch {i j} (hi : i < count) (hj : j < count) :
      Wired start count next targets
        ⟨[], .branch (.ofIndex (start + i)) (.ofIndex (start + j))⟩

section

variable {start count start' count' : Nat} {next next' : Option BlockId}
  {targets targets' : LoopJump → Option BlockId} {block : Block}

/-- What is behind a part of a tree, or a jump's target in it, may lie in the rest of the tree. -/
theorem Wired.widen (wired : Wired start count next targets block) (low : start' ≤ start)
    (high : start + count ≤ start' + count')
    (onward : next = next' ∨ ∃ i < count', next = some (.ofIndex (start' + i)))
    (jumps : targets = targets' ∨
      ∀ kind, ∃ i < count', targets kind = some (.ofIndex (start' + i))) :
    Wired start' count' next' targets' block := by
  have shift : ∀ i, start + i = start' + (start - start' + i) := fun i => by omega
  cases wired with
  | behind instrs =>
      rcases onward with rfl | ⟨i, hi, rfl⟩
      · exact .behind instrs
      · exact .inside instrs hi
  | jump kind =>
      rcases jumps with rfl | inside
      · cases found : targets kind with
        | none =>
            rcases onward with rfl | ⟨i, hi, rfl⟩
            · exact .behind []
            · exact .inside [] hi
        | some target =>
            have same : Wired start' count' next' targets
                ⟨[], .toward ((targets kind).or next')⟩ := .jump kind
            rwa [found] at same
      · obtain ⟨i, hi, found⟩ := inside kind
        rw [found]
        exact .inside [] hi
  | @inside instrs i hi =>
      rw [shift i]
      exact .inside instrs (by omega)
  | @branch i j hi hj =>
      rw [shift i, shift j]
      exact .branch (by omega) (by omega)

theorem Wired.instrs_of_branch (wired : Wired start count next targets block)
    (branches : block.edge.isBranch = true) : block.instrs = [] := by
  cases wired with
  | branch => rfl
  | _ => simp at branches

theorem Wired.edge_ne_none {target : BlockId}
    (wired : Wired start count (some target) targets block) : block.edge ≠ .none := by
  cases wired with
  | jump kind => cases targets kind <;> simp [Edge.toward]
  | _ => simp [Edge.toward]

/-- With nothing behind the tree and no loop around it, control stays among its blocks. -/
theorem Wired.mem_successors (wired : Wired start count none noTargets block) {target : BlockId}
    (edge : target ∈ block.successors) : ∃ i < count, target = .ofIndex (start + i) := by
  cases wired with
  | behind | jump => simp [Block.successors, Edge.toward, Edge.targets, noTargets] at edge
  | @inside _ i hi =>
      simp only [Block.successors, Edge.toward, Edge.targets, List.mem_singleton] at edge
      exact ⟨i, hi, edge⟩
  | @branch i j hi hj =>
      simp only [Block.successors, Edge.targets, List.mem_cons, List.not_mem_nil, or_false] at edge
      rcases edge with rfl | rfl
      · exact ⟨i, hi, rfl⟩
      · exact ⟨j, hj, rfl⟩

end

section

variable (start : Nat) (next : Option BlockId) (targets : LoopJump → Option BlockId)

theorem wired_layoutAll_of {items : List Expr}
    (ih : ∀ item ∈ items, ∀ start next, ∀ block ∈ item.layout start next targets,
      Wired start item.blockCount next targets block) :
    ∀ block ∈ layoutAll start next targets items,
      Wired start (blockCountAll items) next targets block := by
  induction items generalizing start with
  | nil => intro block m; cases m
  | cons item rest ihRest =>
      have first := ih item (by simp) start
      cases rest with
      | nil => exact first next
      | cons second rest =>
          have nonempty := exitOffset_lt second
          intro block m
          rw [layoutAll_cons_cons] at m
          rcases List.mem_append.mp m with m | m
          · apply (first _ block m).widen le_rfl
            · simp
            · refine .inr ⟨item.blockCount, ?_, rfl⟩
              simp only [blockCountAll_cons]
              omega
            · exact .inl rfl
          · have others := ihRest (start + item.blockCount) fun item m => ih item (by simp [m])
            apply (others block m).widen (by omega)
            · simp only [blockCountAll_cons]
              omega
            · exact .inl rfl
            · exact .inl rfl

theorem wired_layout (e : Expr) :
    ∀ block ∈ e.layout start next targets, Wired start e.blockCount next targets block := by
  induction e using inductionOnRole generalizing start next targets with
  | instr e instr own ih =>
      intro block m
      rw [layout_of_ownInstr _ _ _ own] at m
      rw [blockCount_of_ownInstr own]
      rcases List.mem_append.mp m with m | m
      · have operands := wired_layoutAll_of _ _ _ (fun item m start next =>
          ih item m start next targets) block m
        apply operands.widen le_rfl (by omega)
        · exact .inr ⟨_, Nat.lt_succ_self _, rfl⟩
        · exact .inl rfl
      · rw [List.mem_singleton.mp m]
        exact .behind [instr]
  | seq id items ih =>
      cases items with
      | nil =>
          intro block m
          rw [List.mem_singleton.mp m]
          exact .behind []
      | cons item rest =>
          rw [blockCount_seq_cons]
          exact wired_layoutAll_of start next targets fun item m start next =>
            ih item m start next targets
  | loop id cond body ihCond ihBody =>
      intro block m
      have inLoop : ∀ kind, ∃ i < cond.blockCount + body.blockCount + 2,
          loopTargets start (start + cond.blockCount + body.blockCount) kind =
            some (.ofIndex (start + i)) := by
        intro kind
        cases kind with
        | exit => exact ⟨cond.blockCount + body.blockCount, by omega, by rw [← Nat.add_assoc]; rfl⟩
        | reenter => exact ⟨0, by omega, rfl⟩
      rw [blockCount_loop]
      simp only [layout, List.append_assoc, List.mem_append, List.mem_cons, List.not_mem_nil,
        or_false] at m
      rcases m with m | m | rfl | rfl
      · apply (ihCond _ _ _ block m).widen le_rfl (by omega) _ (.inr inLoop)
        exact .inr ⟨cond.blockCount + body.blockCount + 1, by omega, by simp only [Nat.add_assoc]⟩
      · apply (ihBody _ _ _ block m).widen (by omega) (by omega) _ (.inr inLoop)
        exact .inr ⟨0, by omega, rfl⟩
      · exact .behind []
      · rw [Nat.add_assoc start]
        exact .branch (by omega) (by omega)
  | jump id kind =>
      intro block m
      rw [List.mem_singleton.mp m]
      exact .jump kind

/-! ## Ends and branches -/

/-- With nothing behind the tree and no loop around it, its exit is the one block that goes on
nowhere. -/
theorem edge_layout_eq_none_iff (e : Expr) {i : Nat} {block : Block}
    (found : (e.layout start none noTargets)[i]? = some block) :
    block.edge = .none ↔ i = e.exitOffset := by
  constructor
  · intro ends
    by_contra other
    -- Redirecting the exit leaves this block alone, and then no block ends.
    have kept : (e.layout start (some ⟨0⟩) noTargets)[i]? = some block := by
      rw [layout_some, List.getElem?_modify, found]
      simp [Ne.symm other]
    exact (wired_layout _ _ _ e block (List.mem_of_getElem? kept)).edge_ne_none ends
  · intro same
    obtain ⟨last, foundLast, ends⟩ := edge_exit_none start e
    rw [same, foundLast, Option.some.injEq] at found
    rwa [← found]

theorem countP_isBranch_layoutAll_of {items : List Expr}
    (ih : ∀ item ∈ items, ∀ start next,
      (item.layout start next targets).countP (·.edge.isBranch) = item.postorder.countP isLoop) :
    (layoutAll start next targets items).countP (·.edge.isBranch) =
      (items.flatMap postorder).countP isLoop := by
  induction items generalizing start with
  | nil => rfl
  | cons item rest ihRest =>
      have first := ih item (by simp) start
      have others := fun start => ihRest start fun item m => ih item (by simp [m])
      cases rest with
      | nil => simp [layoutAll, first]
      | cons second rest =>
          rw [layoutAll_cons_cons, List.countP_append, first, others, ← List.countP_append]
          rfl

/-- There are as many branches as loops. -/
theorem countP_isBranch_layout (e : Expr) :
    (e.layout start next targets).countP (·.edge.isBranch) = e.loopCount := by
  unfold loopCount
  induction e using inductionOnRole generalizing start next targets with
  | instr e instr own ih =>
      have notLoop : isLoop e = false := by cases e <;> simp_all [ownInstr, isLoop]
      rw [layout_of_ownInstr _ _ _ own, postorder_eq, List.countP_append, List.countP_append,
        countP_isBranch_layoutAll_of _ _ _ fun item m start next => ih item m start next targets]
      simp [notLoop]
  | seq id items ih =>
      rw [postorder_eq, List.countP_append, children]
      cases items with
      | nil => simp [layout, isLoop]
      | cons item rest =>
          rw [← countP_isBranch_layoutAll_of start next targets fun item m start next =>
            ih item m start next targets]
          simp [layout, isLoop]
  | loop id cond body ihCond ihBody =>
      rw [layout, postorder, List.countP_append, List.countP_append, List.countP_append,
        List.countP_append, ihCond, ihBody]
      simp [isLoop]
  | jump id kind => simp [layout, postorder, isLoop]

end

end Expr

/-! ## The layout as a graph -/

section

variable {g : Graph} {e : Expr}

/-- The graph is the layout of the tree, with nothing behind it and no loop around it. -/
def Graph.IsLayout (g : Graph) (e : Expr) : Prop :=
  g.blocks.toList = e.layout 0 none Expr.noTargets

theorem Graph.IsLayout.size_eq (same : g.IsLayout e) : g.size = e.blockCount := by
  rw [size, ← Array.length_toList, same, Expr.length_layout]

theorem Graph.IsLayout.wired (same : g.IsLayout e) {block : Block} (mem : block ∈ g.blocks) :
    Expr.Wired 0 e.blockCount none Expr.noTargets block := by
  apply Expr.wired_layout
  rw [← same]
  exact mem.val

theorem Graph.IsLayout.closed (same : g.IsLayout e) (room : g.size ≤ UInt32.size) : g.Closed := by
  intro block mem target edge
  obtain ⟨i, hi, rfl⟩ := (same.wired mem).mem_successors edge
  rw [same.size_eq] at room ⊢
  rw [BlockId.index_ofIndex (by omega)]
  omega

theorem Graph.IsLayout.edge_eq_none_iff (same : g.IsLayout e) {i : Nat} {block : Block}
    (found : g.blocks[i]? = some block) : block.edge = .none ↔ i = e.exitOffset := by
  apply Expr.edge_layout_eq_none_iff 0
  rw [← same, Array.getElem?_toList, found]

theorem Graph.IsLayout.countP_isBranch (same : g.IsLayout e) :
    g.blocks.countP (·.edge.isBranch) = e.loopCount := by
  rw [← Array.countP_toList, same, Expr.countP_isBranch_layout]

theorem Graph.IsLayout.holds (same : g.IsLayout e) (room : g.size ≤ UInt32.size) :
    g.Holds 0 (e.layout 0 none Expr.noTargets) := by
  intro i block found
  have inside := (List.getElem?_eq_some_iff.mp found).1
  rw [Expr.length_layout, ← same.size_eq] at inside
  rw [BlockId.index_ofIndex (by omega), Nat.zero_add, ← Array.getElem?_toList, same, found]

/-- The root of a tree's layout lies in it. -/
theorem Graph.IsLayout.index_fragment (same : g.IsLayout e) (room : g.size ≤ UInt32.size) :
    (e.fragment 0).entry.index = 0 ∧ (e.fragment 0).exit.index = e.exitOffset ∧ 0 < g.size ∧
      e.exitOffset < g.size := by
  have inside := e.exitOffset_lt
  rw [same.size_eq] at room ⊢
  refine ⟨BlockId.index_ofIndex (by decide), ?_, by omega, inside⟩
  rw [Expr.fragment, BlockId.index_ofIndex (by omega)]
  omega

end

/-! ## Finished programs -/

namespace Arena

variable {arena : Arena} {id : ExprId} {e : Expr} {type : ValueType} {cx : Context}
  {program : Program}

/-- A program is made of what lowering leaves behind. -/
theorem compile_cases (compiled : arena.compile id cx = .ok program) :
    ∃ after, arena.lower id cx = .ok program.root after ∧ after.loops = [] ∧
      program = ⟨after.graph, program.root, after.slots.allocated⟩ := by
  cases lowered : arena.lower id cx with
  | error failure after =>
      rw [compile_of_lower_error lowered] at compiled
      cases compiled
  | ok fragment after =>
      rw [compile_of_lower_ok lowered] at compiled
      cases finished : after.finish fragment with
      | error error =>
          rw [finished] at compiled
          cases compiled
      | ok done =>
          rw [finished] at compiled
          cases compiled
          obtain ⟨none, rfl⟩ := Context.finish_eq_ok_iff.mp finished
          exact ⟨after, rfl, none, rfl⟩

/-- A compilation that starts with an open loop does not end. -/
theorem loops_of_compile (found : arena.lookup id = .ok (e, type))
    (compiled : arena.compile id cx = .ok program) (room : program.graph.size ≤ UInt32.size) :
    cx.loops = [] := by
  obtain ⟨after, lowered, none, same⟩ := compile_cases compiled
  rw [same, ← Action.after_of_ok lowered, lower_of_lookup found] at room
  rw [lower_of_lookup found] at lowered
  by_contra open_
  have run := e.lower_run cx room fun closed => absurd closed open_
  rw [lowered, EStateM.Result.ok.injEq] at run
  rw [run.2, Context.loops_grown_eq_nil_iff] at none
  exact open_ none

/-- A compilation that ends appends the tree's layout to the graph. -/
theorem compile_eq_layout (found : arena.lookup id = .ok (e, type)) (closed : cx.loops = [])
    (compiled : arena.compile id cx = .ok program) (room : program.graph.size ≤ UInt32.size) :
    e.strayJumps = [] ∧ program.root = e.fragment cx.graph.size ∧
      program.graph = cx.graph.append (e.layout cx.graph.size none Expr.noTargets) := by
  obtain ⟨after, lowered, -, same⟩ := compile_cases compiled
  rw [same, ← Action.after_of_ok lowered] at room
  obtain ⟨stray, root, rfl⟩ := (lower_eq_ok_iff found closed room).mp lowered
  exact ⟨stray, root, congrArg Program.graph same⟩

theorem isLayout_of_compile (found : arena.lookup id = .ok (e, type)) (fresh : cx.graph.size = 0)
    (closed : cx.loops = []) (compiled : arena.compile id cx = .ok program)
    (room : program.graph.size ≤ UInt32.size) : program.graph.IsLayout e := by
  obtain ⟨-, -, same⟩ := compile_eq_layout found closed compiled room
  have none : cx.graph.blocks = #[] := Array.eq_empty_of_size_eq_zero fresh
  rw [same, fresh, Graph.append, none]
  simp [Graph.IsLayout]

/-- Whatever slots were handed out before, a finished program is a closed graph. Control ends at the
exit of the root and nowhere else, there is one branch for each loop, and what looks for blocks from
the root on finds them all. -/
theorem compile_closed (found : arena.lookup id = .ok (e, type)) (fresh : cx.graph.size = 0)
    (closed : cx.loops = []) (compiled : arena.compile id cx = .ok program)
    (room : program.graph.size ≤ UInt32.size) :
    program.graph.Closed ∧
      program.root.entry.index < program.graph.size ∧
      program.root.exit.index < program.graph.size ∧
      (∀ i block, program.graph.blocks[i]? = some block →
        (block.edge = .none ↔ i = program.root.exit.index)) ∧
      program.graph.blocks.countP (·.edge.isBranch) = e.loopCount ∧
      (∀ block ∈ program.graph.blocks, block.edge.isBranch = true → block.instrs = []) ∧
      (∃ order, program.graph.reachable program.root.entry = .ok order ∧
        ∀ id ∈ order, id.index < program.graph.size) ∧
      (∃ slots, program.graph.slotsNamed program.root.entry = .ok slots) ∧
      (∃ text, program.listing = .ok text) ∧
      ∀ {σ : Type} (m : Machine σ) (s : σ) (trace : List Instr) (last : BlockId) (s' : σ),
        program.graph.Path m program.root.entry s trace last s' →
          ∃ block, program.graph.blocks[last.index]? = some block ∧
            (block.edge = .none ↔ last = program.root.exit) := by
  have same := isLayout_of_compile found fresh closed compiled room
  have root := (compile_eq_layout found closed compiled room).2.1
  rw [fresh] at root
  obtain ⟨entryIndex, exitIndex, entryInside, exitInside⟩ := same.index_fragment room
  rw [← root] at entryIndex exitIndex
  have graphClosed := same.closed room
  have inside : program.graph.Inside program.root.entry :=
    graphClosed.inside (by rw [entryIndex]; exact entryInside)
  have ends : ∀ i block, program.graph.blocks[i]? = some block →
      (block.edge = .none ↔ i = program.root.exit.index) := fun i block found => by
    rw [same.edge_eq_none_iff found, exitIndex]
  refine ⟨graphClosed, by omega, by omega, ends, same.countP_isBranch,
    fun block mem => (same.wired mem).instrs_of_branch, Graph.reachable_run inside,
    Graph.slotsNamed_run inside, Graph.listing_run inside, ?_⟩
  intro σ m s trace last s' path
  have found := Array.getElem?_eq_getElem (inside last path.reaches)
  exact ⟨_, found, by rw [ends _ _ found, BlockId.index_inj]⟩

theorem compile_closed_nested :
    let build : Action Arena ExprId := do
      let one ← int 1
      let leave ← jump .exit
      let inner ← loop one leave
      loop one inner
    let arena := build.after {}
    let cx := (Context.onSlots SlotAllocator.fresh).after (.new {})
    let pushed : Instr := ⟨.int, [.uint 1], ⟨0⟩⟩
    let graph : Graph := ⟨#[⟨[pushed], .jump ⟨6⟩⟩,
      ⟨[pushed], .jump ⟨4⟩⟩, ⟨[], .jump ⟨3⟩⟩, ⟨[], .jump ⟨0⟩⟩, ⟨[], .branch ⟨2⟩ ⟨3⟩⟩,
      ⟨[], .none⟩, ⟨[], .branch ⟨1⟩ ⟨5⟩⟩]⟩
    arena.compile ⟨3⟩ cx = .ok ⟨graph, ⟨⟨0⟩, ⟨5⟩⟩, #[⟨256, false⟩]⟩ ∧ graph.Closed ∧
      graph.blocks.countP (·.edge.isBranch) = 2 ∧
      (∀ i block, graph.blocks[i]? = some block → (block.edge = .none ↔ i = 5)) ∧
      ∃ order, graph.reachable ⟨0⟩ = .ok order ∧ ∀ id ∈ order, id.index < 7 := by
  intro build arena cx pushed graph
  let one : Expr := .int ⟨0⟩ 1
  have found : arena.lookup ⟨3⟩ =
    .ok (.loop ⟨3⟩ one (.loop ⟨2⟩ one (.jump ⟨1⟩ .exit)), .none) := rfl
  have compiled : arena.compile ⟨3⟩ cx = .ok ⟨graph, ⟨⟨0⟩, ⟨5⟩⟩, #[⟨256, false⟩]⟩ := by
    decide +kernel
  have all := compile_closed found rfl rfl compiled (by decide)
  obtain ⟨closed, -, -, ends, branches, -, reachable, -⟩ := all
  exact ⟨compiled, closed, branches, ends, reachable⟩

end Arena

end Flowgraph
