import Flowgraph.Expr.Construction
import Flowgraph.Proofs.Context.Steps

/-! # Open loops and their anchors

The anchors of all open loops are distinct, and each is a block that does nothing and does not
branch. So closing the innermost loop cannot fail. It gives their successors to just those anchors
that were made for the loop since it was opened. -/

namespace Flowgraph

open Context

/-! ## Redirected blocks -/

section

variable {anchors : List BlockId} {target : BlockId} {blocks : List Block}

theorem getElem?_redirectAll_of_ne {i : Nat} (other : ∀ anchor ∈ anchors, anchor.index ≠ i) :
    (redirectAll 0 anchors target blocks)[i]? = blocks[i]? := by
  induction anchors generalizing blocks with
  | nil => rfl
  | cons anchor rest ih =>
      change (redirectAll 0 rest target (blocks.modify (anchor.index - 0) _))[i]? = _
      rw [ih fun a m => other a (by simp [m]), Nat.sub_zero,
        List.getElem?_modify_ne _ _ (other anchor (by simp))]

theorem getElem?_redirectAll_of_mem {anchor : BlockId} {block : Block} (m : anchor ∈ anchors)
    (found : blocks[anchor.index]? = some block) :
    (redirectAll 0 anchors target blocks)[anchor.index]? = some (block.redirect target) := by
  induction anchors generalizing blocks block with
  | nil => cases m
  | cons first rest ih =>
      change (redirectAll 0 rest target (blocks.modify (first.index - 0) _))[anchor.index]? = _
      rw [Nat.sub_zero]
      by_cases again : anchor ∈ rest
      · have kept : ∃ other, (blocks.modify first.index (Block.redirect target))[anchor.index]? =
            some other ∧ other.redirect target = block.redirect target := by
          rw [List.getElem?_modify, found]
          refine ⟨_, rfl, ?_⟩
          by_cases same : first.index = anchor.index <;> simp [same, Block.redirect]
        obtain ⟨other, foundOther, same⟩ := kept
        rw [ih again foundOther, same]
      · obtain rfl : anchor = first := by simpa [again] using m
        have others : ∀ a ∈ rest, a.index ≠ anchor.index := fun a m same =>
          again (BlockId.index_inj.mp same ▸ m)
        rw [getElem?_redirectAll_of_ne others, List.getElem?_modify_eq, found]
        rfl

end

namespace LoopFrame

theorem anchors_register_perm (frame : LoopFrame) (kind : LoopJump) (anchor : BlockId) :
    (frame.register kind anchor).anchors.Perm (frame.anchors ++ [anchor]) := by
  obtain ⟨node, exits, reentries⟩ := frame
  cases kind with
  | reenter => simp [register, anchors]
  | exit =>
      simp only [register, anchors, Array.toList_push, List.append_assoc]
      exact List.perm_append_comm.append_left _

/-- Registering anchors adds them and loses none. -/
theorem anchors_registerAll_perm (frame : LoopFrame) (made : List (LoopJump × BlockId)) :
    (frame.registerAll made).anchors.Perm (frame.anchors ++ made.map Prod.snd) := by
  induction made generalizing frame with
  | nil => simp [registerAll]
  | cons anchor rest ih =>
      obtain ⟨kind, a⟩ := anchor
      have first := (frame.anchors_register_perm kind a).append_right (rest.map Prod.snd)
      rw [List.append_assoc] at first
      exact (ih (frame.register kind a)).trans first

theorem registerAll_append (frame : LoopFrame) (made more : List (LoopJump × BlockId)) :
    frame.registerAll (made ++ more) = (frame.registerAll made).registerAll more :=
  List.foldl_append

end LoopFrame

namespace Context

variable {cx after : Context} {frame : LoopFrame} {outer : List LoopFrame}

/-! ## Closing a loop -/

/-- All that waits for a successor is a block of its own, which does nothing and does not branch. -/
structure Tidy (cx : Context) : Prop where
  distinct : cx.pending.Nodup
  bare : ∀ anchor ∈ cx.pending, cx.graph.BareAt anchor

theorem closeLoop_outside (exit reentry : BlockId) (closed : cx.loops = []) :
    closeLoop exit reentry cx = .error (.error (.internal .noOpenLoop)) cx := by
  obtain ⟨options, slots, graph, loops⟩ := cx
  cases closed
  rfl

/-- The blocks with the anchors of a loop wired. -/
def wired (frame : LoopFrame) (exit reentry : BlockId) (blocks : List Block) : List Block :=
  redirectAll 0 frame.reentries.toList reentry (redirectAll 0 frame.exits.toList exit blocks)

theorem closeLoop_wired (exit reentry : BlockId) (open_ : cx.loops = frame :: outer)
    (simple : ∀ anchor ∈ frame.anchors, SimpleAt cx.graph.blocks.toList anchor.index) :
    closeLoop exit reentry cx = .ok frame { cx with
      graph := ⟨(wired frame exit reentry cx.graph.blocks.toList).toArray⟩, loops := outer } := by
  obtain ⟨options, slots, ⟨blocks⟩, loops⟩ := cx
  cases open_
  -- The context is one with an empty graph that has grown.
  let empty : Context := ⟨options, slots, {}, outer⟩
  have popped : popLoop ⟨options, slots, ⟨blocks⟩, frame :: outer⟩ =
      .ok frame (empty.grown blocks.toList []) := by
    simp [popLoop, grown, empty, Graph.append, enroll_nil]
  have exits : AnchorsIn empty.graph.size frame.exits.toList blocks.toList :=
    fun anchor m => ⟨Nat.zero_le _, simple anchor (List.mem_append_left _ m)⟩
  have reentries : AnchorsIn empty.graph.size frame.reentries.toList blocks.toList :=
    fun anchor m => ⟨Nat.zero_le _, simple anchor (List.mem_append_right _ m)⟩
  rw [closeLoop, Action.bind_run popped, Action.bind_run (forM_setNext_grown _ exit exits),
    Action.bind_run (forM_setNext_grown _ reentry (reentries.redirectAll exit))]
  change EStateM.Result.ok _ (empty.grown (wired frame exit reentry blocks.toList) []) = _
  simp [grown, empty, Graph.append, enroll_nil]

/-- The innermost loop is closed: its anchors have their successors, and nothing else has
changed. -/
structure Closes (cx : Context) (exit reentry : BlockId) (frame : LoopFrame) (after : Context) :
    Prop where
  loops_eq : cx.loops = frame :: after.loops
  exits_go : ∀ anchor ∈ frame.exits,
    after.graph.blocks[anchor.index]? = some ⟨[], .jump exit⟩
  reentries_go : ∀ anchor ∈ frame.reentries,
    after.graph.blocks[anchor.index]? = some ⟨[], .jump reentry⟩
  others_stay : ∀ i, (∀ anchor ∈ frame.anchors, anchor.index ≠ i) →
    after.graph.blocks[i]? = cx.graph.blocks[i]?

theorem Tidy.closes (tidy : cx.Tidy) (exit reentry : BlockId) (open_ : cx.loops = frame :: outer) :
    ∃ after, closeLoop exit reentry cx = .ok frame after ∧ Closes cx exit reentry frame after := by
  have waits : ∀ anchor ∈ frame.anchors, anchor ∈ cx.pending := fun anchor m =>
    List.mem_flatMap.mpr ⟨frame, by simp [open_], m⟩
  have bare : ∀ anchor ∈ frame.anchors, ∃ block,
      cx.graph.blocks.toList[anchor.index]? = some block ∧ block.redirect exit = ⟨[], .jump exit⟩ ∧
        block.redirect reentry = ⟨[], .jump reentry⟩ ∧ block.isSimple = true := fun anchor m => by
    obtain ⟨block, found, idle, simple⟩ := tidy.bare anchor (waits anchor m)
    rw [← Array.getElem?_toList] at found
    exact ⟨block, found, by simp [Block.redirect, idle], by simp [Block.redirect, idle], simple⟩
  have distinct : frame.anchors.Nodup := by
    have all := tidy.distinct
    rw [pending, open_, List.flatMap_cons] at all
    exact all.of_append_left
  have apart := List.disjoint_of_nodup_append distinct
  refine ⟨_, closeLoop_wired exit reentry open_ ?_, open_, ?_, ?_, ?_⟩
  · intro anchor m
    obtain ⟨block, found, -, -, simple⟩ := bare anchor m
    exact ⟨block, found, simple⟩
  · intro anchor m
    have m := Array.mem_toList_iff.mpr m
    obtain ⟨block, found, goes, -⟩ := bare anchor (List.mem_append_left _ m)
    rw [List.getElem?_toArray, wired, getElem?_redirectAll_of_ne,
      getElem?_redirectAll_of_mem m found, goes]
    intro other mOther same
    rw [BlockId.index_inj.mp same] at mOther
    exact apart m mOther
  · intro anchor m
    have m := Array.mem_toList_iff.mpr m
    obtain ⟨block, found, -, goes, -⟩ := bare anchor (List.mem_append_right _ m)
    rw [List.getElem?_toArray, wired, getElem?_redirectAll_of_mem m _, goes]
    rw [getElem?_redirectAll_of_ne, found]
    intro other mOther same
    rw [BlockId.index_inj.mp same] at mOther
    exact apart mOther m
  · intro i other
    rw [List.getElem?_toArray, wired,
      getElem?_redirectAll_of_ne fun anchor m => other anchor (List.mem_append_right _ m),
      getElem?_redirectAll_of_ne fun anchor m => other anchor (List.mem_append_left _ m),
      Array.getElem?_toList]

/-! ## Every call keeps the anchors apart -/

theorem tidy_new (options : Options) : (Context.new options).Tidy :=
  ⟨List.nodup_nil, fun anchor m => by cases m⟩

theorem Tidy.opened (tidy : cx.Tidy) (node : ExprId) : (cx.opened node).Tidy :=
  ⟨tidy.distinct, tidy.bare⟩

theorem Tidy.of_closes {exit reentry : BlockId} (tidy : cx.Tidy)
    (closes : Closes cx exit reentry frame after) : after.Tidy := by
  have all := tidy.distinct
  have split : cx.pending = frame.anchors ++ after.pending := by
    rw [pending, closes.loops_eq, List.flatMap_cons, pending]
  rw [split] at all
  refine ⟨all.of_append_right, ?_⟩
  intro anchor m
  obtain ⟨block, found, plain⟩ := tidy.bare anchor (split ▸ List.mem_append_right _ m)
  refine ⟨block, ?_, plain⟩
  rw [closes.others_stay _ ?_, found]
  intro other mOther same
  rw [BlockId.index_inj.mp same] at mOther
  exact List.disjoint_of_nodup_append all mOther m

theorem perm_pending_enroll {made : List (LoopJump × BlockId)} (frame : LoopFrame)
    (outer : List LoopFrame) :
    ((enroll made (frame :: outer)).flatMap LoopFrame.anchors).Perm
      ((frame :: outer).flatMap LoopFrame.anchors ++ made.map Prod.snd) := by
  have grown := frame.anchors_registerAll_perm made
  rw [enroll, List.flatMap_cons, List.flatMap_cons]
  refine (grown.append_right _).trans ?_
  rw [List.append_assoc, List.append_assoc]
  exact List.perm_append_comm.append_left _

theorem Tidy.of_advances {made : List (LoopJump × BlockId)} (tidy : cx.Tidy)
    (advances : Advances cx made after) : after.Tidy := by
  cases loops : cx.loops with
  | nil =>
      have none : after.pending = [] := by rw [pending, advances.loops_eq, loops]; rfl
      exact ⟨none ▸ List.nodup_nil, fun anchor m => by rw [none] at m; cases m⟩
  | cons frame outer =>
      have open_ : cx.loops ≠ [] := by simp [loops]
      have fresh := advances.fresh open_
      have perm : after.pending.Perm (cx.pending ++ made.map Prod.snd) := by
        rw [pending, pending, advances.loops_eq, loops]
        exact perm_pending_enroll frame outer
      have ascending : (made.map Prod.snd).Nodup := by
        rw [List.Nodup, List.pairwise_map]
        exact (advances.ascending open_).imp fun before same => by simp [same] at before
      constructor
      · refine perm.nodup_iff.mpr (tidy.distinct.append ascending ?_)
        intro anchor old new
        obtain ⟨a, isMade, rfl⟩ := List.mem_map.mp new
        have below := (tidy.bare _ old).lt
        have above := (fresh a isMade).1
        omega
      · intro anchor m
        rcases List.mem_append.mp (perm.mem_iff.mp m) with old | new
        · exact advances.bare anchor (tidy.bare anchor old)
        · obtain ⟨a, isMade, rfl⟩ := List.mem_map.mp new
          exact (fresh a isMade).2

/-- What a call does to the open loops of a tidy context. -/
theorem Tidy.call_cases (tidy : cx.Tidy) (call : Call)
    (room : (call.run.after cx).graph.size ≤ UInt32.size) :
    (call.run.after cx).Tidy ∧
      ((∃ node, call = .openLoop node ∧ (call.run.after cx).loops = { node } :: cx.loops) ∨
        (∃ exit reentry, call = .closeLoop exit reentry ∧
          (call.run.after cx).loops = cx.loops.tail) ∨
        (call.run.after cx).loops = enroll (call.anchors cx) cx.loops) := by
  rcases call.run_cases cx room with ⟨node, rfl, run⟩ | ⟨exit, reentry, rfl, run⟩ | advances
  · rw [run]
    exact ⟨tidy.opened node, .inl ⟨node, rfl, rfl⟩⟩
  · cases loops : cx.loops with
    | nil =>
        rw [run, Action.after_of_error (closeLoop_outside exit reentry loops), loops]
        exact ⟨tidy, .inr (.inl ⟨exit, reentry, rfl, rfl⟩)⟩
    | cons frame outer =>
        obtain ⟨after, closed, closes⟩ := tidy.closes exit reentry loops
        have same := closes.loops_eq
        rw [loops, List.cons.injEq] at same
        rw [run, Action.after_of_ok closed]
        exact ⟨tidy.of_closes closes, .inr (.inl ⟨exit, reentry, rfl, same.2.symm⟩)⟩
  · exact ⟨tidy.of_advances advances, .inr (.inr advances.loops_eq)⟩

theorem size_le_runAll (calls : List Call) (cx : Context) :
    cx.graph.size ≤ (Call.runAll calls cx).graph.size := by
  induction calls generalizing cx with
  | nil => exact le_rfl
  | cons call rest ih => exact (call.grows cx).trans (ih _)

theorem Tidy.runAll (tidy : cx.Tidy) (calls : List Call)
    (room : (Call.runAll calls cx).graph.size ≤ UInt32.size) : (Call.runAll calls cx).Tidy := by
  induction calls generalizing cx with
  | nil => exact tidy
  | cons call rest ih =>
      have roomCall := (size_le_runAll rest (call.run.after cx)).trans room
      exact ih (tidy.call_cases call roomCall).1 room

/-! ## Matching brackets -/

theorem length_enroll (made : List (LoopJump × BlockId)) (loops : List LoopFrame) :
    (enroll made loops).length = loops.length := by
  cases loops <;> rfl

/-- Only opening a loop takes the depth up, and by one. -/
theorem Tidy.openLoop_of_depth (tidy : cx.Tidy) (call : Call)
    (room : (call.run.after cx).graph.size ≤ UInt32.size) {d : Nat} (below : cx.depth ≤ d)
    (above : d < (call.run.after cx).depth) : cx.depth = d ∧ ∃ node, call = .openLoop node := by
  rw [Context.depth] at below above ⊢
  rcases (tidy.call_cases call room).2 with
    ⟨node, rfl, same⟩ | ⟨exit, reentry, rfl, same⟩ | same
  · rw [same, List.length_cons] at above
    exact ⟨by omega, node, rfl⟩
  · rw [same, List.length_tail] at above
    omega
  · rw [same, length_enroll] at above
    omega

/-- Where the depth gets above `d` for good, a loop is opened. -/
theorem Tidy.exists_opening (tidy : cx.Tidy) (calls : List Call)
    (room : (Call.runAll calls cx).graph.size ≤ UInt32.size) {d : Nat} (start : cx.depth ≤ d)
    (above : d < (Call.runAll calls cx).depth) :
    ∃ before node inside, calls = before ++ .openLoop node :: inside ∧
      (Call.runAll before cx).depth = d ∧ ∀ front back, inside = front ++ back →
        d < (Call.runAll (before ++ .openLoop node :: front) cx).depth := by
  -- The last call that starts at `d` or below is the one, so the induction is from the back.
  induction calls using List.reverseRecOn with
  | nil => exact absurd above (by simpa [Call.runAll, Action.afterSeries] using start)
  | append_singleton calls call ih =>
      have last : Call.runAll (calls ++ [call]) cx = call.run.after (Call.runAll calls cx) :=
        Call.runAll_append calls [call] cx
      have roomCalls : (Call.runAll calls cx).graph.size ≤ UInt32.size := by
        rw [last] at room
        exact (call.grows _).trans room
      by_cases deep : d < (Call.runAll calls cx).depth
      · obtain ⟨before, node, inside, rfl, depth, stays⟩ := ih roomCalls deep
        refine ⟨before, node, inside ++ [call], by simp, depth, ?_⟩
        intro front back split
        rcases List.eq_nil_or_concat back with rfl | ⟨rest, last, rfl⟩
        · rw [List.append_nil] at split
          subst split
          simpa using above
        · rw [List.concat_eq_append, ← List.append_assoc] at split
          exact stays front rest (List.append_inj_left' split rfl)
      · rw [last] at above room
        obtain ⟨depth, node, rfl⟩ :=
          (tidy.runAll calls roomCalls).openLoop_of_depth call room (Nat.le_of_not_lt deep) above
        refine ⟨calls, node, [], rfl, depth, ?_⟩
        intro front back split
        obtain ⟨rfl, -⟩ := List.append_eq_nil_iff.mp split.symm
        rw [last]
        exact above

/-- A call that leaves a loop open adds what it makes to that loop, if no other loop is open inside,
and leaves the loops around it alone. -/
theorem Tidy.exists_loops_call {inner : List LoopFrame} (tidy : cx.Tidy) (call : Call)
    (room : (call.run.after cx).graph.size ≤ UInt32.size)
    (loops : cx.loops = inner ++ frame :: outer)
    (stays : outer.length < (call.run.after cx).depth) :
    ∃ inner, (call.run.after cx).loops = inner ++ frame.registerAll
      (if cx.depth = outer.length + 1 then call.anchors cx else []) :: outer := by
  have depth : cx.depth = inner.length + (outer.length + 1) := by simp [Context.depth, loops]
  rw [Context.depth] at stays
  rcases (tidy.call_cases call room).2 with
    ⟨node, rfl, same⟩ | ⟨exit, reentry, rfl, same⟩ | same
  · exact ⟨{ node } :: inner, by simp [same, loops, Call.anchors, LoopFrame.registerAll]⟩
  · cases inner with
    | nil => simp [same, loops] at stays
    | cons first inner =>
        exact ⟨inner, by simp [same, loops, Call.anchors, LoopFrame.registerAll]⟩
  · cases inner with
    | nil =>
        have innermost : cx.depth = outer.length + 1 := by simpa using depth
        exact ⟨[], by simp [same, loops, innermost, enroll]⟩
    | cons first inner =>
        have inside : cx.depth ≠ outer.length + 1 := by simp [depth]
        exact ⟨first.registerAll (call.anchors cx) :: inner,
          by simp [same, loops, inside, enroll, LoopFrame.registerAll]⟩

/-- As long as a loop stays open, it keeps the anchors that are made at its depth, and the loops
around it keep what they have. -/
theorem Tidy.exists_loops_runAll {inner : List LoopFrame} (tidy : cx.Tidy) (calls : List Call)
    (room : (Call.runAll calls cx).graph.size ≤ UInt32.size)
    (loops : cx.loops = inner ++ frame :: outer)
    (stays : ∀ front back, calls = front ++ back →
      outer.length < (Call.runAll front cx).depth) :
    ∃ inner, (Call.runAll calls cx).loops =
      inner ++ frame.registerAll (Call.anchorsAt (outer.length + 1) calls cx) :: outer := by
  induction calls generalizing cx inner frame with
  | nil => exact ⟨inner, loops⟩
  | cons call rest ih =>
      have roomCall := (size_le_runAll rest (call.run.after cx)).trans room
      obtain ⟨inner, same⟩ := tidy.exists_loops_call call roomCall loops (stays [call] rest rfl)
      rw [Call.anchorsAt, LoopFrame.registerAll_append]
      apply ih (tidy.call_cases call roomCall).1 room same
      intro front back split
      exact stays (call :: front) back (by rw [split]; rfl)

/-- The innermost loop of a context that calls have led to: the call that opened it, what it has
kept since, and the loops around it, which are those that were open before. -/
theorem exists_opens {options : Options} {calls : List Call}
    (room : (Call.runAll calls (.new options)).graph.size ≤ UInt32.size)
    (loops : (Call.runAll calls (.new options)).loops = frame :: outer) :
    ∃ before node inside, calls = before ++ .openLoop node :: inside ∧
      Call.Opens (.new options) before node inside ∧
      outer = (Call.runAll before (.new options)).loops ∧
      frame = LoopFrame.registerAll { node } (Call.madeFor (.new options) before node inside) := by
  have deep : (Call.runAll calls (.new options)).depth = outer.length + 1 := by
    simp [Context.depth, loops]
  obtain ⟨before, node, inside, rfl, depth, stays⟩ :=
    (tidy_new options).exists_opening calls room (Nat.zero_le outer.length) (by omega)
  refine ⟨before, node, inside, rfl, ⟨by rwa [depth], by rw [deep, depth]⟩, ?_⟩
  have opening : ∀ front, Call.runAll (before ++ .openLoop node :: front) (.new options) =
      Call.runAll front (Call.runAll (before ++ [.openLoop node]) (.new options)) := fun front => by
    rw [← Call.runAll_append, List.append_assoc, List.singleton_append]
  rw [opening] at room loops
  have roomOpened := (size_le_runAll inside _).trans room
  have tidy := (tidy_new options).runAll _ roomOpened
  have opened : (Call.runAll (before ++ [.openLoop node]) (.new options)).loops =
      [] ++ { node } :: (Call.runAll before (.new options)).loops := by
    rw [Call.runAll_append]
    rfl
  rw [Context.depth] at depth
  obtain ⟨inner, same⟩ := tidy.exists_loops_runAll inside room opened fun front back split => by
    rw [← opening, depth]
    exact stays front back split
  rw [loops] at same
  have none : inner = [] := by
    have lengths := congrArg List.length same
    simp only [List.length_append, List.length_cons, depth] at lengths
    exact List.eq_nil_of_length_eq_zero (by omega)
  rw [none, List.nil_append, List.cons.injEq] at same
  exact ⟨same.2, same.1⟩

/-- Whatever calls have led to a context, the anchors of all its open loops are distinct blocks that
do nothing and do not branch. Closing a loop fails only where none is open. Otherwise it hands back
all anchors that were made for the loop since it was opened, in order, with their successors. It
changes no other block and leaves the loops around as they were when this one was opened. -/
theorem closeLoop_behind_calls (options : Options) (calls : List Call)
    (room : (Call.runAll calls (.new options)).graph.size ≤ UInt32.size) :
    let cx := Call.runAll calls (.new options)
    cx.pending.Nodup ∧ (∀ anchor ∈ cx.pending, cx.graph.BareAt anchor) ∧
      ∀ exit reentry,
        (cx.loops = [] ∧
          closeLoop exit reentry cx = .error (.error (.internal .noOpenLoop)) cx) ∨
        ∃ before node inside frame after,
          calls = before ++ .openLoop node :: inside ∧
          Call.Opens (.new options) before node inside ∧
          closeLoop exit reentry cx = .ok frame after ∧ Closes cx exit reentry frame after ∧
          after.loops = (Call.runAll before (.new options)).loops ∧ frame.node = node ∧
          frame.exits.toList =
            Expr.anchorsOf .exit (Call.madeFor (.new options) before node inside) ∧
          frame.reentries.toList =
            Expr.anchorsOf .reenter (Call.madeFor (.new options) before node inside) := by
  intro cx
  have tidy : cx.Tidy := (tidy_new options).runAll calls room
  refine ⟨tidy.distinct, tidy.bare, fun exit reentry => ?_⟩
  cases loops : cx.loops with
  | nil => exact .inl ⟨rfl, closeLoop_outside exit reentry loops⟩
  | cons frame outer =>
      right
      obtain ⟨before, node, inside, split, opens, outerEq, frameEq⟩ := exists_opens room loops
      obtain ⟨after, closed, closes⟩ := tidy.closes exit reentry loops
      have rest := closes.loops_eq
      rw [loops, List.cons.injEq] at rest
      refine ⟨before, node, inside, frame, after, split, opens, closed, closes, ?_, ?_, ?_, ?_⟩
      · rw [← rest.2, outerEq]
      · rw [frameEq, LoopFrame.node_registerAll]
      · rw [frameEq, LoopFrame.exits_registerAll]
        rfl
      · rw [frameEq, LoopFrame.reentries_registerAll]
        rfl

/-- Two loops, of which the inner one is closed first. The outer one gets anchors from a call of its
own and from a tree that jumps leave. -/
theorem closeLoop_behind_calls_nested :
    let jumps : List Arena.Call := [.jump .exit, .jump .reenter, .seq [⟨0⟩, ⟨1⟩]]
    let arena := Action.afterSeries (jumps.map Arena.Call.run) {}
    let calls : List Call := [.openLoop ⟨7⟩, .addAnchor .exit ⟨0⟩, .openLoop ⟨8⟩,
      .addAnchor .reenter ⟨1⟩, .closeLoop ⟨0⟩ ⟨0⟩, .lower arena ⟨2⟩, .setNext ⟨2⟩ ⟨3⟩,
      .addSimple []]
    let cx := Call.runAll calls (.new {})
    let frame : LoopFrame := ⟨⟨7⟩, #[⟨0⟩, ⟨2⟩], #[⟨3⟩]⟩
    cx.pending.Nodup ∧ ∃ after, closeLoop ⟨4⟩ ⟨1⟩ cx = .ok frame after ∧ after.loops = [] ∧
      after.graph.blocks[2]? = some ⟨[], .jump ⟨4⟩⟩ ∧
      after.graph.blocks[3]? = some ⟨[], .jump ⟨1⟩⟩ ∧
      after.graph.blocks[1]? = some ⟨[], .jump ⟨0⟩⟩ := by
  intro jumps arena calls cx frame
  have room : cx.graph.size ≤ UInt32.size := by decide +kernel
  have loops : cx.loops = [frame] := by decide +kernel
  have inner : cx.graph.blocks[1]? = some ⟨[], .jump ⟨0⟩⟩ := by decide +kernel
  obtain ⟨distinct, -, closing⟩ := closeLoop_behind_calls {} calls room
  rcases closing ⟨4⟩ ⟨1⟩ with ⟨none, -⟩ | ⟨-, -, -, kept, after, -, -, closed, closes, -⟩
  · rw [loops] at none
    cases none
  · have same := loops.symm.trans closes.loops_eq
    rw [List.cons.injEq] at same
    obtain ⟨rfl, outside⟩ := same
    refine ⟨distinct, after, closed, outside.symm, closes.exits_go ⟨2⟩ (by simp [frame]),
      closes.reentries_go ⟨3⟩ (by simp [frame]), ?_⟩
    rw [closes.others_stay 1 (by decide), inner]

end Context

end Flowgraph
