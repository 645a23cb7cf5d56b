import Flowgraph.Proofs.Lowering.Growth

/-! # What lowering a tree makes of a context

Lowering succeeds when a loop is open or no jump leaves the tree. Then it appends the tree's layout,
with no successor for the exit and the anchors, and enrolls the anchors. Otherwise it fails at the
first jump that leaves the tree. -/

namespace Flowgraph

open Context

namespace Expr

/-- The fragment of a tree that is laid out from `start` on. -/
def fragment (start : Nat) (e : Expr) : Fragment :=
  ⟨.ofIndex start, .ofIndex (start + e.exitOffset)⟩

/-- The fragment of trees laid out one behind the other, if there are any. -/
def fragmentAll (start : Nat) (items : List Expr) : Option Fragment :=
  if items.isEmpty then none else some ⟨.ofIndex start, .ofIndex (start + exitOffsetAll items)⟩

theorem fragmentAll_of_ne_nil (start : Nat) {items : List Expr} (nonempty : items ≠ []) :
    fragmentAll start items = some ⟨.ofIndex start, .ofIndex (start + exitOffsetAll items)⟩ := by
  simp [fragmentAll, nonempty]

/-! ## Joining fragments -/

section

variable {cx : Context} {anchors : List (LoopJump × BlockId)}

/-- What comes behind trees becomes the successor of their exit. -/
theorem link_run (items : List Expr) (more : List Block) (exit : BlockId)
    (room : cx.graph.size + blockCountAll items ≤ UInt32.size) :
    link (fragmentAll cx.graph.size items)
        ⟨.ofIndex (cx.graph.size + blockCountAll items), exit⟩
        (cx.grown (layoutAll cx.graph.size none noTargets items ++ more) anchors) =
      .ok ⟨.ofIndex cx.graph.size, exit⟩
        (cx.grown (layoutAll cx.graph.size (some (.ofIndex (cx.graph.size + blockCountAll items)))
          noTargets items ++ more) anchors) := by
  by_cases empty : items = []
  · subst empty
    rfl
  · have simple := simpleAt_exitAll cx.graph.size none noTargets empty
    have inside := simple.lt_length
    rw [length_layoutAll] at inside
    have index : (BlockId.ofIndex (cx.graph.size + exitOffsetAll items)).index =
        cx.graph.size + exitOffsetAll items := BlockId.index_ofIndex (by omega)
    have offset : (BlockId.ofIndex (cx.graph.size + exitOffsetAll items)).index - cx.graph.size =
        exitOffsetAll items := by omega
    rw [fragmentAll_of_ne_nil _ empty, link, Action.bind_run
      (setNext_grown _ (by rw [index]; omega) (offset.symm ▸ simple.append_left more)), offset,
      modify_append_left _ _ (by simpa using inside), layoutAll_some _ empty]
    rfl

/-- An instruction behind its operands. -/
theorem emit_run (items : List Expr) (instr : Instr)
    (room : cx.graph.size + blockCountAll items ≤ UInt32.size) :
    emit (fragmentAll cx.graph.size items) instr
        (cx.grown (layoutAll cx.graph.size none noTargets items) anchors) =
      .ok ⟨.ofIndex cx.graph.size, .ofIndex (cx.graph.size + blockCountAll items)⟩
        (cx.grown (layoutAll cx.graph.size (some (.ofIndex (cx.graph.size + blockCountAll items)))
          noTargets items ++ [⟨[instr], .none⟩]) anchors) := by
  rw [emit, Action.bind_run (addBlock_grown _), length_layoutAll]
  exact link_run items _ _ room

/-- A tree among other blocks goes on at the target that its exit is given. -/
theorem setNext_exit (cx : Context) (anchors : List (LoopJump × BlockId)) (e : Expr) (start : Nat)
    (front rest : List Block) (target : BlockId)
    (here : cx.graph.size + front.length = start) (room : start + e.blockCount ≤ UInt32.size) :
    setNext (.ofIndex (start + e.exitOffset)) target
        (cx.grown (front ++ e.layout start none noTargets ++ rest) anchors) =
      .ok () (cx.grown (front ++ e.layout start (some target) noTargets ++ rest) anchors) := by
  have simple := simpleAt_exit start none noTargets e
  have inside := simple.lt_length
  rw [length_layout] at inside
  have index : (BlockId.ofIndex (start + e.exitOffset)).index = start + e.exitOffset :=
    BlockId.index_ofIndex (by omega)
  have offset : (BlockId.ofIndex (start + e.exitOffset)).index - cx.graph.size =
      front.length + e.exitOffset := by omega
  rw [setNext_grown _ (by omega) (offset.symm ▸ (simple.append_right rfl).append_left rest), offset,
    modify_append_left _ _ (by simpa using inside), modify_append_right _ _ (by omega),
    Nat.add_sub_cancel_left, ← layout_some]

end

/-! ## Loops -/

section

variable (cond body : Expr) (start : Nat)

/-- The blocks of a loop, of which condition and body go on at given places. -/
def loopBlocks (next behind : Option BlockId) (targets : LoopJump → Option BlockId) : List Block :=
  let inside := start + cond.blockCount
  let exit := inside + body.blockCount
  cond.layout start next targets ++ body.layout inside behind targets ++
    [.empty, ⟨[], .branch (.ofIndex inside) (.ofIndex exit)⟩]

/-- The jumps out of the condition and the body. -/
def loopAnchors : List (LoopJump × BlockId) :=
  cond.anchors start ++ body.anchors (start + cond.blockCount)

variable {cond body start}

theorem anchorsIn_loopBlocks (kind : LoopJump) (next behind : Option BlockId)
    (targets : LoopJump → Option BlockId)
    (room : start + cond.blockCount + body.blockCount ≤ UInt32.size) :
    AnchorsIn start (anchorsOf kind (loopAnchors cond body start))
      (loopBlocks cond body start next behind targets) := by
  rw [loopAnchors, anchorsOf_append]
  apply AnchorsIn.append_left
  apply (anchorsIn_layout kind start next targets cond (by omega)).append
  rw [length_layout]
  exact anchorsIn_layout _ _ _ _ _ room

theorem redirectAll_loopBlocks (kind : LoopJump) (next behind : Option BlockId)
    (targets : LoopJump → Option BlockId) (target : BlockId)
    (room : start + cond.blockCount + body.blockCount ≤ UInt32.size) :
    redirectAll start (anchorsOf kind (loopAnchors cond body start)) target
        (loopBlocks cond body start next behind targets) =
      loopBlocks cond body start next behind (Function.update targets kind (some target)) := by
  have first := anchorsIn_layout kind start next targets cond (by omega)
  have second := anchorsIn_layout kind _ behind targets body room
  have second' : AnchorsIn (start + (cond.layout start next targets).length)
      (anchorsOf kind (body.anchors (start + cond.blockCount)))
      (body.layout (start + cond.blockCount) behind targets) := by rwa [length_layout]
  rw [loopBlocks, loopAnchors, anchorsOf_append, redirectAll_append_left _ (first.append second'),
    redirectAll_append _ first second', length_layout, redirectAll_layout _ _ _ _ _ _ (by omega),
    redirectAll_layout _ _ _ _ _ _ room]
  rfl

end

/-- The last step of a loop: the jumps out of condition and body get their targets. -/
theorem closeLoop_loopBlocks (cx : Context) (id : ExprId) (cond body : Expr) (exit : Nat)
    (next behind : Option BlockId)
    (room : cx.graph.size + cond.blockCount + body.blockCount ≤ UInt32.size) :
    closeLoop (.ofIndex exit) (.ofIndex cx.graph.size)
        ((cx.opened id).grown (loopBlocks cond body cx.graph.size next behind noTargets)
          (loopAnchors cond body cx.graph.size)) =
      .ok (LoopFrame.registerAll { node := id } (loopAnchors cond body cx.graph.size))
        (cx.grown (loopBlocks cond body cx.graph.size next behind
          (loopTargets cx.graph.size exit)) []) := by
  rw [closeLoop_run, redirectAll_loopBlocks _ _ _ _ _ room, redirectAll_loopBlocks _ _ _ _ _ room,
    loopTargets_eq]
  · exact anchorsIn_loopBlocks _ _ _ _ room
  · exact anchorsIn_loopBlocks _ _ _ _ room

/-- A condition and a body become a loop, which has no jumps left. -/
theorem wireLoop_run (cx : Context) (id : ExprId) (cond body : Expr)
    (room : cx.graph.size + cond.blockCount + body.blockCount ≤ UInt32.size) :
    wireLoop (cond.fragment cx.graph.size) (body.fragment (cx.graph.size + cond.blockCount))
        ((cx.opened id).grown
          (cond.layout cx.graph.size none noTargets ++
            body.layout (cx.graph.size + cond.blockCount) none noTargets)
          (loopAnchors cond body cx.graph.size)) =
      .ok ((loop id cond body).fragment cx.graph.size)
        (cx.grown ((loop id cond body).layout cx.graph.size none noTargets) []) := by
  generalize here : cx.graph.size = start at room ⊢
  have opened : (cx.opened id).graph.size = start := here
  generalize anchored : loopAnchors cond body start = anchors
  obtain ⟨inside, hinside⟩ : ∃ inside, inside = start + cond.blockCount := ⟨_, rfl⟩
  obtain ⟨exit, hexit⟩ : ∃ exit, exit = inside + body.blockCount := ⟨_, rfl⟩
  rw [← hinside, ← hexit] at room
  have exitBlock : addBlock .empty ((cx.opened id).grown
      (cond.layout start none noTargets ++ body.layout inside none noTargets) anchors) =
        .ok (.ofIndex exit) ((cx.opened id).grown
          (cond.layout start none noTargets ++ body.layout inside none noTargets ++ [.empty])
          anchors) := by
    rw [addBlock_grown, opened, List.length_append, length_layout, length_layout, ← Nat.add_assoc,
      ← hinside, ← hexit]
  have branchBlock : addBlock ⟨[], .branch (.ofIndex inside) (.ofIndex exit)⟩
      ((cx.opened id).grown
        (cond.layout start none noTargets ++ body.layout inside none noTargets ++ [.empty])
        anchors) =
      .ok (.ofIndex (exit + 1))
        ((cx.opened id).grown (loopBlocks cond body start none none noTargets) anchors) := by
    rw [addBlock_grown, opened, loopBlocks, ← hinside, ← hexit]
    simp [← Nat.add_assoc, ← hinside, ← hexit]
  -- An exit that is a jump gets a successor here as well, until closing the loop replaces it.
  have condNext : setNext (.ofIndex (start + cond.exitOffset)) (.ofIndex (exit + 1))
      ((cx.opened id).grown (loopBlocks cond body start none none noTargets) anchors) =
      .ok () ((cx.opened id).grown
        (loopBlocks cond body start (some (.ofIndex (exit + 1))) none noTargets) anchors) := by
    have run := setNext_exit (cx.opened id) anchors cond start []
      (body.layout inside none noTargets ++
        [.empty, ⟨[], .branch (.ofIndex inside) (.ofIndex exit)⟩])
      (.ofIndex (exit + 1)) opened (by omega)
    simpa [loopBlocks, ← hinside, ← hexit] using run
  have bodyNext : setNext (.ofIndex (inside + body.exitOffset)) (.ofIndex start)
      ((cx.opened id).grown
        (loopBlocks cond body start (some (.ofIndex (exit + 1))) none noTargets) anchors) =
      .ok () ((cx.opened id).grown (loopBlocks cond body start (some (.ofIndex (exit + 1)))
        (some (.ofIndex start)) noTargets) anchors) := by
    have run := setNext_exit (cx.opened id) anchors body inside
      (cond.layout start (some (.ofIndex (exit + 1))) noTargets)
      [.empty, ⟨[], .branch (.ofIndex inside) (.ofIndex exit)⟩] (.ofIndex start)
      (by rw [opened, length_layout, hinside]) (by omega)
    simpa [loopBlocks, ← hinside, ← hexit] using run
  have closed : closeLoop (.ofIndex exit) (.ofIndex start)
      ((cx.opened id).grown (loopBlocks cond body start (some (.ofIndex (exit + 1)))
        (some (.ofIndex start)) noTargets) anchors) =
      .ok (LoopFrame.registerAll { node := id } anchors)
        (cx.grown (loopBlocks cond body start (some (.ofIndex (exit + 1)))
          (some (.ofIndex start)) (loopTargets start exit)) []) := by
    subst here anchored
    exact closeLoop_loopBlocks cx id cond body exit _ _ (by omega)
  dsimp only [wireLoop, fragment]
  rw [← hinside, Action.bind_run exitBlock, Action.bind_run branchBlock, Action.bind_run condNext,
    Action.bind_run bodyNext, Action.bind_run closed, layout, exitOffset, loopBlocks,
    ← Nat.add_assoc, ← hinside, ← hexit]
  rfl

/-! ## Success -/

section

variable {cx : Context}

/-- Lowering the tree in the context either can register the jumps that leave it, or has none to
register. -/
def Allowed (cx : Context) (jumps : List (LoopJump × ExprId)) : Prop :=
  cx.loops = [] → jumps = []

/-- What lowering makes of a context that is small enough and allows the tree's jumps. -/
def LowersTo (e : Expr) : Prop :=
  ∀ cx : Context, (e.lower.after cx).graph.size ≤ UInt32.size → Allowed cx e.strayJumps →
    e.lower cx = .ok (e.fragment cx.graph.size)
      (cx.grown (e.layout cx.graph.size none noTargets) (e.anchors cx.graph.size))

/-- The context behind trees that have been lowered one behind the other. -/
def loweredAll (cx : Context) (items : List Expr) : Context :=
  cx.grown (layoutAll cx.graph.size none noTargets items) (anchorsAll cx.graph.size items)

theorem loweredAll_nil (cx : Context) : loweredAll cx [] = cx := by
  rw [loweredAll, layoutAll, anchorsAll, grown_nil]

theorem size_loweredAll (cx : Context) (items : List Expr) :
    (loweredAll cx items).graph.size = cx.graph.size + blockCountAll items := by
  rw [loweredAll, size_grown, length_layoutAll]

/-- One more tree behind those lowered so far. -/
theorem lower_link_run {item : Expr} (ih : LowersTo item) (done : List Expr)
    (room : (item.lower.after (loweredAll cx done)).graph.size ≤ UInt32.size)
    (allowed : Allowed cx item.strayJumps) :
    (item.lower >>= link (fragmentAll cx.graph.size done)) (loweredAll cx done) =
      .ok ⟨.ofIndex cx.graph.size, .ofIndex (cx.graph.size + exitOffsetAll (done ++ [item]))⟩
        (loweredAll cx (done ++ [item])) := by
  have before := size_loweredAll cx done
  have lowered := ih (loweredAll cx done) room fun closed =>
    allowed ((loops_grown_eq_nil_iff _ _ _).mp closed)
  have grew := grows_lower item (loweredAll cx done)
  rw [before] at lowered grew
  rw [Action.bind_run lowered, loweredAll, grown_grown, fragment,
    link_run done _ _ (grew.trans room), loweredAll, exitOffsetAll_append _ (by simp),
    layoutAll_append _ _ _ _ (by simp), anchorsAll_append, Nat.add_assoc]
  simp [layoutAll, anchorsAll, exitOffsetAll]

theorem lowerAll_cons (head : Option Fragment) (item : Expr) (rest : List Expr) :
    lowerAll head (item :: rest) =
      (item.lower >>= link head) >>= fun head => lowerAll (some head) rest := by
  rw [lowerAll, bind_assoc]

theorem lowerAll_behind_run {items : List Expr} (ih : ∀ item ∈ items, LowersTo item)
    (done : List Expr)
    (room : ((lowerAll (fragmentAll cx.graph.size done) items).after
      (loweredAll cx done)).graph.size ≤ UInt32.size)
    (allowed : Allowed cx (strayJumpsAll items)) :
    lowerAll (fragmentAll cx.graph.size done) items (loweredAll cx done) =
      .ok (fragmentAll cx.graph.size (done ++ items)) (loweredAll cx (done ++ items)) := by
  induction items generalizing done with
  | nil => rw [List.append_nil]; rfl
  | cons item rest ihRest =>
      have allowedItem : Allowed cx item.strayJumps := fun closed =>
        (List.append_eq_nil_iff.mp (allowed closed)).1
      have allowedRest : Allowed cx (strayJumpsAll rest) := fun closed =>
        (List.append_eq_nil_iff.mp (allowed closed)).2
      rw [lowerAll_cons] at room ⊢
      -- Nothing later takes blocks away, so what bounds the last graph bounds this one.
      have roomStep := (Grows.le_bind (fun head => grows_lowerAll (some head) rest) _).trans room
      have roomItem := (Grows.le_bind (grows_link _) _).trans roomStep
      have step := lower_link_run (ih item (by simp)) done roomItem allowedItem
      rw [Action.after_bind step] at room
      rw [Action.bind_run step]
      rw [← fragmentAll_of_ne_nil _ (by simp)] at room ⊢
      rw [ihRest (fun item m => ih item (by simp [m])) _ room allowedRest, List.append_assoc]
      rfl

theorem lowerAll_run_of {items : List Expr} (ih : ∀ item ∈ items, LowersTo item)
    (room : ((lowerAll none items).after cx).graph.size ≤ UInt32.size)
    (allowed : Allowed cx (strayJumpsAll items)) :
    lowerAll none items cx = .ok (fragmentAll cx.graph.size items) (loweredAll cx items) := by
  have run := lowerAll_behind_run ih [] (by rw [loweredAll_nil]; exact room) allowed
  rw [loweredAll_nil] at run
  exact run

/-- Lowering appends the tree's layout, whatever there is in the graph already. -/
theorem lower_run (e : Expr) : LowersTo e := by
  induction e using inductionOnRole with
  | instr e instr own ih =>
      intro cx room allowed
      rw [lower_of_ownInstr own] at room ⊢
      rw [strayJumps_of_ownInstr own] at allowed
      have roomAll := (Grows.le_bind (fun head => grows_emit head instr) cx).trans room
      have operands := lowerAll_run_of ih roomAll allowed
      have fits : cx.graph.size + blockCountAll e.children ≤ UInt32.size := by
        rwa [Action.after_of_ok operands, size_loweredAll] at roomAll
      rw [Action.bind_run operands, loweredAll, emit_run _ _ fits, fragment,
        exitOffset_of_ownInstr own, layout_of_ownInstr _ _ _ own, anchors_of_ownInstr _ own]
      rfl
  | seq id items ih =>
      intro cx room allowed
      rw [lower] at room ⊢
      have roomAll := (Grows.le_bind grows_orEmpty cx).trans room
      rw [Action.bind_run (lowerAll_run_of ih roomAll allowed)]
      cases items with
      | nil =>
          rw [loweredAll_nil]
          exact orEmpty_none_run cx
      | cons item rest => rfl
  | loop id cond body ihCond ihBody =>
      intro cx room allowed
      have grows : ∀ cond, Grows (body.lower >>= fun body => wireLoop cond body) := fun cond =>
        (grows_lower body).bind fun body => grows_wireLoop cond body
      have open_ : (cx.opened id).loops ≠ [] := by simp [Context.opened]
      rw [lower, Action.after_bind (openLoop_run cx id)] at room
      have first := ihCond (cx.opened id) ((Grows.le_bind grows (cx.opened id)).trans room)
        fun closed => absurd closed open_
      rw [Action.after_bind first] at room
      have second := ihBody _ ((Grows.le_bind (fun body => grows_wireLoop _ body) _).trans room)
        fun closed => absurd ((loops_grown_eq_nil_iff _ _ _).mp closed) open_
      rw [Action.after_bind second] at room
      have fits := (grows_wireLoop _ _ _).trans room
      simp only [grown_grown, size_grown, List.length_append, length_layout] at fits second
      rw [lower, Action.bind_run (openLoop_run cx id), Action.bind_run first,
        Action.bind_run second]
      exact wireLoop_run cx id cond body (by rw [Nat.add_assoc]; exact fits)
  | jump id kind =>
      intro cx room allowed
      have open_ : cx.loops ≠ [] := fun closed => by
        have none := allowed closed
        cases none
      rw [lower, Action.bind_run (addAnchor_run id open_)]
      rfl

end

/-! ## Failure -/

/-- Lowering fails where no loop is open, at the first of the jumps that leave the tree. The blocks
that come before the jump are left behind. -/
def Stops (e : Expr) : Prop :=
  ∀ (cx : Context) (kind : LoopJump) (node : ExprId) (others : List (LoopJump × ExprId)),
    cx.loops = [] → e.strayJumps = (kind, node) :: others →
    (e.lower.after cx).graph.size ≤ UInt32.size →
    e.lower cx = .error (.error (.jumpOutsideLoop kind node))
      (cx.grown (e.layoutToJump cx.graph.size) [])

theorem lowerAll_behind_failure {cx : Context} {items : List Expr}
    (ih : ∀ item ∈ items, Stops item) (done : List Expr) {kind : LoopJump} {node : ExprId}
    {others : List (LoopJump × ExprId)} (closed : cx.loops = [])
    (stray : strayJumpsAll items = (kind, node) :: others)
    (room : ((lowerAll (fragmentAll cx.graph.size done) items).after
      (loweredAll cx done)).graph.size ≤ UInt32.size) :
    lowerAll (fragmentAll cx.graph.size done) items (loweredAll cx done) =
      .error (.error (.jumpOutsideLoop kind node))
        (cx.grown (layoutAllToJump cx.graph.size done items) []) := by
  induction items generalizing done with
  | nil => cases stray
  | cons item rest ihRest =>
      rw [lowerAll_cons] at room ⊢
      have roomStep := (Grows.le_bind (fun head => grows_lowerAll (some head) rest) _).trans room
      have roomItem := (Grows.le_bind (grows_link _) _).trans roomStep
      cases first : item.strayJumps with
      | nil =>
          have step := lower_link_run (lower_run item) done roomItem fun _ => first
          rw [strayJumpsAll, first, List.nil_append] at stray
          rw [Action.after_bind step] at room
          rw [Action.bind_run step]
          rw [← fragmentAll_of_ne_nil _ (by simp)] at room ⊢
          have failed := ihRest (fun item m => ih item (by simp [m])) _ stray room
          simpa [layoutAllToJump, first] using failed
      | cons jump jumps =>
          rw [strayJumpsAll, first, List.cons_append, List.cons.injEq] at stray
          obtain ⟨rfl, -⟩ := stray
          have failed := ih item (by simp) (loweredAll cx done) kind node jumps
            ((loops_grown_eq_nil_iff _ _ _).mpr closed) first roomItem
          rw [Action.bind_failure (Action.bind_failure failed), size_loweredAll, loweredAll,
            grown_grown, grown_of_loops_eq_nil _ _ closed]
          simp [layoutAllToJump, first]

theorem lowerAll_failure_of {cx : Context} {items : List Expr} (ih : ∀ item ∈ items, Stops item)
    {kind : LoopJump} {node : ExprId} {others : List (LoopJump × ExprId)} (closed : cx.loops = [])
    (stray : strayJumpsAll items = (kind, node) :: others)
    (room : ((lowerAll none items).after cx).graph.size ≤ UInt32.size) :
    lowerAll none items cx =
      .error (.error (.jumpOutsideLoop kind node))
        (cx.grown (layoutAllToJump cx.graph.size [] items) []) := by
  have failed := lowerAll_behind_failure ih [] closed stray (by rw [loweredAll_nil]; exact room)
  rw [loweredAll_nil] at failed
  exact failed

/-- The first jump that leaves the tree is where lowering fails, unless some loop is open. -/
theorem lower_failure (e : Expr) : Stops e := by
  induction e using inductionOnRole with
  | instr e instr own ih =>
      intro cx kind node others closed stray room
      have some : e.strayJumps ≠ [] := by simp [stray]
      rw [lower_of_ownInstr own] at room ⊢
      rw [strayJumps_of_ownInstr own] at stray
      have roomAll := (Grows.le_bind (fun head => grows_emit head instr) cx).trans room
      rw [Action.bind_failure (lowerAll_failure_of ih closed stray roomAll),
        layoutToJump_of_ownInstr _ own some]
  | seq id items ih =>
      intro cx kind node others closed stray room
      rw [lower] at room ⊢
      have roomAll := (Grows.le_bind grows_orEmpty cx).trans room
      rw [Action.bind_failure (lowerAll_failure_of ih closed stray roomAll), layoutToJump]
  | loop id cond body =>
      intro cx kind node others closed stray room
      cases stray
  | jump id jump =>
      intro cx kind node others closed stray room
      cases stray
      rw [lower, layoutToJump, grown_nil]
      exact Action.bind_failure (addAnchor_outside jump id closed)

/-- All that lowering a tree can come to. -/
theorem lower_cases (e : Expr) {cx : Context}
    (room : (e.lower.after cx).graph.size ≤ UInt32.size) :
    (Allowed cx e.strayJumps ∧ e.lower cx = .ok (e.fragment cx.graph.size)
      (cx.grown (e.layout cx.graph.size none noTargets) (e.anchors cx.graph.size))) ∨
    (cx.loops = [] ∧ ∃ kind node others, e.strayJumps = (kind, node) :: others ∧
      e.lower cx = .error (.error (.jumpOutsideLoop kind node))
        (cx.grown (e.layoutToJump cx.graph.size) [])) := by
  by_cases allowed : Allowed cx e.strayJumps
  · exact .inl ⟨allowed, lower_run e cx room allowed⟩
  · obtain ⟨closed, stray⟩ := Classical.not_imp.mp allowed
    obtain ⟨⟨kind, node⟩, others, first⟩ := List.exists_cons_of_ne_nil stray
    exact .inr ⟨closed, kind, node, others, first,
      lower_failure e cx kind node others closed first room⟩

end Expr

end Flowgraph
