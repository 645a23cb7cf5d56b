import Flowgraph.Proofs.Lowering.Invariant
import Flowgraph.Proofs.Lowering.Wiring

/-! # Contexts that grow

Lowering appends blocks to the graph and anchors to the innermost open loop. `Context.grown` names
the context with both, and each step of lowering is given as what it makes of such a context. No
step takes blocks away, so a graph that is small enough at the end was so all along. -/

namespace Flowgraph

/-! ## Appended blocks and anchors -/

def Graph.append (g : Graph) (blocks : List Block) : Graph :=
  ⟨g.blocks ++ blocks.toArray⟩

@[simp] theorem Graph.size_append (g : Graph) (blocks : List Block) :
    (g.append blocks).size = g.size + blocks.length := by
  simp [append, size]

theorem Graph.setNext_append {g : Graph} {blocks : List Block} {source : BlockId}
    (target : BlockId) (inside : g.size ≤ source.index)
    (simple : SimpleAt blocks (source.index - g.size)) :
    setNext source target (g.append blocks) =
      .ok () (g.append (blocks.modify (source.index - g.size) (Block.redirect target))) := by
  obtain ⟨block, found, simple⟩ := simple
  have foundAll : (g.append blocks).blocks[source.index]? = some block := by
    rw [append, Array.getElem?_append_right inside]
    simpa [size] using found
  have redirected : blocks.modify (source.index - g.size) (Block.redirect target) =
      blocks.set (source.index - g.size) (block.redirect target) := by
    apply List.ext_getElem?
    intro i
    grind
  rw [setNext_run target foundAll simple, redirected, append, append]
  congr 2
  apply Array.toList_inj.mp
  simp only [Array.toList_setIfInBounds, Array.toList_append]
  exact List.set_append_right _ _ (by simpa [size] using inside)

def LoopFrame.registerAll (frame : LoopFrame) (anchors : List (LoopJump × BlockId)) : LoopFrame :=
  anchors.foldl (fun frame anchor => frame.register anchor.1 anchor.2) frame

theorem LoopFrame.exits_registerAll (frame : LoopFrame) (anchors : List (LoopJump × BlockId)) :
    (frame.registerAll anchors).exits.toList =
      frame.exits.toList ++ Expr.anchorsOf .exit anchors := by
  induction anchors generalizing frame with
  | nil => simp [registerAll, Expr.anchorsOf]
  | cons anchor anchors ih =>
      obtain ⟨kind, a⟩ := anchor
      change ((frame.register kind a).registerAll anchors).exits.toList = _
      rw [ih]
      cases kind <;> simp [register, Expr.anchorsOf]

theorem LoopFrame.reentries_registerAll (frame : LoopFrame)
    (anchors : List (LoopJump × BlockId)) :
    (frame.registerAll anchors).reentries.toList =
      frame.reentries.toList ++ Expr.anchorsOf .reenter anchors := by
  induction anchors generalizing frame with
  | nil => simp [registerAll, Expr.anchorsOf]
  | cons anchor anchors ih =>
      obtain ⟨kind, a⟩ := anchor
      change ((frame.register kind a).registerAll anchors).reentries.toList = _
      rw [ih]
      cases kind <;> simp [register, Expr.anchorsOf]

namespace Context

/-- The innermost of the open loops keeps the anchors, if a loop is open. -/
def enroll (anchors : List (LoopJump × BlockId)) : List LoopFrame → List LoopFrame
  | [] => []
  | frame :: outer => frame.registerAll anchors :: outer

/-- The context with more blocks in its graph and more anchors in its innermost loop. -/
def grown (cx : Context) (blocks : List Block) (anchors : List (LoopJump × BlockId)) : Context :=
  { cx with graph := cx.graph.append blocks, loops := enroll anchors cx.loops }

section

variable (cx : Context) (blocks more : List Block) (anchors added : List (LoopJump × BlockId))

@[simp] theorem grown_nil : cx.grown [] [] = cx := by
  obtain ⟨options, slots, graph, loops⟩ := cx
  cases loops <;> simp [grown, enroll, Graph.append, LoopFrame.registerAll]

@[simp] theorem grown_grown :
    (cx.grown blocks anchors).grown more added = cx.grown (blocks ++ more) (anchors ++ added) := by
  obtain ⟨options, slots, graph, loops⟩ := cx
  cases loops <;> simp [grown, enroll, Graph.append, LoopFrame.registerAll]

@[simp] theorem size_grown : (cx.grown blocks anchors).graph.size = cx.graph.size + blocks.length :=
  Graph.size_append _ _

/-- Where no loop is open, nothing keeps anchors. -/
theorem grown_of_loops_eq_nil {cx : Context} (closed : cx.loops = []) :
    cx.grown blocks anchors = cx.grown blocks [] := by
  obtain ⟨options, slots, graph, loops⟩ := cx
  cases closed
  rfl

@[simp] theorem loops_grown_eq_nil_iff : (cx.grown blocks anchors).loops = [] ↔ cx.loops = [] := by
  obtain ⟨options, slots, graph, loops⟩ := cx
  cases loops <;> simp [grown, enroll]

end

/-! ## Steps -/

section

variable {cx : Context} {blocks : List Block} {anchors : List (LoopJump × BlockId)}

theorem addBlock_grown (block : Block) :
    addBlock block (cx.grown blocks anchors) =
      .ok (.ofIndex (cx.graph.size + blocks.length)) (cx.grown (blocks ++ [block]) anchors) := by
  rw [addBlock_run, Graph.nextId]
  simp [grown, Graph.append, Graph.push, Graph.size]

theorem orEmpty_none_run (cx : Context) :
    orEmpty none cx = .ok (.single (.ofIndex cx.graph.size)) (cx.grown [.empty] []) := by
  have added : addBlock .empty (cx.grown [] []) = _ := addBlock_grown .empty
  rw [grown_nil] at added
  exact Action.bind_run added

theorem setNext_grown {source : BlockId} (target : BlockId) (inside : cx.graph.size ≤ source.index)
    (simple : SimpleAt blocks (source.index - cx.graph.size)) :
    setNext source target (cx.grown blocks anchors) =
      .ok () (cx.grown (blocks.modify (source.index - cx.graph.size) (Block.redirect target))
        anchors) := by
  simp only [setNext, onGraph, grown, Graph.setNext_append target inside simple]

/-- Wiring anchors one after another. -/
theorem forM_setNext_grown (sources : List BlockId) (target : BlockId)
    (inside : AnchorsIn cx.graph.size sources blocks) :
    (sources.forM fun source => setNext source target) (cx.grown blocks anchors) =
      .ok ⟨⟩ (cx.grown (redirectAll cx.graph.size sources target blocks) anchors) := by
  induction sources generalizing blocks with
  | nil => rfl
  | cons source sources ih =>
      have first := inside source (by simp)
      have others : AnchorsIn cx.graph.size sources blocks := fun a m => inside a (by simp [m])
      exact (Action.bind_run (setNext_grown target first.1 first.2)).trans
        (ih (others.redirect target _))

theorem addAnchor_run {kind : LoopJump} (node : ExprId) (open_ : cx.loops ≠ []) :
    addAnchor kind node cx =
      .ok cx.graph.nextId (cx.grown [.empty] [(kind, cx.graph.nextId)]) := by
  obtain ⟨options, slots, graph, loops⟩ := cx
  cases loops with
  | nil => exact absurd rfl open_
  | cons frame outer => rfl

theorem addAnchor_outside (kind : LoopJump) (node : ExprId) (closed : cx.loops = []) :
    addAnchor kind node cx = .error (.error (.jumpOutsideLoop kind node)) cx := by
  obtain ⟨options, slots, graph, loops⟩ := cx
  cases closed
  rfl

/-- A context in which one more loop has been opened. -/
def opened (cx : Context) (node : ExprId) : Context :=
  { cx with loops := { node } :: cx.loops }

theorem openLoop_run (cx : Context) (node : ExprId) : openLoop node cx = .ok () (cx.opened node) :=
  rfl

/-- A loop that is closed gives its own anchors their targets and leaves the loops around it
alone. -/
theorem closeLoop_run {node : ExprId} (exit reentry : BlockId)
    (exits : AnchorsIn cx.graph.size (Expr.anchorsOf .exit anchors) blocks)
    (reentries : AnchorsIn cx.graph.size (Expr.anchorsOf .reenter anchors) blocks) :
    closeLoop exit reentry ((cx.opened node).grown blocks anchors) =
      .ok (LoopFrame.registerAll { node } anchors)
        (cx.grown (redirectAll cx.graph.size (Expr.anchorsOf .reenter anchors) reentry
          (redirectAll cx.graph.size (Expr.anchorsOf .exit anchors) exit blocks)) []) := by
  have popped : popLoop ((cx.opened node).grown blocks anchors) =
      .ok (LoopFrame.registerAll { node } anchors) (cx.grown blocks []) := by
    obtain ⟨options, slots, graph, loops⟩ := cx
    cases loops <;> rfl
  have own : (LoopFrame.registerAll { node } anchors).exits.toList = Expr.anchorsOf .exit anchors ∧
      (LoopFrame.registerAll { node } anchors).reentries.toList =
        Expr.anchorsOf .reenter anchors := by
    simp [LoopFrame.exits_registerAll, LoopFrame.reentries_registerAll]
  rw [closeLoop, Action.bind_run popped, own.1, own.2,
    Action.bind_run (forM_setNext_grown _ exit exits),
    Action.bind_run (forM_setNext_grown _ reentry (reentries.redirectAll exit))]
  rfl

end

/-! ## No step takes blocks away -/

/-- The graph is at least as large behind the action, however the action ends. -/
def Grows {α : Type} (action : Action Context α) : Prop :=
  ∀ cx, cx.graph.size ≤ (action.after cx).graph.size

section

variable {α β : Type} {action : Action Context α} {next : α → Action Context β}

theorem Grows.le_bind (h : ∀ a, Grows (next a)) (cx : Context) :
    (action.after cx).graph.size ≤ ((action >>= next).after cx).graph.size := by
  cases run : action cx with
  | ok a cx' =>
      rw [Action.after_bind run, Action.after_of_ok run]
      exact h a cx'
  | error e cx' => rw [Action.after_of_error run, Action.after_of_error (Action.bind_failure run)]

theorem Grows.bind (h : Grows action) (h' : ∀ a, Grows (next a)) : Grows (action >>= next) :=
  fun cx => (h cx).trans (Grows.le_bind h' cx)

theorem size_after_setNext (source target : BlockId) (g : Graph) :
    ((Graph.setNext source target).after g).size = g.size := by
  obtain ⟨blocks⟩ := g
  by_cases inside : source.index < blocks.size
  · by_cases simple : blocks[source.index].isSimple = true
    · simp [Action.after, Graph.setNext, Graph.size, inside, simple]
    · simp [Action.after, Graph.setNext, Graph.size, inside, simple]
  · simp [Action.after, Graph.setNext, Graph.size, inside]

theorem invariant_size (n : Nat) : Graph.Invariant (fun _ => True) fun g => n ≤ g.size where
  push g block le _ := le.trans (by simp [Graph.push, Graph.size])
  setNext g source target le := le.trans (size_after_setNext source target g).ge
  own _ _ _ := trivial

/-- An action that keeps every bound takes no blocks away. -/
theorem grows_of_keeps (h : ∀ n, Keeps (fun g => n ≤ g.size) action) : Grows action :=
  fun cx => h cx.graph.size cx le_rfl

theorem grows_link (head : Option Fragment) (next : Fragment) : Grows (link head next) :=
  grows_of_keeps fun n => (invariant_size n).link head next

theorem grows_emit (head : Option Fragment) (instr : Instr) : Grows (emit head instr) :=
  grows_of_keeps fun n => (invariant_size n).emit head trivial

theorem grows_orEmpty (fragment : Option Fragment) : Grows (orEmpty fragment) :=
  grows_of_keeps fun n => (invariant_size n).orEmpty fragment

theorem grows_wireLoop (cond body : Fragment) : Grows (wireLoop cond body) :=
  grows_of_keeps fun n => (invariant_size n).wireLoop cond body

theorem grows_lower (e : Expr) : Grows e.lower :=
  grows_of_keeps fun n => (invariant_size n).lower e

theorem grows_lowerAll (head : Option Fragment) (items : List Expr) :
    Grows (Expr.lowerAll head items) :=
  grows_of_keeps fun n => (invariant_size n).lowerAll head items

theorem Call.grows (call : Call) : Grows call.run :=
  grows_of_keeps fun n => (invariant_size n).call fun _ _ => trivial

end

end Context

end Flowgraph
