import Flowgraph.Context.Anchors

/-! # What all calls keep

Whatever is done to a graph comes down to two steps: a block is added, or a block gets its
successor. A property of graphs that both steps keep is kept by lowering and by every call, whether
it fails or not and however large the graph is. -/

namespace Flowgraph

/-- Both steps keep the property: a new block as long as its instructions are allowed, a new
successor always. All instructions that come of trees are allowed. -/
structure Graph.Invariant (allowed : Instr → Prop) (I : Graph → Prop) : Prop where
  push : ∀ g block, I g → (∀ instr ∈ block.instrs, allowed instr) → I (g.push block)
  setNext : ∀ g source target, I g → I ((Graph.setNext source target).after g)
  own : ∀ (e : Expr) (instr : Instr), e.ownInstr = some instr → allowed instr

theorem Expr.lower_of_ownInstr {e : Expr} {instr : Instr} (own : e.ownInstr = some instr) :
    e.lower = lowerAll none e.children >>= fun head => Context.emit head instr := by
  cases e <;> simp_all [ownInstr, lower, lowerAll, children, Context.link]

/-! ## Actions on a context -/

namespace Context

variable {α β γ : Type} {I : Graph → Prop} {action : Action Context α}
  {next : α → Action Context β}

/-- If the graph has the property, it still has it behind the action, however the action ends. -/
def Keeps (I : Graph → Prop) (action : Action Context α) : Prop :=
  ∀ cx, I cx.graph → I (action.after cx).graph

theorem after_onGraph (action : Action Graph α) (cx : Context) :
    (onGraph action).after cx = { cx with graph := action.after cx.graph } := by
  obtain ⟨options, slots, graph, loops⟩ := cx
  simp only [Action.after, onGraph]
  cases action graph <;> rfl

theorem after_map (f : α → β) (action : Action Context α) (cx : Context) :
    (f <$> action).after cx = action.after cx := by
  change Action.after (EStateM.map f action) cx = _
  rw [Action.after, Action.after, EStateM.map]
  cases action cx <;> rfl

theorem after_discard (action : Action Context α) (cx : Context) :
    (discard action).after cx = action.after cx :=
  after_map (fun _ => PUnit.unit) action cx

theorem keeps_pure (a : α) : Keeps I (pure a) :=
  fun _ before => before

theorem keeps_openLoop (node : ExprId) : Keeps I (openLoop node) :=
  fun _ before => before

theorem keeps_popLoop : Keeps I popLoop := by
  intro cx before
  obtain ⟨options, slots, graph, loops⟩ := cx
  cases loops <;> exact before

theorem Keeps.bind (h : Keeps I action) (h' : ∀ a, Keeps I (next a)) :
    Keeps I (action >>= next) := by
  intro cx before
  have middle := h cx before
  cases run : action cx with
  | ok a cx' =>
      rw [Action.after_of_ok run] at middle
      rw [Action.after_bind run]
      exact h' a cx' middle
  | error e cx' =>
      rw [Action.after_of_error run] at middle
      rwa [Action.after_of_error (Action.bind_failure run)]

theorem Keeps.map (h : Keeps I action) (f : α → β) : Keeps I (f <$> action) := by
  intro cx before
  rw [after_map]
  exact h cx before

theorem Keeps.discard (h : Keeps I action) : Keeps I (discard action) := by
  intro cx before
  rw [after_discard]
  exact h cx before

theorem Keeps.foldlM {step : β → γ → Action Context β} (h : ∀ b c, Keeps I (step b c))
    (items : List γ) (b : β) : Keeps I (items.foldlM step b) := by
  induction items generalizing b with
  | nil => exact keeps_pure b
  | cons item rest ih => exact (h b item).bind fun b => ih b

end Context

namespace Graph.Invariant

open Context

variable {I : Graph → Prop} {allowed : Instr → Prop} (invariant : Graph.Invariant allowed I)

include invariant

/-! ## Steps of lowering -/

theorem addBlock {block : Block} (own : ∀ instr ∈ block.instrs, allowed instr) :
    Keeps I (Context.addBlock block) :=
  fun cx before => invariant.push cx.graph block before own

theorem addEmpty : Keeps I (Context.addBlock .empty) :=
  invariant.addBlock (by simp [Block.empty])

theorem setSuccessor (source target : BlockId) : Keeps I (Context.setNext source target) := by
  intro cx before
  rw [Context.setNext, after_onGraph]
  exact invariant.setNext cx.graph source target before

theorem forM_setSuccessor (sources : List BlockId) (target : BlockId) :
    Keeps I (sources.forM fun source => Context.setNext source target) := by
  induction sources with
  | nil => exact keeps_pure PUnit.unit
  | cons source sources ih => exact (invariant.setSuccessor source target).bind fun _ => ih

theorem addAnchor (kind : LoopJump) (node : ExprId) : Keeps I (Context.addAnchor kind node) := by
  intro cx before
  obtain ⟨options, slots, graph, loops⟩ := cx
  cases loops with
  | nil => exact before
  | cons frame outer => exact invariant.push graph .empty before (by simp [Block.empty])

theorem closeLoop (exit reentry : BlockId) : Keeps I (Context.closeLoop exit reentry) :=
  keeps_popLoop.bind fun frame =>
    (invariant.forM_setSuccessor frame.exits.toList exit).bind fun _ =>
      (invariant.forM_setSuccessor frame.reentries.toList reentry).bind fun _ => keeps_pure frame

theorem link (head : Option Fragment) (next : Fragment) : Keeps I (Context.link head next) := by
  cases head with
  | none => exact keeps_pure next
  | some head => exact (invariant.setSuccessor head.exit next.entry).bind fun _ => keeps_pure _

theorem emit (head : Option Fragment) {instr : Instr} (own : allowed instr) :
    Keeps I (Context.emit head instr) :=
  (invariant.addBlock (by simpa using own)).bind fun block => invariant.link head (.single block)

theorem orEmpty (fragment : Option Fragment) : Keeps I (Context.orEmpty fragment) := by
  cases fragment with
  | none => exact invariant.addEmpty.bind fun block => keeps_pure _
  | some fragment => exact keeps_pure fragment

theorem wireLoop (cond body : Fragment) : Keeps I (Context.wireLoop cond body) :=
  invariant.addEmpty.bind fun exit => (invariant.addBlock (by simp)).bind fun branch =>
    (invariant.setSuccessor cond.exit branch).bind fun _ =>
      (invariant.setSuccessor body.exit cond.entry).bind fun _ =>
        (invariant.closeLoop exit cond.entry).bind fun _ => keeps_pure _

/-! ## Trees -/

theorem lowerAll_of {items : List Expr} (ih : ∀ item ∈ items, Keeps I item.lower)
    (head : Option Fragment) : Keeps I (Expr.lowerAll head items) := by
  induction items generalizing head with
  | nil => exact keeps_pure head
  | cons item rest ihRest =>
      exact (ih item (by simp)).bind fun next => (invariant.link head next).bind fun head =>
        ihRest (fun item m => ih item (by simp [m])) (some head)

theorem lower (e : Expr) : Keeps I e.lower := by
  induction e using Expr.inductionOnRole with
  | instr e instr own ih =>
      rw [Expr.lower_of_ownInstr own]
      exact (invariant.lowerAll_of ih none).bind fun head =>
        invariant.emit head (invariant.own e instr own)
  | seq id items ih =>
      rw [Expr.lower]
      exact (invariant.lowerAll_of ih none).bind fun head => invariant.orEmpty head
  | loop id cond body ihCond ihBody =>
      rw [Expr.lower]
      exact (keeps_openLoop id).bind fun _ => ihCond.bind fun cond => ihBody.bind fun body =>
        invariant.wireLoop cond body
  | jump id kind =>
      rw [Expr.lower]
      exact (invariant.addAnchor kind id).bind fun anchor => keeps_pure _

theorem lowerAll (head : Option Fragment) (items : List Expr) :
    Keeps I (Expr.lowerAll head items) :=
  invariant.lowerAll_of (fun item _ => invariant.lower item) head

theorem arenaLower (arena : Arena) (id : ExprId) : Keeps I (arena.lower id) := by
  intro cx before
  rw [Action.after, Arena.lower]
  cases arena.lookup id with
  | ok entry => exact invariant.lower entry.1 cx before
  | error failure => exact before

theorem chain (arena : Arena) {instr : Instr} (own : allowed instr) (operands : List ExprId) :
    Keeps I (arena.chain instr operands) :=
  (Keeps.foldlM (fun head id => (invariant.arenaLower arena id).bind fun next =>
    (invariant.link head next).map some) operands none).bind fun head => invariant.emit head own

/-! ## Calls -/

theorem call {call : Call} (given : ∀ instr ∈ call.given, allowed instr) : Keeps I call.run := by
  cases call with
  | openLoop node => exact keeps_openLoop node
  | setNext source target => exact invariant.setSuccessor source target
  | closeLoop exit reentry => exact (invariant.closeLoop exit reentry).discard
  | addAnchor kind node => exact (invariant.addAnchor kind node).discard
  | lower arena id => exact (invariant.arenaLower arena id).discard
  | chain arena instr operands =>
      exact (invariant.chain arena (given instr (List.mem_singleton_self instr)) operands).discard
  | addSimple instrs | addBranch instrs onTrue onFalse =>
      exact (invariant.addBlock given).discard

theorem runAll {calls : List Call} (given : ∀ call ∈ calls, ∀ instr ∈ call.given, allowed instr)
    {cx : Context} (before : I cx.graph) : I (Call.runAll calls cx).graph := by
  induction calls generalizing cx with
  | nil => exact before
  | cons call rest ih =>
      exact ih (fun call m => given call (List.mem_cons_of_mem _ m))
        (invariant.call (given call List.mem_cons_self) cx before)

end Graph.Invariant

end Flowgraph
