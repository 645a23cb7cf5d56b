import Flowgraph.Expr.Code
import Flowgraph.Proofs.Context.Steps
import Flowgraph.Proofs.Expr.Filing

/-! # Instructions are emitted in postorder

Edges are written more than once, instructions are not: a block has its instructions from the start,
and every new block comes last. So each step of lowering has a list of instruction lists that it
writes behind those of the graph, whatever the context is, and the lists of a tree are its code. -/

namespace Flowgraph

/-! ## The code of a graph -/

namespace Graph

/-- The instructions of each block. -/
def code (g : Graph) : List (List Instr) :=
  g.blocks.toList.map Block.instrs

theorem length_code (g : Graph) : g.code.length = g.size := by
  rw [code, List.length_map, Array.length_toList, size]

theorem code_push (g : Graph) (block : Block) : (g.push block).code = g.code ++ [block.instrs] := by
  simp [code, push]

theorem code_setNext {source target : BlockId} {g after : Graph}
    (ran : setNext source target g = .ok () after) : after.code = g.code := by
  obtain ⟨block, found, -, rfl⟩ := setNext_ok ran
  have here : g.blocks.toList[source.index]? = some block := by rw [Array.getElem?_toList, found]
  apply List.ext_getElem?
  intro i
  simp only [code, Array.toList_setIfInBounds, List.getElem?_map, List.getElem?_set]
  grind [Block.redirect]

end Graph

/-! ## What actions write -/

namespace Context

/-- When the action succeeds, there are new blocks with the code behind the others, and the others
have the instructions they had. -/
def Writes {α : Type} (action : Action Context α) (code : List (List Instr)) : Prop :=
  ∀ cx a after, action cx = .ok a after → after.graph.code = cx.graph.code ++ code

section

variable {α β : Type} {action : Action Context α} {next : α → Action Context β}
  {code more : List (List Instr)}

theorem Writes.bind (h : Writes action code) (h' : ∀ a, Writes (next a) more) :
    Writes (action >>= next) (code ++ more) := by
  intro cx b after ran
  cases first : action cx with
  | ok a middle =>
      rw [Action.bind_run first] at ran
      rw [h' a middle b after ran, h cx a middle first, List.append_assoc]
  | error e middle =>
      rw [Action.bind_failure first] at ran
      cases ran

/-- What comes behind the action writes nothing. -/
theorem Writes.quietly (h : Writes action code) (h' : ∀ a, Writes (next a) []) :
    Writes (action >>= next) code := by
  rw [← List.append_nil code]
  exact h.bind h'

theorem writes_pure (a : α) : Writes (pure a) [] := by
  intro cx b after ran
  cases ran
  rw [List.append_nil]

theorem writes_addBlock (block : Block) : Writes (addBlock block) [block.instrs] := by
  intro cx id after ran
  rw [addBlock_run] at ran
  cases ran
  exact cx.graph.code_push block

theorem writes_setNext (source target : BlockId) : Writes (setNext source target) [] := by
  intro cx a after ran
  obtain ⟨options, slots, graph, loops⟩ := cx
  simp only [setNext, onGraph] at ran
  cases wired : Graph.setNext source target graph with
  | ok answer graph' =>
      rw [wired] at ran
      cases ran
      rw [List.append_nil]
      exact Graph.code_setNext wired
  | error e graph' =>
      rw [wired] at ran
      cases ran

theorem writes_forM_setNext (sources : List BlockId) (target : BlockId) :
    Writes (sources.forM fun source => setNext source target) [] := by
  induction sources with
  | nil => exact writes_pure PUnit.unit
  | cons source sources ih => exact (writes_setNext source target).bind fun _ => ih

theorem writes_openLoop (node : ExprId) : Writes (openLoop node) [] := by
  intro cx a after ran
  cases ran
  rw [List.append_nil]

theorem writes_addAnchor (kind : LoopJump) (node : ExprId) : Writes (addAnchor kind node) [[]] := by
  intro cx anchor after ran
  obtain ⟨options, slots, graph, loops⟩ := cx
  cases loops with
  | nil => cases ran
  | cons frame outer =>
      cases ran
      exact graph.code_push .empty

theorem writes_popLoop : Writes popLoop [] := by
  intro cx frame after ran
  obtain ⟨options, slots, graph, loops⟩ := cx
  cases loops <;> cases ran
  rw [List.append_nil]

theorem writes_closeLoop (exit reentry : BlockId) : Writes (closeLoop exit reentry) [] :=
  writes_popLoop.bind fun frame => (writes_forM_setNext frame.exits.toList exit).bind fun _ =>
    (writes_forM_setNext frame.reentries.toList reentry).bind fun _ => writes_pure frame

theorem writes_link (head : Option Fragment) (next : Fragment) : Writes (link head next) [] := by
  cases head with
  | none => exact writes_pure next
  | some head => exact (writes_setNext head.exit next.entry).bind fun _ => writes_pure _

theorem writes_emit (head : Option Fragment) (instr : Instr) : Writes (emit head instr) [[instr]] :=
  (writes_addBlock ⟨[instr], .none⟩).bind fun block => writes_link head (.single block)

theorem writes_orEmpty_none : Writes (orEmpty none) [[]] :=
  (writes_addBlock .empty).bind fun _ => writes_pure _

theorem writes_wireLoop (cond body : Fragment) : Writes (wireLoop cond body) [[], []] :=
  (writes_addBlock .empty).bind fun exit =>
    (writes_addBlock ⟨[], .branch body.entry exit⟩).bind fun branch =>
      (writes_setNext cond.exit branch).bind fun _ =>
        (writes_setNext body.exit cond.entry).bind fun _ =>
          (writes_closeLoop exit cond.entry).bind fun _ => writes_pure _

end

end Context

/-! ## What lowering writes -/

namespace Expr

open Context

theorem writes_lowerAll {items : List Expr} (ih : ∀ item ∈ items, Writes item.lower item.code)
    (head : Option Fragment) : Writes (lowerAll head items) (items.flatMap code) := by
  induction items generalizing head with
  | nil => exact writes_pure head
  | cons item rest ihRest =>
      rw [lowerAll_cons, List.flatMap_cons]
      exact ((ih item (by simp)).quietly (writes_link head)).bind fun head =>
        ihRest (fun item m => ih item (by simp [m])) (some head)

/-- Behind a first item there is no need of an empty block. -/
theorem writes_lowerAll_some {items : List Expr}
    (ih : ∀ item ∈ items, Writes item.lower item.code) (head : Fragment) :
    Writes (lowerAll (some head) items >>= orEmpty) (items.flatMap code) := by
  induction items generalizing head with
  | nil => exact writes_pure head
  | cons item rest ihRest =>
      rw [lowerAll_cons, bind_assoc, List.flatMap_cons]
      exact ((ih item (by simp)).quietly (writes_link (some head))).bind fun head =>
        ihRest (fun item m => ih item (by simp [m])) head

theorem writes_lower (e : Expr) : Writes e.lower e.code := by
  induction e using inductionOnRole with
  | instr e instr own ih =>
      rw [lower_of_ownInstr own, code_eq, ownCode_of_ownInstr own]
      exact (writes_lowerAll ih none).bind fun head => writes_emit head instr
  | seq id items ih =>
      rw [lower, code_eq]
      cases items with
      | nil =>
          rw [lowerAll, pure_bind]
          exact writes_orEmpty_none
      | cons item rest =>
          rw [lowerAll_cons, bind_assoc, children, List.flatMap_cons, ownCode, List.append_nil]
          exact ((ih item (by simp)).quietly (writes_link none)).bind fun head =>
            writes_lowerAll_some (fun item m => ih item (by simp [m])) head
  | loop id cond body ihCond ihBody =>
      have parts := (writes_openLoop id).bind fun _ => ihCond.bind fun cond =>
        ihBody.bind fun body => writes_wireLoop cond body
      rw [lower, code_eq]
      simpa [children, ownCode] using parts
  | jump id kind =>
      rw [lower]
      exact (writes_addAnchor kind id).bind fun anchor => writes_pure _

end Expr

/-! ## Fragments -/

namespace Arena

open Context

variable {arena : Arena} {id : ExprId} {e : Expr} {type : ValueType} {cx after : Context}
  {fragment : Fragment}

theorem code_of_lower (found : arena.lookup id = .ok (e, type))
    (lowered : arena.lower id cx = .ok fragment after) :
    after.graph.code = cx.graph.code ++ e.code := by
  rw [lower_of_lookup found] at lowered
  exact e.writes_lower cx fragment after lowered

/-- The blocks that lowering appends hold, one behind the other, the instructions of the nodes in
postorder. There is a block for each instruction, each jump and each sequence without items, and
there are two for each loop. The origin of an instruction is where the arena holds its node. -/
theorem instrs_lower_eq_postorder (built : Built arena) (found : arena.lookup id = .ok (e, type))
    (lowered : arena.lower id cx = .ok fragment after) :
    let appended := after.graph.blocks.toList.drop cx.graph.size
    appended.flatMap Block.instrs = e.postorder.filterMap Expr.ownInstr ∧
    appended.length = e.instrs.length + e.postorder.countP Expr.isJump +
      e.postorder.countP Expr.isIdle + 2 * e.postorder.countP Expr.isLoop ∧
    e.id = id ∧ ∀ node ∈ e.postorder, ∀ instr, node.ownInstr = some instr →
      instr.origin = node.id ∧ arena.lookup node.id = .ok (node, node.type) := by
  intro appended
  have code : appended.map Block.instrs = e.code := by
    rw [List.map_drop, ← Graph.code, code_of_lower found lowered]
    exact List.drop_left' cx.graph.length_code
  refine ⟨?_, ?_, ?_⟩
  · rw [List.flatMap_def, code, Expr.flatten_code, Expr.instrs]
  · have count : appended.length = e.code.length := by rw [← code, List.length_map]
    rw [count, Expr.length_code, Expr.blockCount_eq_add, Expr.loopCount]
  · obtain ⟨same, held⟩ := built.filed.of_lookup found
    refine ⟨same, ?_⟩
    intro node m instr own
    exact ⟨Expr.origin_of_ownInstr own,
      built.sound.lookup_of_held (built.filed.held_of_mem_postorder held node m)⟩

/-- Within an open loop: a loop, a jump, an empty sequence and an indexed store of a shared number
by way of a sequence. -/
theorem instrs_lower_eq_postorder_shared :
    let calls : List Call := [.int 1, .jump .exit, .seq [], .seq [⟨1⟩, ⟨2⟩], .loop ⟨0⟩ ⟨3⟩,
      .seq [⟨4⟩, ⟨0⟩], .bytes [7], .store (.indirect ⟨5⟩) ⟨6⟩, .jump .reenter, .seq [⟨7⟩, ⟨8⟩]]
    let arena := Action.afterSeries (calls.map Call.run) {}
    let cx := (openLoop ⟨10⟩).after (.new {})
    let blocks := ((arena.lower ⟨9⟩).after cx).graph.blocks.toList
    blocks.flatMap Block.instrs = [⟨.int, [.uint 1], ⟨0⟩⟩, ⟨.int, [.uint 1], ⟨0⟩⟩,
      ⟨.byte, [.bytes [7]], ⟨6⟩⟩, ⟨.stores, [], ⟨7⟩⟩] ∧ blocks.length = 9 := by
  intro calls arena cx blocks
  have built : Built arena := .afterSeries .empty calls
  have found : arena.lookup ⟨9⟩ = .ok (.seq ⟨9⟩ [.storeAt ⟨7⟩ (.seq ⟨5⟩ [.loop ⟨4⟩ (.int ⟨0⟩ 1)
    (.seq ⟨3⟩ [.jump ⟨1⟩ .exit, .seq ⟨2⟩ []]), .int ⟨0⟩ 1]) (.bytes ⟨6⟩ [7]), .jump ⟨8⟩ .reenter],
    .none) := rfl
  have room : ((arena.lower ⟨9⟩).after cx).graph.size ≤ UInt32.size := by decide +kernel
  rw [lower_of_lookup found] at room
  have lowered := Expr.lower_run _ cx room fun closed => nomatch closed
  rw [← lower_of_lookup found] at lowered
  obtain ⟨instrs, count, -⟩ := instrs_lower_eq_postorder built found lowered
  have all : blocks = blocks.drop cx.graph.size := rfl
  have after : blocks = _ := congrArg (fun cx : Context => cx.graph.blocks.toList)
    (Action.after_of_ok lowered)
  rw [all, after]
  exact ⟨instrs.trans rfl, count.trans rfl⟩

end Arena

end Flowgraph
