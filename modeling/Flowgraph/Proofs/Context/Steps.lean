import Flowgraph.Context.Anchors
import Flowgraph.Proofs.Lowering.Anchors
import Flowgraph.Proofs.Lowering.Outcome

/-! # What one call does to the anchors

Calls other than those that open or close a loop add anchors to the innermost open loop, behind
everything there is, and no call spoils a block that an anchor may be. -/

namespace Flowgraph

open Context

/-! ## Bare blocks -/

namespace Graph

variable {g : Graph} {id : BlockId} {block : Block}

theorem BareAt.lt (bare : g.BareAt id) : id.index < g.size := by
  obtain ⟨block, found, -⟩ := bare
  exact (Array.getElem?_eq_some_iff.mp found).1

theorem BareAt.append (bare : g.BareAt id) (blocks : List Block) : (g.append blocks).BareAt id := by
  obtain ⟨block, found, plain⟩ := bare
  have inside := (Array.getElem?_eq_some_iff.mp found).1
  exact ⟨block, by rw [Graph.append, Array.getElem?_append_left inside, found], plain⟩

theorem bareAt_append_of_jumpBlockAt {kind : LoopJump} {blocks : List Block}
    (room : (g.append blocks).size ≤ UInt32.size)
    (there : Expr.JumpBlockAt g.size Expr.noTargets kind id blocks) :
    g.size ≤ id.index ∧ (g.append blocks).BareAt id := by
  obtain ⟨i, next, rfl, found⟩ := there
  have inside := (List.getElem?_eq_some_iff.mp found).1
  rw [size_append] at room
  rw [BareAt, BlockId.index_ofIndex (by omega)]
  refine ⟨by omega, ⟨[], .toward ((Expr.noTargets kind).or next)⟩, ?_, rfl,
    by simp [Block.isSimple]⟩
  rw [Graph.append, Array.getElem?_append_right (by simp [size])]
  simpa [size] using found

theorem setNext_ok {source target : BlockId} {after : Graph}
    (h : setNext source target g = .ok () after) :
    ∃ block, g.blocks[source.index]? = some block ∧ block.isSimple = true ∧
      after = ⟨g.blocks.setIfInBounds source.index (block.redirect target)⟩ := by
  obtain ⟨blocks⟩ := g
  by_cases inside : source.index < blocks.size
  · by_cases simple : blocks[source.index].isSimple = true
    · simp only [setNext, dif_pos inside, if_pos simple] at h
      cases h
      refine ⟨_, Array.getElem?_eq_getElem inside, simple, ?_⟩
      rw [Array.setIfInBounds, dif_pos inside]
      rfl
    · simp [setNext, inside, simple] at h
  · simp [setNext, inside] at h

theorem BareAt.setNext (bare : g.BareAt id) (source target : BlockId) :
    ((Graph.setNext source target).after g).BareAt id := by
  cases run : Graph.setNext source target g with
  | error e after =>
      rw [Action.after_of_error run, setNext_failure run]
      exact bare
  | ok answer after =>
      obtain ⟨other, foundOther, simple, rfl⟩ := setNext_ok run
      obtain ⟨block, found, idle, plain⟩ := bare
      rw [Action.after_of_ok run]
      by_cases same : source.index = id.index
      · rw [same, found, Option.some.injEq] at foundOther
        subst foundOther
        refine ⟨block.redirect target, ?_, idle, rfl⟩
        have inside := (Array.getElem?_eq_some_iff.mp found).1
        rw [same, Array.getElem?_setIfInBounds_self_of_lt inside]
      · exact ⟨block, by rw [Array.getElem?_setIfInBounds_ne same, found], idle, plain⟩

end Graph

/-! ## Operands of a chain -/

namespace Arena

variable {arena : Arena} {cx : Context}

/-- What is wrong with the first of the expressions that is not in the arena. -/
def firstFailure (arena : Arena) : List ExprId → Option Failure
  | [] => none
  | id :: rest =>
    match arena.lookup id with
    | .ok _ => firstFailure arena rest
    | .error e => some e

/-- Hands a fragment on, or fails. -/
def orFail (failure : Option Failure) (head : Option Fragment) : Action Context (Option Fragment) :=
  fun cx => match failure with
    | none => .ok head cx
    | some e => .error e cx

theorem lower_of_unknown {id : ExprId} {failure : Failure}
    (unknown : arena.lookup id = .error failure) :
    arena.lower id = fun cx => .error failure cx := by
  funext cx
  rw [lower, unknown]

theorem foldlM_lower_eq (operands : List ExprId) (head : Option Fragment) :
    operands.foldlM (fun head id => do
        let next ← arena.lower id
        some <$> link head next) head =
      Expr.lowerAll head (arena.trees operands) >>= orFail (arena.firstFailure operands) := by
  induction operands generalizing head with
  | nil =>
      rw [List.foldlM_nil, trees, Expr.lowerAll, pure_bind]
      rfl
  | cons id rest ih =>
      rw [List.foldlM_cons, trees, firstFailure]
      cases found : arena.lookup id with
      | ok entry =>
          simp only [lower_of_lookup found, Expr.lowerAll, bind_assoc, bind_map_left, ih]
      | error failure =>
          rw [lower_of_unknown found, Expr.lowerAll, pure_bind]
          rfl

/-- A chain lowers one operand after another, as far as there are operands, and runs its
instruction behind all of them. -/
theorem chain_eq (arena : Arena) (instr : Instr) (operands : List ExprId) :
    arena.chain instr operands =
      Expr.lowerAll none (arena.trees operands) >>= fun head =>
        orFail (arena.firstFailure operands) head >>= fun head => emit head instr := by
  rw [chain, foldlM_lower_eq, bind_assoc]

end Arena

/-! ## Steps -/

namespace Context

variable {cx after : Context} {blocks : List Block} {made : List (LoopJump × BlockId)}

/-- From one context to the next, the innermost open loop gets more anchors, all of them new, and
whatever block an anchor may be stays so. -/
structure Advances (cx : Context) (made : List (LoopJump × BlockId)) (after : Context) : Prop where
  loops_eq : after.loops = enroll made cx.loops
  bare : ∀ id, cx.graph.BareAt id → after.graph.BareAt id
  fresh : cx.loops ≠ [] → ∀ anchor ∈ made,
    cx.graph.size ≤ anchor.2.index ∧ after.graph.BareAt anchor.2
  ascending : cx.loops ≠ [] → Expr.Ascending made

theorem advances_grown (room : (cx.grown blocks made).graph.size ≤ UInt32.size)
    (there : ∀ kind anchor, (kind, anchor) ∈ made →
      Expr.JumpBlockAt cx.graph.size Expr.noTargets kind anchor blocks)
    (ascending : Expr.Ascending made) : Advances cx made (cx.grown blocks made) where
  loops_eq := rfl
  bare _ bare := bare.append blocks
  fresh _ anchor m := Graph.bareAt_append_of_jumpBlockAt room (there anchor.1 anchor.2 m)
  ascending _ := ascending

/-- Where no loop is open it does not matter which anchors are made. -/
theorem advances_closed (closed : cx.loops = []) (blocks : List Block)
    (made : List (LoopJump × BlockId)) : Advances cx made (cx.grown blocks []) where
  loops_eq := by simp [grown, closed, enroll]
  bare _ bare := bare.append blocks
  fresh open_ := absurd closed open_
  ascending open_ := absurd closed open_

theorem enroll_nil (loops : List LoopFrame) : enroll [] loops = loops := by
  cases loops <;> rfl

/-- A context of which only the graph has changed. -/
theorem advances_graph {graph : Graph} (bare : ∀ id, cx.graph.BareAt id → graph.BareAt id) :
    Advances cx [] { cx with graph } where
  loops_eq := (enroll_nil _).symm
  bare := bare
  fresh _ anchor m := by cases m
  ascending _ := .nil

theorem advances_addBlock (block : Block) : Advances cx [] ((addBlock block).after cx) := by
  rw [Action.after_of_ok (addBlock_run block cx)]
  apply advances_graph
  intro id bare
  have same : cx.graph.push block = cx.graph.append [block] := by simp [Graph.push, Graph.append]
  rw [same]
  exact bare.append [block]

theorem advances_setNext (source target : BlockId) :
    Advances cx [] ((setNext source target).after cx) := by
  rw [setNext, after_onGraph]
  exact advances_graph fun id bare => bare.setNext source target

theorem advances_addAnchor (kind : LoopJump) (node : ExprId)
    (room : ((addAnchor kind node).after cx).graph.size ≤ UInt32.size) :
    Advances cx [(kind, cx.graph.nextId)] ((addAnchor kind node).after cx) := by
  by_cases closed : cx.loops = []
  · rw [Action.after_of_error (addAnchor_outside kind node closed)]
    simpa using advances_closed closed [] [(kind, cx.graph.nextId)]
  · rw [Action.after_of_ok (addAnchor_run node closed)] at room ⊢
    apply advances_grown room
    · intro kind' anchor m
      cases List.mem_singleton.mp m
      exact ⟨0, none, rfl, rfl⟩
    · exact List.pairwise_singleton _ _

/-! ## Lowering -/

theorem advances_lower (arena : Arena) (id : ExprId)
    (room : ((arena.lower id).after cx).graph.size ≤ UInt32.size) :
    Advances cx (Expr.anchorsAll cx.graph.size (arena.trees [id])) ((arena.lower id).after cx) := by
  cases found : arena.lookup id with
  | error failure =>
      have none : arena.trees [id] = [] := by simp [Arena.trees, found]
      rw [Arena.lower_of_unknown found, none]
      exact advances_graph fun _ bare => bare
  | ok entry =>
      obtain ⟨e, type⟩ := entry
      have one : arena.trees [id] = [e] := by simp [Arena.trees, found]
      rw [Arena.lower_of_lookup found] at room ⊢
      rw [one, Expr.anchorsAll, Expr.anchorsAll, List.append_nil]
      rcases e.lower_cases room with ⟨-, lowered⟩ | ⟨closed, kind, node, others, -, failed⟩
      · rw [Action.after_of_ok lowered] at room ⊢
        refine advances_grown room ?_ (Expr.ascending_anchors _ e (by simpa using room))
        exact fun kind anchor m => Expr.jumpBlockAt_layout _ _ _ e m
      · rw [Action.after_of_error failed]
        exact advances_closed closed _ _

theorem grows_orFail (failure : Option Failure) (head : Option Fragment) :
    Grows (Arena.orFail failure head) := by
  intro cx
  cases failure <;> exact le_rfl

/-- What comes behind the operands of a chain adds no anchors and moves none. -/
theorem exists_after_chain {items : List Expr} {failure : Option Failure} {instr : Instr}
    (room : cx.graph.size + Expr.blockCountAll items ≤ UInt32.size) :
    ∃ next own, (Arena.orFail failure (Expr.fragmentAll cx.graph.size items) >>=
        fun head => emit head instr).after (Expr.loweredAll cx items) =
      cx.grown (Expr.layoutAll cx.graph.size next Expr.noTargets items ++ own)
        (Expr.anchorsAll cx.graph.size items) := by
  cases failure with
  | none =>
      have ready : Arena.orFail none (Expr.fragmentAll cx.graph.size items)
        (Expr.loweredAll cx items) = .ok _ _ := rfl
      rw [Action.after_bind ready, Expr.loweredAll,
        Action.after_of_ok (Expr.emit_run items instr room)]
      exact ⟨_, _, rfl⟩
  | some failure =>
      have failed : Arena.orFail (some failure) (Expr.fragmentAll cx.graph.size items)
        (Expr.loweredAll cx items) = .error failure _ := rfl
      rw [Action.after_of_error (Action.bind_failure failed)]
      exact ⟨none, [], by rw [List.append_nil, Expr.loweredAll]⟩

theorem advances_chain (arena : Arena) (instr : Instr) (operands : List ExprId)
    (room : ((arena.chain instr operands).after cx).graph.size ≤ UInt32.size) :
    Advances cx (Expr.anchorsAll cx.graph.size (arena.trees operands))
      ((arena.chain instr operands).after cx) := by
  rw [Arena.chain_eq] at room ⊢
  generalize arena.trees operands = items at room ⊢
  have roomAll : ((Expr.lowerAll none items).after cx).graph.size ≤ UInt32.size :=
    (Grows.le_bind (fun head => (grows_orFail _ head).bind fun head => grows_emit head instr)
      cx).trans room
  by_cases allowed : Expr.Allowed cx (Expr.strayJumpsAll items)
  · have lowered := Expr.lowerAll_run_of (fun item _ => item.lower_run) roomAll allowed
    rw [Action.after_of_ok lowered, Expr.size_loweredAll] at roomAll
    obtain ⟨next, own, done⟩ := exists_after_chain roomAll
    rw [Action.after_bind lowered, done] at room ⊢
    refine advances_grown room ?_ ?_
    · intro kind anchor m
      apply Expr.JumpBlockAt.append_left
      exact Expr.jumpBlockAt_layoutAll_of _ _ _
        (fun item _ start next => Expr.jumpBlockAt_layout start next _ item) m
    · exact Expr.ascending_anchorsAll_of _
        (fun item _ start => Expr.ascending_anchors start item) roomAll
  · obtain ⟨closed, stray⟩ := Classical.not_imp.mp allowed
    obtain ⟨⟨kind, node⟩, others, first⟩ := List.exists_cons_of_ne_nil stray
    have failed := Expr.lowerAll_failure_of (fun item _ => item.lower_failure) closed first
      roomAll
    rw [Action.after_of_error (Action.bind_failure failed)]
    exact advances_closed closed _ _

/-! ## All calls -/

/-- What a call can do: open a loop, close one, or add to what there is. -/
theorem Call.run_cases (call : Call) (cx : Context)
    (room : (call.run.after cx).graph.size ≤ UInt32.size) :
    (∃ node, call = .openLoop node ∧ call.run.after cx = cx.opened node) ∨
      (∃ exit reentry, call = .closeLoop exit reentry ∧
        call.run.after cx = (Context.closeLoop exit reentry).after cx) ∨
      Advances cx (call.anchors cx) (call.run.after cx) := by
  cases call with
  | openLoop node => exact .inl ⟨node, rfl, rfl⟩
  | closeLoop exit reentry => exact .inr (.inl ⟨exit, reentry, rfl, after_discard _ _⟩)
  | setNext source target => exact .inr (.inr (advances_setNext source target))
  | addAnchor kind node =>
      rw [run, after_discard] at room ⊢
      exact .inr (.inr (advances_addAnchor kind node room))
  | lower arena id =>
      rw [run, after_discard] at room ⊢
      exact .inr (.inr (advances_lower arena id room))
  | chain arena instr operands =>
      rw [run, after_discard] at room ⊢
      exact .inr (.inr (advances_chain arena instr operands room))
  | addSimple instrs | addBranch instrs onTrue onFalse =>
      rw [run, after_discard]
      exact .inr (.inr (advances_addBlock _))

end Context

end Flowgraph
