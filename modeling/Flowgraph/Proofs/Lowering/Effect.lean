import Flowgraph.Proofs.Lowering.Levels
import Flowgraph.Proofs.Lowering.Straight

/-! # What straight code does to the operand stack

The types of operands are checked when a node is built, so an instruction finds a value of each
operand of its node, and a tree without loops and jumps leaves what its type says. Nothing checks
the type that a load declares: a load that is declared to leave nothing leaves a value all the
same. -/

namespace Flowgraph

namespace Expr

section

variable {e : Expr} {items : List Expr} {floor h : Nat}

/-- How many values trees that lie one behind the other leave by their types. -/
def yieldAll : List Expr → Nat
  | [] => 0
  | item :: rest => item.yield + yieldAll rest

theorem yieldAll_eq_length (yields : ∀ item ∈ items, item.yield = 1) :
    yieldAll items = items.length := by
  induction items with
  | nil => rfl
  | cons item rest ih =>
      rw [yieldAll, yields item (by simp), ih fun item m => yields item (by simp [m]),
        List.length_cons, Nat.add_comm]

theorem yieldAll_eq_yield (id : ExprId) (silent : ∀ item ∈ items.dropLast, item.type = .none) :
    yieldAll items = (seq id items).yield := by
  induction items with
  | nil => rfl
  | cons item rest ih =>
      cases rest with
      | nil => rfl
      | cons second rest =>
          rw [yieldAll, yield_eq_zero (silent item (by simp)), Nat.zero_add,
            ih fun item m => silent item (by simp [m])]
          rfl

/-- Run at a height of at least `floor`, the instructions of the tree take nothing from below the
floor. They leave what the tree's type says, and a value for each load that is declared to leave
nothing. -/
def Leaves (floor : Nat) (e : Expr) : Prop :=
  ∀ h, floor ≤ h → (Machine.heights floor).run e.instrs h =
    some (h + e.yield + e.postorder.countP loadsNothing)

theorem run_flatMap_instrs (ih : ∀ item ∈ items, Leaves floor item) (above : floor ≤ h) :
    (Machine.heights floor).run (items.flatMap instrs) h =
      some (h + yieldAll items + (items.flatMap postorder).countP loadsNothing) := by
  induction items generalizing h with
  | nil => rfl
  | cons item rest ihRest =>
      rw [List.flatMap_cons, Machine.run_append, ih item (by simp) h above, Option.bind_some,
        ihRest (fun item m => ih item (by simp [m])) (by omega), List.flatMap_cons,
        List.countP_append, yieldAll, Option.some.injEq]
      omega

theorem leaves_instr {instr : Instr} (well : e.WellTyped) (own : e.ownInstr = some instr)
    (fair : e.takesTop = false) (ih : ∀ child ∈ e.children, Leaves floor child) :
    Leaves floor e := by
  intro h above
  have operands := run_flatMap_instrs ih above
  rw [yieldAll_eq_length fun child m => well.yield_of_mem_children own m] at operands
  have found : floor + e.children.length ≤
      h + e.children.length + (e.children.flatMap postorder).countP loadsNothing := by omega
  rw [instrs_eq, Machine.run_append, operands, own, Option.bind_some, postorder_eq,
    List.countP_append]
  simp only [Option.toList_some, Machine.run, Machine.heights, heightAfter, pops_eq own fair,
    pushes_eq own, if_pos found, Option.bind_some, Option.some.injEq]
  omega

theorem leaves_seq {id : ExprId} (well : (seq id items).WellTyped)
    (ih : ∀ item ∈ items, Leaves floor item) : Leaves floor (seq id items) := by
  intro h above
  cases well with
  | seq id items well silent =>
      rw [instrs_eq, postorder_eq, List.countP_append, ← yieldAll_eq_yield id silent]
      simp only [children, ownInstr, Option.toList_none, List.append_nil]
      exact run_flatMap_instrs ih above

/-- What a well-typed tree leaves, if control runs straight through it and no node of it takes what
happens to lie on the stack. -/
theorem leaves (well : e.WellTyped) (straight : e.isStraight = true)
    (fair : ∀ node ∈ e.postorder, node.takesTop = false) : Leaves floor e := by
  induction e, straight using inductionOnStraight with
  | instr e instr straight own ih =>
      refine leaves_instr well own (fair e e.mem_postorder_self) fun child m => ?_
      exact ih child m (well.of_mem_children m) fun node inside =>
        fair node (mem_postorder_of_mem_children m inside)
  | seq id items straight ih =>
      refine leaves_seq well fun item m => ?_
      exact ih item m (well.of_mem_children m) fun node inside =>
        fair node (mem_postorder_of_mem_children m inside)

end

end Expr

namespace Arena

open Context

variable {arena : Arena} {id : ExprId} {e : Expr} {type : ValueType} {cx : Context}

/-- Whatever the height at which it starts, the straight line through a lowered tree takes nothing
that was on the stack before. It leaves one value if the tree's type says so, and one more for each
load that is declared to leave nothing; without such loads, it leaves just what the type says. -/
theorem height_behind_straightLine (built : Built arena) (found : arena.lookup id = .ok (e, type))
    (straight : e.isStraight = true) (fair : ∀ node ∈ e.postorder, node.takesTop = false)
    (room : ((arena.lower id).after cx).graph.size ≤ UInt32.size) (h : Nat) :
    ∃ fragment after instrs, arena.lower id cx = .ok fragment after ∧
      after.graph.straightLine fragment = .ok instrs ∧
      (Machine.heights h).run instrs.toList h =
        some (h + (if type.producesValue then 1 else 0) +
          e.postorder.countP Expr.loadsNothing) := by
  obtain ⟨well, same⟩ := built.typed found
  obtain ⟨fragment, after, lowered, runs⟩ := lower_runsStraight found straight room
  have left := Expr.leaves well straight fair h le_rfl
  rw [Expr.yield, same] at left
  exact ⟨fragment, after, _, lowered, runs.straightLine, left⟩

/-- An indexed load that is declared to leave nothing, an indexed store and a load, in a loop that
is still open: the sequence has the type of its last item and leaves two values. -/
theorem height_behind_straightLine_indexed :
    let calls : List Call := [.int 1, .load (.indirect ⟨0⟩) .none, .bytes [7],
      .store (.indirect ⟨0⟩) ⟨2⟩, .load (.direct ⟨3, true⟩) .any, .seq [⟨1⟩, ⟨3⟩, ⟨4⟩]]
    let arena := Action.afterSeries (calls.map Call.run) {}
    let e : Expr := .seq ⟨5⟩ [.loadAt ⟨1⟩ (.int ⟨0⟩ 1) .none,
      .storeAt ⟨3⟩ (.int ⟨0⟩ 1) (.bytes ⟨2⟩ [7]), .load ⟨4⟩ ⟨3, true⟩ .any]
    arena.lookup ⟨5⟩ = .ok (e, .any) ∧
    ∃ fragment after instrs, arena.lower ⟨5⟩ ((openLoop ⟨6⟩).after (.new {})) = .ok fragment after ∧
      after.graph.straightLine fragment = .ok instrs ∧
      (Machine.heights 4).run instrs.toList 4 = some 6 := by
  intro calls arena e
  have built : Built arena := .afterSeries .empty calls
  have found : arena.lookup ⟨5⟩ = .ok (e, .any) := rfl
  have room : ((arena.lower ⟨5⟩).after ((openLoop ⟨6⟩).after (.new {}))).graph.size ≤
      UInt32.size := by decide +kernel
  exact ⟨found, height_behind_straightLine built found rfl (by decide) room 4⟩

/-- A load that is declared to leave nothing leaves a value, though its type says that there is
none. -/
theorem height_ne_behind_load_of_nothing :
    let slot : Slot := ⟨256, false⟩
    let arena := Action.afterSeries ([Call.load (.direct slot) .none].map Call.run) {}
    let graph : Graph := ⟨#[⟨[⟨.load, [.slot slot], ⟨0⟩⟩], .none⟩]⟩
    Built arena ∧ arena.lookup ⟨0⟩ = .ok (.load ⟨0⟩ slot .none, .none) ∧
      arena.lower ⟨0⟩ (.new {}) = .ok ⟨⟨0⟩, ⟨0⟩⟩ { Context.new {} with graph } ∧
      ∃ instrs, graph.straightLine ⟨⟨0⟩, ⟨0⟩⟩ = .ok instrs ∧
        (Machine.heights 0).run instrs.toList 0 = some 1 ∧
        (Machine.heights 0).run instrs.toList 0 ≠
          some (0 + if ValueType.none.producesValue then 1 else 0) := by
  intro slot arena graph
  have built : Built arena := .afterSeries .empty [Call.load (.direct slot) .none]
  have line := Graph.straightLine_run (.refl ⟨0⟩) (rfl : graph.blocks[0]? = some _) (by simp)
  exact ⟨built, rfl, rfl, _, line, rfl, by decide⟩

end Arena

end Flowgraph
