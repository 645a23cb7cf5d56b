import Mathlib.Tactic
import Flowgraph.Expr.Layout

/-! # Wiring a layout

Giving one more block of a layout its successor turns it into the layout for another place to go on
at, or for other targets of the jumps. So a tree that is laid out with no successors at all becomes
the tree as it stands in its surroundings, one redirected block after another. -/

namespace Flowgraph

/-- The block with `target` as its successor, in place of any other. -/
def Block.redirect (target : BlockId) (block : Block) : Block :=
  ⟨block.instrs, .jump target⟩

@[simp] theorem Block.redirect_toward (target : BlockId) (instrs : List Instr)
    (next : Option BlockId) :
    Block.redirect target ⟨instrs, .toward next⟩ = ⟨instrs, .toward (some target)⟩ :=
  rfl

@[simp] theorem Edge.isBranch_toward (next : Option BlockId) :
    (Edge.toward next).isBranch = false := by
  cases next <;> rfl

/-! ## One block among others -/

section

variable {α : Type} (f : α → α) (front : List α) {rest : List α}

theorem modify_append_right {i : Nat} (h : front.length ≤ i) :
    (front ++ rest).modify i f = front ++ rest.modify (i - front.length) f := by
  induction front generalizing i with
  | nil => simp
  | cons a front ih =>
      cases i with
      | zero => simp at h
      | succ i =>
          simp only [List.length_cons] at h
          simp [ih (by omega : front.length ≤ i)]

theorem modify_append_left {i : Nat} (h : i < front.length) :
    (front ++ rest).modify i f = front.modify i f ++ rest := by
  induction front generalizing i with
  | nil => simp at h
  | cons a front ih =>
      cases i with
      | zero => simp
      | succ i =>
          simp only [List.length_cons] at h
          simp [ih (by omega : i < front.length)]

end

/-- A block with the property stands at the position. -/
def BlockAt (P : Block → Prop) (blocks : List Block) (i : Nat) : Prop :=
  ∃ block, blocks[i]? = some block ∧ P block

section

variable {P : Block → Prop} {blocks : List Block} {i : Nat}

theorem BlockAt.lt_length (h : BlockAt P blocks i) : i < blocks.length := by
  obtain ⟨block, found, -⟩ := h
  exact (List.getElem?_eq_some_iff.mp found).1

theorem BlockAt.append_right {front : List Block} {n : Nat} (h : BlockAt P blocks i)
    (length : front.length = n) : BlockAt P (front ++ blocks) (n + i) := by
  obtain ⟨block, found, holds⟩ := h
  refine ⟨block, ?_, holds⟩
  rw [List.getElem?_append_right (by omega), length, Nat.add_sub_cancel_left, found]

theorem BlockAt.append_left (h : BlockAt P blocks i) (rest : List Block) :
    BlockAt P (blocks ++ rest) i := by
  have inside := h.lt_length
  obtain ⟨block, found, holds⟩ := h
  exact ⟨block, by rw [List.getElem?_append_left inside, found], holds⟩

end

/-- Some block that does not branch stands at the position. -/
abbrev SimpleAt : List Block → Nat → Prop :=
  BlockAt fun block => block.isSimple = true

theorem SimpleAt.redirect {blocks : List Block} {i : Nat} (h : SimpleAt blocks i) (j : Nat)
    (target : BlockId) : SimpleAt (blocks.modify j (Block.redirect target)) i := by
  obtain ⟨block, found, simple⟩ := h
  by_cases same : j = i
  · refine ⟨block.redirect target, ?_, rfl⟩
    simp [same, found]
  · refine ⟨block, ?_, simple⟩
    simp [same, found]

namespace Expr

/-! ## Exits -/

section

variable (start : Nat) (next : Option BlockId) (targets : LoopJump → Option BlockId)

variable {P : Block → Prop}

theorem blockAt_exitAll_of {items : List Expr} (nonempty : items ≠ [])
    (ih : ∀ item ∈ items, ∀ start,
      BlockAt P (item.layout start next targets) item.exitOffset) :
    BlockAt P (layoutAll start next targets items) (exitOffsetAll items) := by
  induction items generalizing start with
  | nil => exact absurd rfl nonempty
  | cons item rest ihRest =>
      cases rest with
      | nil => exact ih item (by simp) start
      | cons second rest =>
          rw [layoutAll_cons_cons, exitOffsetAll_cons_cons]
          apply BlockAt.append_right
          · exact ihRest _ (by simp) fun item m => ih item (by simp [m])
          · simp

/-- The exit of a tree goes on behind the tree, or is a jump. -/
theorem blockAt_exit (onward : ∀ instrs, P ⟨instrs, .toward next⟩)
    (jump : ∀ kind, P ⟨[], .toward ((targets kind).or next)⟩) (e : Expr) :
    BlockAt P (e.layout start next targets) e.exitOffset := by
  have single : ∀ instrs, BlockAt P [⟨instrs, .toward next⟩] 0 := fun instrs =>
    ⟨_, rfl, onward instrs⟩
  induction e using inductionOnRole generalizing start with
  | instr e instr own ih =>
      rw [layout_of_ownInstr _ _ _ own, exitOffset_of_ownInstr own]
      exact (single [instr]).append_right (by simp)
  | seq id items ih =>
      cases items with
      | nil => exact single []
      | cons item rest =>
          exact blockAt_exitAll_of _ _ _ (by simp) fun item m start => ih item m start
  | loop id cond body =>
      change BlockAt P _ (cond.blockCount + body.blockCount + 0)
      exact ((single []).append_left _).append_right (by simp)
  | jump id kind => exact ⟨_, rfl, jump kind⟩

theorem simpleAt_singleton (instrs : List Instr) : SimpleAt [⟨instrs, .toward next⟩] 0 :=
  ⟨_, rfl, by simp [Block.isSimple]⟩

/-- The exit of a tree does not branch. -/
theorem simpleAt_exit (e : Expr) : SimpleAt (e.layout start next targets) e.exitOffset :=
  blockAt_exit _ _ _ (by simp [Block.isSimple]) (by simp [Block.isSimple]) e

theorem simpleAt_exitAll {items : List Expr} (nonempty : items ≠ []) :
    SimpleAt (layoutAll start next targets items) (exitOffsetAll items) :=
  blockAt_exitAll_of _ _ _ nonempty fun item _ start => simpleAt_exit start next targets item

theorem exitOffset_lt (e : Expr) : e.exitOffset < e.blockCount := by
  have inside := (simpleAt_exit 0 none noTargets e).lt_length
  rwa [length_layout] at inside

/-- With nowhere to go on at, control ends at the exit. -/
theorem edge_exit_none (e : Expr) :
    BlockAt (fun block => block.edge = .none) (e.layout start none noTargets) e.exitOffset :=
  blockAt_exit _ _ _ (by simp [Edge.toward]) (by simp [Edge.toward, noTargets]) e

end

section

variable (start : Nat) (next : Option BlockId) (targets : LoopJump → Option BlockId)

/-! ## Going on behind a tree -/

theorem layoutAll_some_of {items : List Expr} (nonempty : items ≠ []) (target : BlockId)
    (ih : ∀ item ∈ items, ∀ start,
      item.layout start (some target) noTargets =
        (item.layout start none noTargets).modify item.exitOffset (Block.redirect target)) :
    layoutAll start (some target) noTargets items =
      (layoutAll start none noTargets items).modify (exitOffsetAll items)
        (Block.redirect target) := by
  induction items generalizing start with
  | nil => exact absurd rfl nonempty
  | cons item rest ihRest =>
      cases rest with
      | nil => exact ih item (by simp) start
      | cons second rest =>
          rw [layoutAll_cons_cons, layoutAll_cons_cons, exitOffsetAll_cons_cons,
            modify_append_right _ _ (by simp), length_layout, Nat.add_sub_cancel_left,
            ihRest _ (by simp) fun item m => ih item (by simp [m])]

/-- Redirecting the exit makes control go on at another place behind a tree. -/
theorem layout_some (e : Expr) (target : BlockId) :
    e.layout start (some target) noTargets =
      (e.layout start none noTargets).modify e.exitOffset (Block.redirect target) := by
  induction e using inductionOnRole generalizing start with
  | instr e instr own ih =>
      rw [layout_of_ownInstr _ _ _ own, layout_of_ownInstr _ _ _ own, exitOffset_of_ownInstr own,
        modify_append_right _ _ (by simp)]
      simp
  | seq id items ih =>
      cases items with
      | nil => rfl
      | cons item rest =>
          exact layoutAll_some_of _ (by simp) target fun item m start => ih item m start
  | loop id cond body =>
      simp only [layout, exitOffset, List.append_assoc]
      rw [← List.append_assoc, ← List.append_assoc, modify_append_right _ _ (by simp)]
      simp
  | jump id kind => rfl

theorem layoutAll_some {items : List Expr} (nonempty : items ≠ []) (target : BlockId) :
    layoutAll start (some target) noTargets items =
      (layoutAll start none noTargets items).modify (exitOffsetAll items)
        (Block.redirect target) :=
  layoutAll_some_of _ nonempty target fun item _ start => layout_some start item target

end

end Expr

/-! ## Several blocks at once -/

/-- The blocks with `target` as the successor of each anchor. They are numbered from `start`. -/
def redirectAll (start : Nat) (anchors : List BlockId) (target : BlockId) (blocks : List Block) :
    List Block :=
  anchors.foldl (fun blocks a => blocks.modify (a.index - start) (Block.redirect target)) blocks

/-- Each anchor is one of the blocks, and does not branch. -/
def AnchorsIn (start : Nat) (anchors : List BlockId) (blocks : List Block) : Prop :=
  ∀ a ∈ anchors, start ≤ a.index ∧ SimpleAt blocks (a.index - start)

section

variable {start : Nat} {anchors more : List BlockId} {blocks front rest : List Block}
  (target : BlockId)

@[simp] theorem length_redirectAll :
    (redirectAll start anchors target blocks).length = blocks.length := by
  induction anchors generalizing blocks with
  | nil => rfl
  | cons a anchors ih =>
      change (redirectAll start anchors target _).length = _
      rw [ih, List.length_modify]

theorem AnchorsIn.redirect (h : AnchorsIn start anchors blocks) (j : Nat) :
    AnchorsIn start anchors (blocks.modify j (Block.redirect target)) := by
  intro a m
  have ha := h a m
  exact ⟨ha.1, ha.2.redirect j target⟩

theorem AnchorsIn.redirectAll (h : AnchorsIn start anchors blocks) :
    AnchorsIn start anchors (redirectAll start more target blocks) := by
  induction more generalizing blocks with
  | nil => exact h
  | cons b more ih => exact ih (h.redirect target _)

theorem AnchorsIn.append_left (h : AnchorsIn start anchors front) :
    AnchorsIn start anchors (front ++ rest) := by
  intro a m
  have ha := h a m
  exact ⟨ha.1, ha.2.append_left rest⟩

theorem AnchorsIn.append_right (h : AnchorsIn (start + front.length) anchors rest) :
    AnchorsIn start anchors (front ++ rest) := by
  intro a m
  have ha := h a m
  refine ⟨by omega, ?_⟩
  have offset : a.index - start = front.length + (a.index - (start + front.length)) := by omega
  rw [offset]
  exact ha.2.append_right rfl

theorem AnchorsIn.append (h : AnchorsIn start anchors front)
    (h' : AnchorsIn (start + front.length) more rest) :
    AnchorsIn start (anchors ++ more) (front ++ rest) := by
  intro a m
  rcases List.mem_append.mp m with m | m
  · exact h.append_left a m
  · exact h'.append_right a m

theorem redirectAll_append_left (h : AnchorsIn start anchors front) :
    redirectAll start anchors target (front ++ rest) =
      redirectAll start anchors target front ++ rest := by
  induction anchors generalizing front with
  | nil => rfl
  | cons a anchors ih =>
      have ha := h a (by simp)
      have others : AnchorsIn start anchors front := fun b m => h b (by simp [m])
      change redirectAll start anchors target ((front ++ rest).modify _ _) = _
      rw [modify_append_left _ _ ha.2.lt_length, ih (others.redirect target _)]
      rfl

theorem redirectAll_append_right (h : AnchorsIn (start + front.length) anchors rest) :
    redirectAll start anchors target (front ++ rest) =
      front ++ redirectAll (start + front.length) anchors target rest := by
  induction anchors generalizing rest with
  | nil => rfl
  | cons a anchors ih =>
      have ha := h a (by simp)
      have others : AnchorsIn (start + front.length) anchors rest := fun b m => h b (by simp [m])
      change redirectAll start anchors target ((front ++ rest).modify _ _) = _
      rw [modify_append_right _ _ (by omega : front.length ≤ a.index - start), Nat.sub_sub,
        ih (others.redirect target _)]
      rfl

/-- Anchors of two parts are redirected part by part. -/
theorem redirectAll_append (h : AnchorsIn start anchors front)
    (h' : AnchorsIn (start + front.length) more rest) :
    redirectAll start (anchors ++ more) target (front ++ rest) =
      redirectAll start anchors target front ++
        redirectAll (start + front.length) more target rest := by
  have split : redirectAll start (anchors ++ more) target (front ++ rest) =
      redirectAll start more target (redirectAll start anchors target (front ++ rest)) :=
    List.foldl_append
  rw [split, redirectAll_append_left _ h, redirectAll_append_right _ (by simpa using h'),
    length_redirectAll]

end

namespace Expr

/-! ## Jumps out of a tree -/

/-- The blocks of the jumps of one kind. -/
def anchorsOf (kind : LoopJump) (anchors : List (LoopJump × BlockId)) : List BlockId :=
  anchors.filterMap fun anchor => if anchor.1 = kind then some anchor.2 else none

@[simp] theorem anchorsOf_nil (kind : LoopJump) : anchorsOf kind [] = [] :=
  rfl

@[simp] theorem anchorsOf_append (kind : LoopJump) (anchors more : List (LoopJump × BlockId)) :
    anchorsOf kind (anchors ++ more) = anchorsOf kind anchors ++ anchorsOf kind more :=
  List.filterMap_append

section

variable (kind : LoopJump) (start : Nat) (next : Option BlockId)
  (targets : LoopJump → Option BlockId)

theorem anchorsIn_layoutAll {items : List Expr}
    (room : start + blockCountAll items ≤ UInt32.size)
    (ih : ∀ item ∈ items, ∀ start next, start + item.blockCount ≤ UInt32.size →
      AnchorsIn start (anchorsOf kind (item.anchors start)) (item.layout start next targets)) :
    AnchorsIn start (anchorsOf kind (anchorsAll start items))
      (layoutAll start next targets items) := by
  induction items generalizing start with
  | nil => intro a m; cases m
  | cons item rest ihRest =>
      simp only [blockCountAll_cons] at room
      have first := fun next => ih item (by simp) start next (by omega)
      have others := ihRest (start + item.blockCount) (by omega) fun item m => ih item (by simp [m])
      rw [anchorsAll, anchorsOf_append]
      cases rest with
      | nil =>
          rw [layoutAll, anchorsAll, anchorsOf_nil, List.append_nil]
          exact first next
      | cons second rest =>
          rw [layoutAll_cons_cons]
          exact (first _).append (by rwa [length_layout])

/-- The jumps out of a tree lie among its blocks. -/
theorem anchorsIn_layout (e : Expr) (room : start + e.blockCount ≤ UInt32.size) :
    AnchorsIn start (anchorsOf kind (e.anchors start)) (e.layout start next targets) := by
  induction e using inductionOnRole generalizing start next targets with
  | instr e instr own ih =>
      rw [blockCount_of_ownInstr own] at room
      rw [layout_of_ownInstr _ _ _ own, anchors_of_ownInstr _ own]
      apply AnchorsIn.append_left
      exact anchorsIn_layoutAll _ _ _ _ (by omega) fun item m start next =>
        ih item m start next targets
  | seq id items ih =>
      cases items with
      | nil => intro a m; cases m
      | cons item rest =>
          rw [blockCount_seq_cons] at room
          exact anchorsIn_layoutAll _ _ _ _ room fun item m start next =>
            ih item m start next targets
  | loop id cond body => intro a m; cases m
  | jump id jump =>
      intro a m
      rw [blockCount_jump] at room
      have here : (BlockId.ofIndex start).index = start := BlockId.index_ofIndex (by omega)
      by_cases same : jump = kind
      · simp only [anchors, anchorsOf, List.filterMap_cons, same, if_true, List.filterMap_nil,
          List.mem_singleton] at m
        rw [m, here, Nat.sub_self]
        exact ⟨le_rfl, simpleAt_singleton _ []⟩
      · simp [anchors, anchorsOf, same] at m

theorem redirectAll_layoutAll {items : List Expr} (target : BlockId)
    (room : start + blockCountAll items ≤ UInt32.size)
    (ih : ∀ item ∈ items, ∀ start next, start + item.blockCount ≤ UInt32.size →
      redirectAll start (anchorsOf kind (item.anchors start)) target
          (item.layout start next targets) =
        item.layout start next (Function.update targets kind (some target))) :
    redirectAll start (anchorsOf kind (anchorsAll start items)) target
        (layoutAll start next targets items) =
      layoutAll start next (Function.update targets kind (some target)) items := by
  induction items generalizing start with
  | nil => rfl
  | cons item rest ihRest =>
      simp only [blockCountAll_cons] at room
      have first := fun next => ih item (by simp) start next (by omega)
      have others := ihRest (start + item.blockCount) (by omega) fun item m => ih item (by simp [m])
      rw [anchorsAll, anchorsOf_append]
      cases rest with
      | nil =>
          rw [layoutAll, layoutAll, anchorsAll, anchorsOf_nil, List.append_nil]
          exact first next
      | cons second rest =>
          rw [layoutAll_cons_cons, layoutAll_cons_cons, redirectAll_append, length_layout, first,
            others]
          · exact anchorsIn_layout _ _ _ _ _ (by omega)
          · rw [length_layout]
            exact anchorsIn_layoutAll _ _ _ _ (by omega) fun item _ start next =>
              anchorsIn_layout kind start next targets item

/-- Redirecting the jumps of one kind gives that kind its target, which it takes in place of
whatever else the jumps went on at. -/
theorem redirectAll_layout (e : Expr) (target : BlockId)
    (room : start + e.blockCount ≤ UInt32.size) :
    redirectAll start (anchorsOf kind (e.anchors start)) target (e.layout start next targets) =
      e.layout start next (Function.update targets kind (some target)) := by
  induction e using inductionOnRole generalizing start next targets with
  | instr e instr own ih =>
      rw [blockCount_of_ownInstr own] at room
      rw [layout_of_ownInstr _ _ _ own, layout_of_ownInstr _ _ _ own, anchors_of_ownInstr _ own,
        redirectAll_append_left, redirectAll_layoutAll _ _ _ _ _ (by omega)
          fun item m start next => ih item m start next targets]
      exact anchorsIn_layoutAll _ _ _ _ (by omega) fun item _ start next =>
        anchorsIn_layout kind start next targets item
  | seq id items ih =>
      cases items with
      | nil => rfl
      | cons item rest =>
          rw [blockCount_seq_cons] at room
          exact redirectAll_layoutAll _ _ _ _ _ room fun item m start next =>
            ih item m start next targets
  | loop id cond body => rfl
  | jump id jump =>
      rw [blockCount_jump] at room
      have here : (BlockId.ofIndex start).index = start := BlockId.index_ofIndex (by omega)
      by_cases same : jump = kind
      · simp [anchors, anchorsOf, same, redirectAll, here, layout]
      · simp [anchors, anchorsOf, same, redirectAll, layout]

end

theorem loopTargets_eq (entry exit : Nat) :
    Function.update (Function.update noTargets .exit (some (.ofIndex exit))) .reenter
      (some (.ofIndex entry)) = loopTargets entry exit := by
  funext kind
  cases kind <;> rfl

end Expr

end Flowgraph
