import Flowgraph.Proofs.Lowering.Wiring

/-! # The jumps that leave a tree

Each jump that leaves a tree is an empty block of the tree's layout, of the jump's kind. The blocks
lie in the order of the jumps, so no two jumps share one. -/

namespace Flowgraph.Expr

section

variable (start : Nat) {e : Expr} {items : List Expr} {kind : LoopJump} {anchor : BlockId}

/-! ## Places -/

variable (next : Option BlockId) (targets : LoopJump → Option BlockId)

/-- The anchor is an empty block of the list, which goes where its jump goes. -/
def JumpBlockAt (start : Nat) (targets : LoopJump → Option BlockId) (kind : LoopJump)
    (anchor : BlockId) (blocks : List Block) : Prop :=
  ∃ i next, anchor = .ofIndex (start + i) ∧
    blocks[i]? = some ⟨[], .toward ((targets kind).or next)⟩

section

variable {start targets} {front rest : List Block}

theorem JumpBlockAt.append_left (h : JumpBlockAt start targets kind anchor front) :
    JumpBlockAt start targets kind anchor (front ++ rest) := by
  obtain ⟨i, next, rfl, found⟩ := h
  have inside := (List.getElem?_eq_some_iff.mp found).1
  exact ⟨i, next, rfl, by rw [List.getElem?_append_left inside, found]⟩

theorem JumpBlockAt.append_right
    (h : JumpBlockAt (start + front.length) targets kind anchor rest) :
    JumpBlockAt start targets kind anchor (front ++ rest) := by
  obtain ⟨i, next, rfl, found⟩ := h
  refine ⟨front.length + i, next, by rw [Nat.add_assoc], ?_⟩
  rw [List.getElem?_append_right (by omega), Nat.add_sub_cancel_left, found]

end

theorem jumpBlockAt_layoutAll_of
    (ih : ∀ item ∈ items, ∀ start next, (kind, anchor) ∈ item.anchors start →
      JumpBlockAt start targets kind anchor (item.layout start next targets))
    (m : (kind, anchor) ∈ anchorsAll start items) :
    JumpBlockAt start targets kind anchor (layoutAll start next targets items) := by
  induction items generalizing start with
  | nil => cases m
  | cons item rest ihRest =>
      have first := fun next => ih item (by simp) start next
      have others := ihRest (start + item.blockCount) fun item m => ih item (by simp [m])
      rcases List.mem_append.mp m with here | there
      · cases rest with
        | nil => exact first next here
        | cons second rest =>
            rw [layoutAll_cons_cons]
            exact (first _ here).append_left
      · cases rest with
        | nil => cases there
        | cons second rest =>
            rw [layoutAll_cons_cons]
            apply JumpBlockAt.append_right
            rw [length_layout]
            exact others there

theorem jumpBlockAt_layout (e : Expr) (m : (kind, anchor) ∈ e.anchors start) :
    JumpBlockAt start targets kind anchor (e.layout start next targets) := by
  induction e using inductionOnRole generalizing start next with
  | instr e instr own ih =>
      rw [anchors_of_ownInstr _ own] at m
      rw [layout_of_ownInstr _ _ _ own]
      apply JumpBlockAt.append_left
      exact jumpBlockAt_layoutAll_of start _ targets
        (fun item m start next => ih item m start next) m
  | seq id items ih =>
      cases items with
      | nil => cases m
      | cons item rest =>
          exact jumpBlockAt_layoutAll_of start next targets
            (fun item m start next => ih item m start next) m
  | loop id cond body => cases m
  | jump id jump =>
      cases List.mem_singleton.mp m
      exact ⟨0, next, rfl, rfl⟩

/-! ## Order -/

theorem index_anchor {e : Expr} {anchor : LoopJump × BlockId} (m : anchor ∈ e.anchors start)
    (room : start + e.blockCount ≤ UInt32.size) :
    start ≤ anchor.2.index ∧ anchor.2.index < start + e.blockCount := by
  obtain ⟨i, next, same, found⟩ := jumpBlockAt_layout start none noTargets e m
  have inside := (List.getElem?_eq_some_iff.mp found).1
  rw [length_layout] at inside
  rw [same, BlockId.index_ofIndex (by omega)]
  omega

theorem index_anchorAll {anchor : LoopJump × BlockId} (m : anchor ∈ anchorsAll start items)
    (room : start + blockCountAll items ≤ UInt32.size) :
    start ≤ anchor.2.index ∧ anchor.2.index < start + blockCountAll items := by
  obtain ⟨i, next, same, found⟩ := jumpBlockAt_layoutAll_of start none noTargets
    (fun item _ start next => jumpBlockAt_layout start next noTargets item) m
  have inside := (List.getElem?_eq_some_iff.mp found).1
  rw [length_layoutAll] at inside
  rw [same, BlockId.index_ofIndex (by omega)]
  omega

/-- Anchors lie in order. -/
def Ascending (anchors : List (LoopJump × BlockId)) : Prop :=
  anchors.Pairwise fun a b => a.2.index < b.2.index

theorem ascending_anchorsAll_of
    (ih : ∀ item ∈ items, ∀ start, start + item.blockCount ≤ UInt32.size →
      Ascending (item.anchors start))
    (room : start + blockCountAll items ≤ UInt32.size) : Ascending (anchorsAll start items) := by
  induction items generalizing start with
  | nil => exact .nil
  | cons item rest ihRest =>
      rw [blockCountAll_cons] at room
      have others := ihRest (start + item.blockCount) (fun item m => ih item (by simp [m]))
        (by omega)
      refine List.pairwise_append.mpr ⟨ih item (by simp) start (by omega), others, ?_⟩
      intro a ma b mb
      have before := index_anchor start ma (by omega)
      have behind := index_anchorAll _ mb (by omega)
      omega

theorem ascending_anchors (e : Expr) (room : start + e.blockCount ≤ UInt32.size) :
    Ascending (e.anchors start) := by
  induction e using inductionOnRole generalizing start with
  | instr e instr own ih =>
      rw [blockCount_of_ownInstr own] at room
      rw [anchors_of_ownInstr _ own]
      exact ascending_anchorsAll_of start (fun item m start => ih item m start) (by omega)
  | seq id items ih =>
      cases items with
      | nil => exact .nil
      | cons item rest =>
          rw [blockCount_seq_cons] at room
          exact ascending_anchorsAll_of start (fun item m start => ih item m start) room
  | loop id cond body => exact .nil
  | jump id kind => exact List.pairwise_singleton _ _

end

end Flowgraph.Expr
