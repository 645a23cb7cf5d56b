import Flowgraph.Expr.Operands
import Flowgraph.Machine.Heights
import Flowgraph.Proofs.Lowering.Closed

/-! # The height of the operand stack at each block of a tree

Types say how many values a tree leaves, so the height at which each of its blocks starts can be
written down beside the layout. Where all nodes keep to their types and no jump abandons an index,
each block runs from its height and each edge arrives at the height of its target. -/

namespace Flowgraph

/-! ## Heights that agree -/

section

variable (floor : Nat) (level : BlockId → Nat) (last : Nat)

/-- The edge takes a height to the ones its targets have, and to `last` where control ends. -/
def Edge.Fits (height : Nat) : Edge → Prop
  | .none => height = last
  | .jump target => level target = height
  | .branch onTrue onFalse => ∀ answer, (Machine.heights floor).test answer height =
      some (level (bif answer then onTrue else onFalse))

/-- The block runs from a height, without taking anything from below the floor, to one that its edge
fits. -/
def Block.Fits (height : Nat) (block : Block) : Prop :=
  ∃ after, (Machine.heights floor).run block.instrs height = some after ∧
    block.edge.Fits floor level last after

end

namespace Expr

/-! ## The heights of a tree -/

mutual

/-- The height at the start of each block of the layout of a tree that starts at height `h`. -/
def levels (h : Nat) : Expr → List Nat
  | .seq _ items => if items.isEmpty then [h] else levelsAll 0 h items
  | .loop _ cond body => cond.levels h ++ body.levels h ++ [h, h + 1]
  | .loadAt _ index _ => index.levels h ++ [h + 1]
  | .store _ _ value => value.levels h ++ [h + 1]
  | .storeAt _ index value => index.levels h ++ value.levels (h + 1) ++ [h + 2]
  | .jump .. | .int .. | .bytes .. | .slotNumber .. | .load .. | .storeTop .. => [h]

/-- The heights of trees one behind the other, each of which starts `step` higher than the last. -/
def levelsAll (step h : Nat) : List Expr → List Nat
  | [] => []
  | item :: rest => item.levels h ++ levelsAll step (h + step) rest

end

/-- The height behind trees that lie one behind the other. -/
def heightBehind (step h : Nat) : List Expr → Nat
  | [] => h
  | [last] => h + last.yield
  | _ :: rest => heightBehind step (h + step) rest

section

variable {e : Expr} {instr : Instr} (step h : Nat)

theorem levels_of_ownInstr (own : e.ownInstr = some instr) :
    e.levels h = levelsAll 1 h e.children ++ [h + e.children.length] := by
  cases e <;> simp_all [ownInstr, levels, levelsAll, children]

theorem length_levelsAll_of {items : List Expr}
    (length : ∀ item ∈ items, ∀ h, (item.levels h).length = item.blockCount) :
    (levelsAll step h items).length = blockCountAll items := by
  induction items generalizing h with
  | nil => rfl
  | cons item rest ih =>
      rw [levelsAll, List.length_append, length item (by simp),
        ih _ fun item m => length item (by simp [m]), blockCountAll_cons]

@[simp] theorem length_levels (e : Expr) : (e.levels h).length = e.blockCount := by
  induction e using inductionOnRole generalizing h with
  | instr e instr own ih =>
      rw [levels_of_ownInstr h own, List.length_append, blockCount_of_ownInstr own,
        length_levelsAll_of _ _ fun item m h => ih item m h]
      rfl
  | seq id items ih =>
      cases items with
      | nil => rfl
      | cons item rest =>
          rw [blockCount_seq_cons]
          exact length_levelsAll_of 0 h fun item m h => ih item m h
  | loop id cond body ihCond ihBody => simp [levels, ihCond, ihBody, Nat.add_assoc]
  | jump id kind => rfl

@[simp] theorem length_levelsAll (items : List Expr) :
    (levelsAll step h items).length = blockCountAll items :=
  length_levelsAll_of _ _ fun item _ h => length_levels h item

theorem levelsAll_append (items more : List Expr) :
    levelsAll step h (items ++ more) =
      levelsAll step h items ++ levelsAll step (h + step * items.length) more := by
  induction items generalizing h with
  | nil => rfl
  | cons item rest ih =>
      rw [List.cons_append, levelsAll, levelsAll, ih, List.append_assoc, List.length_cons,
        Nat.mul_succ, Nat.add_assoc, Nat.add_comm step]

/-- A tree starts at the height that its first block has. -/
theorem getElem?_levels_zero (e : Expr) : (e.levels h)[0]? = some h := by
  induction e using inductionOnRole generalizing h with
  | instr e instr own ih =>
      rw [levels_of_ownInstr h own]
      cases same : e.children with
      | nil => rfl
      | cons child rest =>
          have nonempty := exitOffset_lt child
          rw [levelsAll, List.append_assoc, List.getElem?_append_left (by simpa using by omega)]
          exact ih child (by simp [same]) h
  | seq id items ih =>
      cases items with
      | nil => rfl
      | cons item rest =>
          have nonempty := exitOffset_lt item
          change (item.levels h ++ _)[0]? = _
          rw [List.getElem?_append_left (by simpa using by omega)]
          exact ih item (by simp) h
  | loop id cond body ihCond ihBody =>
      have nonempty := exitOffset_lt cond
      rw [levels, List.append_assoc, List.getElem?_append_left (by simpa using by omega)]
      exact ihCond h
  | jump id kind => rfl

end

/-! ## Orderly trees -/

/-- The operands of every node fit it, and every node keeps to its type. -/
structure Orderly (e : Expr) : Prop where
  wellTyped : e.WellTyped
  plain : e.isPlain = true
  kept : e.keepsIndices = true

theorem yield_eq_one {e : Expr} (stored : e.type.producesValue = true) : e.yield = 1 := by
  simp [yield, stored]

theorem yield_eq_one_of_number {e : Expr} (number : ValueType.uint64.accepts e.type = true) :
    e.yield = 1 :=
  yield_eq_one ((ValueType.accepts_iff _ _).mp number).1.symm

theorem yield_eq_zero {e : Expr} (silent : e.type = .none) : e.yield = 0 := by
  simp [yield, silent, ValueType.producesValue]

section

variable {e child : Expr} {instr : Instr}

theorem Orderly.of_mem_children (orderly : e.Orderly) (m : child ∈ e.children) :
    child.Orderly := by
  obtain ⟨well, plain, kept⟩ := orderly
  rw [isPlain_eq, Bool.and_eq_true] at plain
  rw [keepsIndices_eq, Bool.and_eq_true] at kept
  exact ⟨well.of_mem_children m, List.all_eq_true.mp plain.1 child m,
    List.all_eq_true.mp kept.1 child m⟩

/-- An instruction takes a value from each operand of its node, unless the node takes what happens
to lie on the stack. -/
theorem pops_eq (own : e.ownInstr = some instr) (fair : e.takesTop = false) :
    instr.opcode.pops = e.children.length := by
  cases e <;> simp_all [ownInstr, takesTop, children, Opcode.pops] <;> rw [← own]

/-- It leaves what the node's type says, and a load leaves a value in any case. -/
theorem pushes_eq (own : e.ownInstr = some instr) :
    instr.opcode.pushes = e.yield + [e].countP loadsNothing := by
  cases e with
  | seq | loop | jump => cases own
  | load id slot type =>
      cases own
      cases type <;> rfl
  | loadAt id index type =>
      cases own
      cases type <;> rfl
  | _ =>
      cases own
      rfl

theorem WellTyped.yield_of_mem_children (well : e.WellTyped) (own : e.ownInstr = some instr)
    (m : child ∈ e.children) : child.yield = 1 := by
  cases well with
  | loadAt id index type well number =>
      rw [List.mem_singleton.mp m]
      exact yield_eq_one_of_number number
  | store id slot value well stored =>
      rw [List.mem_singleton.mp m]
      exact yield_eq_one stored
  | storeAt id index value wellIndex wellValue number stored =>
      simp only [children, List.mem_cons, List.not_mem_nil, or_false] at m
      rcases m with rfl | rfl
      · exact yield_eq_one_of_number number
      · exact yield_eq_one stored
  | seq | loop | jump => cases own
  | _ => cases m

theorem Orderly.fair (orderly : e.Orderly) : e.takesTop = false ∧ e.loadsNothing = false := by
  have plain := orderly.plain
  rw [isPlain_eq, Bool.and_eq_true] at plain
  simpa using plain.2

/-- No jump leaves an operand behind another one. -/
theorem Orderly.strayJumpsAll_tail (orderly : e.Orderly) (own : e.ownInstr = some instr) :
    strayJumpsAll e.children.tail = [] := by
  have kept := orderly.kept
  rw [keepsIndices_eq, Bool.and_eq_true] at kept
  cases e <;> simp_all [ownInstr, abandonsIndex, children, strayJumpsAll]

end

/-! ## Layouts fit their heights -/

/-- The blocks from `start` on have the heights. -/
def Agrees (level : BlockId → Nat) (start : Nat) (heights : List Nat) : Prop :=
  ∀ i h, heights[i]? = some h → level (.ofIndex (start + i)) = h

section

variable {level : BlockId → Nat} {start h : Nat} {front rest : List Nat}

theorem Agrees.left (agrees : Agrees level start (front ++ rest)) : Agrees level start front := by
  intro i h found
  have inside := (List.getElem?_eq_some_iff.mp found).1
  exact agrees i h (by rw [List.getElem?_append_left inside, found])

theorem Agrees.right (agrees : Agrees level start (front ++ rest)) :
    Agrees level (start + front.length) rest := by
  intro i h found
  rw [Nat.add_assoc]
  refine agrees _ h ?_
  rw [List.getElem?_append_right (by omega), Nat.add_sub_cancel_left, found]

theorem Agrees.head (agrees : Agrees level start (h :: rest)) : level (.ofIndex start) = h :=
  agrees 0 h rfl

theorem Agrees.first {e : Expr} (agrees : Agrees level start (e.levels h)) :
    level (.ofIndex start) = h :=
  agrees 0 h (getElem?_levels_zero h e)

end

/-- Where jumps have targets, they have the height. -/
def JumpsTo (level : BlockId → Nat) (targets : LoopJump → Option BlockId) (h : Nat) : Prop :=
  ∀ kind target, targets kind = some target → level target = h

/-- The layout of the tree fits the tree's heights, if what is around the tree does. -/
def FitsLevels (e : Expr) : Prop :=
  ∀ {floor last start h : Nat} {level : BlockId → Nat} {next : Option BlockId}
    {targets : LoopJump → Option BlockId}, floor ≤ h → Agrees level start (e.levels h) →
    (Edge.toward next).Fits floor level last (h + e.yield) →
    (e.strayJumps ≠ [] → JumpsTo level targets h) →
    List.Forall₂ (fun h block => block.Fits floor level last h) (e.levels h)
      (e.layout start next targets)

section

variable {floor last start h step : Nat} {level : BlockId → Nat} {next : Option BlockId}
  {targets : LoopJump → Option BlockId} {e : Expr} {items : List Expr}

theorem fits_toward {instrs : List Instr} {before after : Nat}
    (ran : (Machine.heights floor).run instrs before = some after)
    (behind : (Edge.toward next).Fits floor level last after) :
    Block.Fits floor level last before ⟨instrs, .toward next⟩ :=
  ⟨after, ran, behind⟩

/-- Items of a sequence leave nothing, so a jump may leave any of them. Operands pile up, so it may
leave only the first. -/
theorem fits_layoutAll_of (ih : ∀ item ∈ items, FitsLevels item) (above : floor ≤ h)
    (agrees : Agrees level start (levelsAll step h items))
    (behind : (Edge.toward next).Fits floor level last (heightBehind step h items))
    (yields : ∀ item ∈ items.dropLast, item.yield = step)
    (jumps : strayJumpsAll items ≠ [] → JumpsTo level targets h)
    (quiet : step = 0 ∨ strayJumpsAll items.tail = []) :
    List.Forall₂ (fun h block => block.Fits floor level last h) (levelsAll step h items)
      (layoutAll start next targets items) := by
  induction items generalizing start h with
  | nil => exact .nil
  | cons item rest ihRest =>
      rw [levelsAll] at agrees ⊢
      have jumpsItem : item.strayJumps ≠ [] → JumpsTo level targets h := fun some =>
        jumps fun none => some (List.append_eq_nil_iff.mp none).1
      cases rest with
      | nil =>
          rw [levelsAll, List.append_nil] at agrees ⊢
          exact ih item (by simp) above agrees behind jumpsItem
      | cons second rest =>
          have agreesRest := agrees.right
          rw [length_levels] at agreesRest
          have next : level (.ofIndex (start + item.blockCount)) = h + item.yield := by
            rw [yields item (by simp)]
            exact agreesRest.left.first
          have jumpsRest : strayJumpsAll (second :: rest) ≠ [] → JumpsTo level targets (h + step) :=
            fun some => by
              rcases quiet with rfl | none
              · exact jumps fun none => some (List.append_eq_nil_iff.mp none).2
              · exact absurd none some
          rw [layoutAll_cons_cons]
          apply List.rel_append
          · exact ih item (by simp) above agrees.left next jumpsItem
          · apply ihRest (fun item m => ih item (by simp [m])) (by omega) agreesRest behind
              (fun item m => yields item (by simp [m])) jumpsRest
            rcases quiet with rfl | none
            · exact .inl rfl
            · exact .inr (List.append_eq_nil_iff.mp none).2

theorem heightBehind_one (yields : ∀ item ∈ items, item.yield = 1) :
    heightBehind 1 h items = h + items.length := by
  induction items generalizing h with
  | nil => rfl
  | cons item rest ih =>
      cases rest with
      | nil => rw [heightBehind, yields item (by simp)]; rfl
      | cons second rest =>
          rw [heightBehind, ih fun item m => yields item (by simp [m])]
          · simp only [List.length_cons]
            omega
          · simp

theorem heightBehind_zero (id : ExprId) (h : Nat) (items : List Expr) :
    heightBehind 0 h items = h + (seq id items).yield := by
  induction items with
  | nil => rfl
  | cons item rest ih =>
      cases rest with
      | nil => rfl
      | cons second rest => exact ih

theorem fitsLevels_instr {instr : Instr} (orderly : e.Orderly) (own : e.ownInstr = some instr)
    (ih : ∀ child ∈ e.children, FitsLevels child) : FitsLevels e := by
  intro floor last start h level next targets above agrees behind jumps
  have yields : ∀ child ∈ e.children, child.yield = 1 := fun child m =>
    orderly.wellTyped.yield_of_mem_children own m
  have pops := pops_eq own orderly.fair.1
  have pushes : instr.opcode.pushes = e.yield := by
    rw [pushes_eq own, List.countP_singleton, orderly.fair.2]
    rfl
  rw [levels_of_ownInstr h own] at agrees ⊢
  rw [strayJumps_of_ownInstr own] at jumps
  rw [layout_of_ownInstr _ _ _ own]
  have here := agrees.right.head
  rw [length_levelsAll, ← heightBehind_one yields] at here
  apply List.rel_append
  · exact fits_layoutAll_of ih above agrees.left here
      (fun child m => yields child (List.dropLast_subset _ m)) jumps
      (.inr (orderly.strayJumpsAll_tail own))
  · apply List.Forall₂.cons _ .nil
    apply fits_toward _ behind
    have room : floor + e.children.length ≤ h + e.children.length := by omega
    simp [Machine.run, Machine.heights, heightAfter, pops, pushes, room]

theorem fitsLevels_seq {id : ExprId} (orderly : (seq id items).Orderly)
    (ih : ∀ item ∈ items, FitsLevels item) : FitsLevels (seq id items) := by
  intro floor last start h level next targets above agrees behind jumps
  cases items with
  | nil => exact .cons (fits_toward rfl behind) .nil
  | cons item rest =>
      rw [← heightBehind_zero] at behind
      cases orderly.wellTyped with
      | seq id items well silent =>
          exact fits_layoutAll_of ih above agrees behind
            (fun item m => yield_eq_zero (silent item m)) jumps (.inl rfl)

theorem fitsLevels_loop {id : ExprId} {cond body : Expr} (orderly : (loop id cond body).Orderly)
    (ihCond : FitsLevels cond) (ihBody : FitsLevels body) : FitsLevels (loop id cond body) := by
  intro floor last start h level next targets above agrees behind jumps
  have agreesOwn := agrees.right
  have agreesBody := agrees.left.right
  rw [List.length_append, length_levels, length_levels, ← Nat.add_assoc] at agreesOwn
  rw [length_levels] at agreesBody
  have atStart : level (.ofIndex start) = h := agrees.left.left.first
  have atBody : level (.ofIndex (start + cond.blockCount)) = h := agreesBody.first
  have atExit : level (.ofIndex (start + cond.blockCount + body.blockCount)) = h := agreesOwn.head
  have atBranch : level (.ofIndex (start + cond.blockCount + body.blockCount + 1)) = h + 1 :=
    agreesOwn 1 (h + 1) rfl
  -- Both targets have the height at which the loop starts, whatever jumps go to outside.
  have jumpsInside :
      JumpsTo level (loopTargets start (start + cond.blockCount + body.blockCount)) h := by
    intro kind target found
    cases kind <;> cases found
    · exact atExit
    · exact atStart
  cases orderly.wellTyped with
  | loop id cond body wellCond wellBody number silent =>
      rw [levels, layout]
      apply List.rel_append
      · apply List.rel_append
        · apply ihCond above agrees.left.left _ fun _ => jumpsInside
          rw [yield_eq_one_of_number number]
          exact atBranch
        · apply ihBody above agreesBody _ fun _ => jumpsInside
          rw [yield_eq_zero silent]
          exact atStart
      · refine .cons (fits_toward rfl behind) (.cons ⟨h + 1, rfl, ?_⟩ .nil)
        intro answer
        have room : floor + 1 ≤ h + 1 := by omega
        cases answer <;> simp [Machine.heights, heightAfter, room, atBody, atExit]

theorem fitsLevels_jump (id : ExprId) (kind : LoopJump) : FitsLevels (jump id kind) := by
  intro floor last start h level next targets above agrees behind jumps
  refine .cons ⟨h, rfl, ?_⟩ .nil
  cases found : targets kind with
  | none => exact behind
  | some target => exact jumps (by simp [strayJumps]) kind target found

theorem fitsLevels (orderly : e.Orderly) : FitsLevels e := by
  induction e using inductionOnRole with
  | instr e instr own ih =>
      exact fitsLevels_instr orderly own fun child m => ih child m (orderly.of_mem_children m)
  | seq id items ih =>
      exact fitsLevels_seq orderly fun item m => ih item m (orderly.of_mem_children m)
  | loop id cond body ihCond ihBody =>
      exact fitsLevels_loop orderly (ihCond (orderly.of_mem_children (by simp [children])))
        (ihBody (orderly.of_mem_children (by simp [children])))
  | jump id kind => exact fitsLevels_jump id kind

end

end Expr

end Flowgraph
