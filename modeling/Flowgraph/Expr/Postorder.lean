import Flowgraph.Expr
import Flowgraph.Instr

/-! What a tree is made of. The nodes are listed in the order in which they are evaluated when no
jump is taken, each behind its operands; a shared node is listed once for every place it stands in.
The counts and listings below read off this one list. -/

namespace Flowgraph.Expr

mutual

def postorder : Expr → List Expr
  | .seq id items => postorderAll items ++ [.seq id items]
  | .loop id cond body => cond.postorder ++ body.postorder ++ [.loop id cond body]
  | .loadAt id index type => index.postorder ++ [.loadAt id index type]
  | .store id slot value => value.postorder ++ [.store id slot value]
  | .storeAt id index value =>
      index.postorder ++ value.postorder ++ [.storeAt id index value]
  | .int id value => [.int id value]
  | .bytes id value => [.bytes id value]
  | .jump id kind => [.jump id kind]
  | .slotNumber id slot => [.slotNumber id slot]
  | .load id slot type => [.load id slot type]
  | .storeTop id slot => [.storeTop id slot]

def postorderAll : List Expr → List Expr
  | [] => []
  | item :: rest => item.postorder ++ postorderAll rest

end

theorem postorderAll_eq (items : List Expr) : postorderAll items = items.flatMap postorder := by
  induction items with
  | nil => rfl
  | cons item rest ih => simp [postorderAll, ih]

theorem postorder_eq (e : Expr) : e.postorder = e.children.flatMap postorder ++ [e] := by
  cases e <;> simp [postorder, children, postorderAll_eq]

theorem all_postorder (p : Expr → Bool) (e : Expr) :
    e.postorder.all p = (e.children.all (fun child => child.postorder.all p) && p e) := by
  rw [postorder_eq, List.all_append, List.all_flatMap, List.all_cons, List.all_nil, Bool.and_true]

theorem all_postorder_of_mem_children {p : Expr → Bool} {e child : Expr}
    (all : e.postorder.all p = true) (m : child ∈ e.children) : child.postorder.all p = true := by
  rw [all_postorder, Bool.and_eq_true] at all
  exact List.all_eq_true.mp all.1 child m

theorem mem_postorder_self (e : Expr) : e ∈ e.postorder := by
  rw [postorder_eq]
  exact List.mem_append_right _ (List.mem_singleton_self e)

theorem mem_postorder_of_mem_children {e child node : Expr} (m : child ∈ e.children)
    (inside : node ∈ child.postorder) : node ∈ e.postorder := by
  rw [postorder_eq]
  exact List.mem_append_left _ (List.mem_flatMap.mpr ⟨child, m, inside⟩)

/-! ## Instructions -/

/-- The instruction that a node runs behind its operands. Sequences, loops and jumps only direct
control. -/
def ownInstr : Expr → Option Instr
  | .int id value => some ⟨.int, [.uint value], id⟩
  | .bytes id value => some ⟨.byte, [.bytes value], id⟩
  | .slotNumber id slot => some ⟨.int, [.slot slot], id⟩
  | .load id slot _ => some ⟨.load, [.slot slot], id⟩
  | .loadAt id _ _ => some ⟨.loads, [], id⟩
  | .store id slot _ => some ⟨.store, [.slot slot], id⟩
  | .storeAt id _ _ => some ⟨.stores, [], id⟩
  | .storeTop id slot => some ⟨.store, [.slot slot], id⟩
  | .seq .. | .loop .. | .jump .. => none

def instrs (e : Expr) : List Instr :=
  e.postorder.filterMap ownInstr

theorem instrs_eq (e : Expr) : e.instrs = e.children.flatMap instrs ++ e.ownInstr.toList := by
  rw [instrs, postorder_eq, List.filterMap_append, List.filterMap_flatMap]
  cases own : e.ownInstr <;> simp [own] <;> rfl

/-- Induction on trees by what a node is for: an instruction behind its operands, or one of the
three ways to direct control. -/
@[elab_as_elim]
theorem inductionOnRole {motive : Expr → Prop}
    (instr : ∀ e instr, e.ownInstr = some instr → (∀ child ∈ e.children, motive child) → motive e)
    (seq : ∀ id items, (∀ item ∈ items, motive item) → motive (.seq id items))
    (loop : ∀ id cond body, motive cond → motive body → motive (.loop id cond body))
    (jump : ∀ id kind, motive (.jump id kind)) (e : Expr) : motive e := by
  induction e with
  | seq id items ih => exact seq id items ih
  | loop id cond body ihCond ihBody => exact loop id cond body ihCond ihBody
  | jump id kind => exact jump id kind
  | loadAt id index type ih => exact instr _ _ rfl (by simpa [children] using ih)
  | store id slot value ih => exact instr _ _ rfl (by simpa [children] using ih)
  | storeAt id index value ihIndex ihValue =>
      exact instr _ _ rfl (by simpa [children] using ⟨ihIndex, ihValue⟩)
  | _ => exact instr _ _ rfl (by simp [children])

/-- The slot that a node names without evaluating anything. -/
def ownSlot : Expr → Option Slot
  | .slotNumber _ slot | .load _ slot _ | .store _ slot _ | .storeTop _ slot => some slot
  | _ => none

def slots (e : Expr) : List Slot :=
  e.postorder.filterMap ownSlot

/-! ## Blocks -/

def isLoop : Expr → Bool
  | .loop .. => true
  | _ => false

def loopCount (e : Expr) : Nat :=
  e.postorder.countP isLoop

/-- The nodes that are lowered to a block of their own. A loop has two and is counted apart; a
sequence has one only where there is nothing else to stand for it. -/
def ownsBlock : Expr → Bool
  | .seq _ (_ :: _) | .loop .. => false
  | _ => true

/-- The number of blocks of a tree: one for every instruction, jump and empty sequence, and the exit
and the branch of every loop. -/
def blockCount (e : Expr) : Nat :=
  e.postorder.countP ownsBlock + 2 * e.loopCount

/-- The number of blocks of trees that lie one behind the other. -/
def blockCountAll : List Expr → Nat
  | [] => 0
  | item :: rest => item.blockCount + blockCountAll rest

@[simp] theorem blockCountAll_nil : blockCountAll [] = 0 := rfl

@[simp] theorem blockCountAll_cons (item : Expr) (rest : List Expr) :
    blockCountAll (item :: rest) = item.blockCount + blockCountAll rest := rfl

@[simp] theorem blockCountAll_append (items more : List Expr) :
    blockCountAll (items ++ more) = blockCountAll items + blockCountAll more := by
  induction items with
  | nil => simp
  | cons item rest ih => simp [ih, Nat.add_assoc]

theorem blockCountAll_eq (items : List Expr) :
    blockCountAll items = (items.flatMap postorder).countP ownsBlock +
      2 * (items.flatMap postorder).countP isLoop := by
  induction items with
  | nil => rfl
  | cons item rest ih =>
      simp only [blockCountAll_cons, ih, blockCount, loopCount, List.flatMap_cons,
        List.countP_append]
      omega

theorem blockCount_eq (e : Expr) :
    e.blockCount = blockCountAll e.children + [e].countP ownsBlock + 2 * [e].countP isLoop := by
  rw [blockCount, loopCount, postorder_eq, blockCountAll_eq, List.countP_append,
    List.countP_append]
  omega

@[simp] theorem blockCount_seq_cons (id : ExprId) (item : Expr) (rest : List Expr) :
    (seq id (item :: rest)).blockCount = blockCountAll (item :: rest) := by
  simp [blockCount_eq (seq id (item :: rest)), children, ownsBlock, isLoop]

@[simp] theorem blockCount_loop (id : ExprId) (cond body : Expr) :
    (loop id cond body).blockCount = cond.blockCount + body.blockCount + 2 := by
  simp [blockCount_eq (loop id cond body), children, ownsBlock, isLoop]

@[simp] theorem blockCount_jump (id : ExprId) (kind : LoopJump) : (jump id kind).blockCount = 1 :=
  rfl

theorem blockCount_of_ownInstr {e : Expr} {instr : Instr} (own : e.ownInstr = some instr) :
    e.blockCount = blockCountAll e.children + 1 := by
  rw [blockCount_eq]
  cases e <;> simp_all [ownInstr, ownsBlock, isLoop]

/-! ## Jumps -/

def isJump : Expr → Bool
  | .jump .. => true
  | _ => false

/-- Whether control runs through the tree once, from its start to its end. -/
def isStraight (e : Expr) : Bool :=
  e.postorder.all fun node => !node.isLoop && !node.isJump

/-- Whether there is no jump in the tree, be it one that leaves the tree or not. -/
def isJumpless (e : Expr) : Bool :=
  e.postorder.all fun node => !node.isJump

mutual

/-- The jumps that leave the tree: those that stand in no loop of it. -/
def strayJumps : Expr → List (LoopJump × ExprId)
  | .jump id kind => [(kind, id)]
  | .seq _ items => strayJumpsAll items
  | .loadAt _ index _ => index.strayJumps
  | .store _ _ value => value.strayJumps
  | .storeAt _ index value => index.strayJumps ++ value.strayJumps
  | .loop .. | .int .. | .bytes .. | .slotNumber .. | .load .. | .storeTop .. => []

def strayJumpsAll : List Expr → List (LoopJump × ExprId)
  | [] => []
  | item :: rest => item.strayJumps ++ strayJumpsAll rest

end

theorem strayJumpsAll_eq (items : List Expr) :
    strayJumpsAll items = items.flatMap strayJumps := by
  induction items with
  | nil => rfl
  | cons item rest ih => simp [strayJumpsAll, ih]

theorem isStraight_eq (e : Expr) :
    e.isStraight = (e.children.all isStraight && (!e.isLoop && !e.isJump)) :=
  all_postorder _ e

theorem isStraight_of_mem_children {e child : Expr} (straight : e.isStraight = true)
    (m : child ∈ e.children) : child.isStraight = true :=
  all_postorder_of_mem_children straight m

theorem isJumpless_of_mem_children {e child : Expr} (jumpless : e.isJumpless = true)
    (m : child ∈ e.children) : child.isJumpless = true :=
  all_postorder_of_mem_children jumpless m

theorem isJumpless_of_isStraight {e : Expr} (straight : e.isStraight = true) :
    e.isJumpless = true := by
  rw [isStraight, List.all_eq_true] at straight
  rw [isJumpless, List.all_eq_true]
  exact fun node m => (Bool.and_eq_true_iff.mp (straight node m)).2

/-- Induction on straight trees, in which all nodes but sequences have an instruction. -/
@[elab_as_elim]
theorem inductionOnStraight {motive : (e : Expr) → e.isStraight = true → Prop}
    (instr : ∀ e instr straight, e.ownInstr = some instr →
      (∀ child m, motive child (isStraight_of_mem_children straight m)) → motive e straight)
    (seq : ∀ id items straight,
      (∀ item m, motive item (isStraight_of_mem_children straight m)) →
        motive (.seq id items) straight)
    (e : Expr) (straight : e.isStraight = true) : motive e straight := by
  induction e using inductionOnRole with
  | instr e i own ih => exact instr e i straight own fun child m => ih child m _
  | seq id items ih => exact seq id items straight fun item m => ih item m _
  | loop id cond body => simp [isStraight_eq, isLoop] at straight
  | jump id kind => simp [isStraight_eq, isJump] at straight

theorem strayJumps_of_ownInstr {e : Expr} {instr : Instr} (own : e.ownInstr = some instr) :
    e.strayJumps = strayJumpsAll e.children := by
  cases e <;> simp_all [ownInstr, strayJumps, strayJumpsAll, children]

theorem strayJumps_of_isJumpless {e : Expr} (jumpless : e.isJumpless = true) :
    e.strayJumps = [] := by
  induction e using inductionOnRole with
  | instr e instr own ih =>
      rw [strayJumps_of_ownInstr own, strayJumpsAll_eq, List.flatMap_eq_nil_iff]
      exact fun child m => ih child m (isJumpless_of_mem_children jumpless m)
  | seq id items ih =>
      rw [strayJumps, strayJumpsAll_eq, List.flatMap_eq_nil_iff]
      exact fun item m => ih item m (isJumpless_of_mem_children jumpless m)
  | loop id cond body => rfl
  | jump id kind => cases jumpless

end Flowgraph.Expr
