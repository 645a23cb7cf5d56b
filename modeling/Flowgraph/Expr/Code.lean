import Flowgraph.Expr.Postorder

/-! The instructions of a tree, block by block. The blocks of a node come behind those of its
operands, and a block without instructions counts as well. -/

namespace Flowgraph.Expr

/-- Whether the node is a sequence without items, for which an empty block has to stand. -/
def isIdle : Expr → Bool
  | .seq _ [] => true
  | _ => false

/-- The instructions of the blocks that a node has besides those of its operands. -/
def ownCode : Expr → List (List Instr)
  | .seq _ [] | .jump .. => [[]]
  | .seq _ (_ :: _) => []
  | .loop .. => [[], []]
  | e => [e.ownInstr.toList]

def code (e : Expr) : List (List Instr) :=
  e.postorder.flatMap ownCode

/-! ## Elementary laws -/

variable {e : Expr} {instr : Instr}

theorem ownCode_of_ownInstr (own : e.ownInstr = some instr) : e.ownCode = [[instr]] := by
  cases e <;> simp_all [ownInstr, ownCode]

theorem origin_of_ownInstr (own : e.ownInstr = some instr) : instr.origin = e.id := by
  cases e <;> cases own <;> rfl

theorem code_eq (e : Expr) : e.code = e.children.flatMap code ++ e.ownCode := by
  rw [code, postorder_eq, List.flatMap_append, List.flatMap_assoc, List.flatMap_singleton]
  rfl

theorem flatten_ownCode (e : Expr) : e.ownCode.flatten = e.ownInstr.toList := by
  rcases e with _ | _ | ⟨id, _ | _⟩ | _ | _ | _ | _ | _ | _ | _ | _ <;> rfl

theorem flatten_code (e : Expr) : e.code.flatten = e.instrs := by
  rw [code, instrs]
  induction e.postorder with
  | nil => rfl
  | cons node rest ih =>
      rw [List.flatMap_cons, List.flatten_append, ih, flatten_ownCode, List.filterMap_cons]
      cases node.ownInstr <;> rfl

theorem flatten_flatMap_code (items : List Expr) :
    (items.flatMap code).flatten = items.flatMap instrs := by
  induction items with
  | nil => rfl
  | cons item rest ih =>
      rw [List.flatMap_cons, List.flatten_append, flatten_code, ih, List.flatMap_cons]

theorem length_ownCode (e : Expr) :
    e.ownCode.length = (if e.ownsBlock then 1 else 0) + 2 * (if e.isLoop then 1 else 0) := by
  rcases e with _ | _ | ⟨id, _ | _⟩ | _ | _ | _ | _ | _ | _ | _ | _ <;> rfl

theorem length_flatMap_ownCode (nodes : List Expr) :
    (nodes.flatMap ownCode).length = nodes.countP ownsBlock + 2 * nodes.countP isLoop := by
  induction nodes with
  | nil => rfl
  | cons node rest ih =>
      rw [List.flatMap_cons, List.length_append, ih, length_ownCode, List.countP_cons,
        List.countP_cons]
      omega

/-- There are as many entries as blocks. -/
theorem length_code (e : Expr) : e.code.length = e.blockCount :=
  length_flatMap_ownCode e.postorder

theorem countP_ownsBlock (nodes : List Expr) :
    nodes.countP ownsBlock =
      (nodes.filterMap ownInstr).length + nodes.countP isJump + nodes.countP isIdle := by
  induction nodes with
  | nil => rfl
  | cons node rest ih =>
      rw [List.length_filterMap_eq_countP] at ih ⊢
      simp only [List.countP_cons, ih]
      rcases node with _ | _ | ⟨id, _ | _⟩ | _ | _ | _ | _ | _ | _ | _ | _ <;>
        simp only [ownsBlock, ownInstr, isJump, isIdle] <;> simp <;> omega

theorem length_flatMap_code (items : List Expr) :
    (items.flatMap code).length = blockCountAll items := by
  induction items with
  | nil => rfl
  | cons item rest ih =>
      rw [List.flatMap_cons, List.length_append, length_code, ih, blockCountAll_cons]

/-- What the blocks are for, one by one. -/
theorem blockCount_eq_add (e : Expr) :
    e.blockCount = e.instrs.length + e.postorder.countP isJump + e.postorder.countP isIdle +
      2 * e.loopCount := by
  rw [blockCount, countP_ownsBlock, instrs]

end Flowgraph.Expr
