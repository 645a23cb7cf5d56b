import Flowgraph.ValueType
import Flowgraph.Id
import Flowgraph.LoopJump
import Flowgraph.Slot

/-! Expression trees. Every node has the identity under which its arena holds it; a tree in which
one identity occurs twice stands for two evaluations of one shared expression. -/

namespace Flowgraph

inductive Expr where
  | int (id : ExprId) (value : UInt64)
  | bytes (id : ExprId) (value : List UInt8)
  /-- The items in order; the value is the last item's. -/
  | seq (id : ExprId) (items : List Expr)
  /-- `body` again and again, as long as `cond` is not zero. -/
  | loop (id : ExprId) (cond body : Expr)
  | jump (id : ExprId) (kind : LoopJump)
  /-- The number of a slot, as a value to address slots with. -/
  | slotNumber (id : ExprId) (slot : Slot)
  | load (id : ExprId) (slot : Slot) (type : ValueType)
  /-- The contents of the slot that `index` evaluates to. -/
  | loadAt (id : ExprId) (index : Expr) (type : ValueType)
  | store (id : ExprId) (slot : Slot) (value : Expr)
  | storeAt (id : ExprId) (index value : Expr)
  /-- Stores what happens to lie on top of the operand stack. -/
  | storeTop (id : ExprId) (slot : Slot)

namespace Expr

/-- Induction on trees, with a hypothesis for every item of a sequence. -/
@[elab_as_elim, induction_eliminator]
theorem inductionOn {motive : Expr → Prop}
    (int : ∀ id value, motive (.int id value))
    (bytes : ∀ id value, motive (.bytes id value))
    (seq : ∀ id items, (∀ item ∈ items, motive item) → motive (.seq id items))
    (loop : ∀ id cond body, motive cond → motive body → motive (.loop id cond body))
    (jump : ∀ id kind, motive (.jump id kind))
    (slotNumber : ∀ id slot, motive (.slotNumber id slot))
    (load : ∀ id slot type, motive (.load id slot type))
    (loadAt : ∀ id index type, motive index → motive (.loadAt id index type))
    (store : ∀ id slot value, motive value → motive (.store id slot value))
    (storeAt : ∀ id index value, motive index → motive value → motive (.storeAt id index value))
    (storeTop : ∀ id slot, motive (.storeTop id slot))
    (e : Expr) : motive e :=
  Expr.rec (motive_1 := motive) (motive_2 := fun items => ∀ item ∈ items, motive item)
    int bytes (fun id items h => seq id items h) (fun id c b hc hb => loop id c b hc hb) jump
    slotNumber load (fun id i t h => loadAt id i t h) (fun id s v h => store id s v h)
    (fun id i v hi hv => storeAt id i v hi hv) storeTop
    (by simp) (fun head tail h t item m => by
      rcases List.mem_cons.mp m with rfl | m
      · exact h
      · exact t item m) e

def id : Expr → ExprId
  | int id _ | bytes id _ | seq id _ | loop id _ _ | jump id _ | slotNumber id _
  | load id _ _ | loadAt id _ _ | store id _ _ | storeAt id _ _ | storeTop id _ => id

/-- The operands of a node, in the order in which they are evaluated. -/
def children : Expr → List Expr
  | seq _ items => items
  | loop _ cond body => [cond, body]
  | loadAt _ index _ => [index]
  | store _ _ value => [value]
  | storeAt _ index value => [index, value]
  | _ => []

def kindName : Expr → String
  | int .. => "Int"
  | bytes .. => "Bytes"
  | seq .. => "Seq"
  | loop .. => "While"
  | jump _ .exit => "Break"
  | jump _ .reenter => "Continue"
  | slotNumber .. => "ScratchIndex"
  | load .. | loadAt .. => "ScratchLoad"
  | store .. | storeAt .. => "ScratchStore"
  | storeTop .. => "ScratchStackStore"

end Expr

end Flowgraph
