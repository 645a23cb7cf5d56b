import Flowgraph.Expr.Postorder
import Flowgraph.Expr.Typing

/-! What the nodes of a tree do with the operand stack, beyond what their types say, and where a
part of a tree lies among the tree's blocks. -/

namespace Flowgraph.Expr

/-- How many values a tree leaves on the operand stack. -/
def yield (e : Expr) : Nat :=
  if e.type.producesValue then 1 else 0

/-! ## Nodes that the types do not cover -/

/-- Whether the node stores a value that no operand of it has left. -/
def takesTop : Expr → Bool
  | .storeTop .. => true
  | _ => false

/-- Whether the node is a load that is declared to leave nothing. A load leaves a value whatever is
declared. -/
def loadsNothing : Expr → Bool
  | .load _ _ type | .loadAt _ _ type => type == .none
  | _ => false

/-- Whether a jump leaves the node when the node's index is on the stack already. -/
def abandonsIndex : Expr → Bool
  | .storeAt _ _ value => !value.strayJumps.isEmpty
  | _ => false

/-- No node of the tree stores the top of the stack or loads nothing. -/
def isPlain (e : Expr) : Bool :=
  e.postorder.all fun node => !node.takesTop && !node.loadsNothing

/-- No jump leaves the value of an indexed store, except to end or to repeat a loop inside it. -/
def keepsIndices (e : Expr) : Bool :=
  e.postorder.all fun node => !node.abandonsIndex

/-! ## Parts of a tree -/

/-- In a tree laid out from `start` on, the part is laid out from `place` on. -/
inductive PartAt : (start : Nat) → (whole : Expr) → (place : Nat) → (part : Expr) → Prop where
  | whole (start e) : PartAt start e start e
  | operand {start e front child rest place part} (split : e.children = front ++ child :: rest)
      (inside : PartAt (start + blockCountAll front) child place part) : PartAt start e place part

/-! ## Elementary laws -/

theorem isPlain_eq (e : Expr) :
    e.isPlain = (e.children.all isPlain && (!e.takesTop && !e.loadsNothing)) :=
  all_postorder _ e

theorem keepsIndices_eq (e : Expr) :
    e.keepsIndices = (e.children.all keepsIndices && !e.abandonsIndex) :=
  all_postorder _ e

theorem WellTyped.of_mem_children {e child : Expr} (well : e.WellTyped) (m : child ∈ e.children) :
    child.WellTyped := by
  cases well with
  | seq id items well silent => exact well child m
  | loop id cond body wellCond wellBody number silent =>
      simp only [children, List.mem_cons, List.not_mem_nil, or_false] at m
      rcases m with rfl | rfl
      · exact wellCond
      · exact wellBody
  | loadAt id index type well number => exact List.mem_singleton.mp m ▸ well
  | store id slot value well stored => exact List.mem_singleton.mp m ▸ well
  | storeAt id index value wellIndex wellValue number stored =>
      simp only [children, List.mem_cons, List.not_mem_nil, or_false] at m
      rcases m with rfl | rfl
      · exact wellIndex
      · exact wellValue
  | _ => cases m

end Flowgraph.Expr
