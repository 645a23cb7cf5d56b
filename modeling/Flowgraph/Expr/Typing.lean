import Flowgraph.Expr

/-! The value type of a tree, and the trees whose operands fit the places they stand in. -/

namespace Flowgraph.Expr

mutual

/-- Loads have the type they declare; loops, jumps and stores leave no value. -/
def type : Expr → ValueType
  | .int .. | .slotNumber .. => .uint64
  | .bytes .. => .bytes
  | .seq _ items => lastType items
  | .load _ _ type | .loadAt _ _ type => type
  | .loop .. | .jump .. | .store .. | .storeAt .. | .storeTop .. => .none

/-- The type of the last item, or `none` where there is no item. -/
def lastType : List Expr → ValueType
  | [] => .none
  | [last] => last.type
  | _ :: rest => lastType rest

end

theorem lastType_eq (items : List Expr) :
    lastType items = (items.getLast?.map type).getD .none := by
  induction items with
  | nil => rfl
  | cons item rest ih =>
      cases rest with
      | nil => rfl
      | cons => simp only [lastType, ih, List.getLast?_cons_cons]

/-- Slots are addressed by numbers, stores store a value, a loop's condition is a number and its
body leaves nothing behind, nor does an item of a sequence other than the last. -/
inductive WellTyped : Expr → Prop where
  | int (id value) : WellTyped (.int id value)
  | bytes (id value) : WellTyped (.bytes id value)
  | seq (id items) (well : ∀ item ∈ items, WellTyped item)
      (silent : ∀ item ∈ items.dropLast, item.type = .none) : WellTyped (.seq id items)
  | loop (id cond body) (wellCond : WellTyped cond) (wellBody : WellTyped body)
      (number : ValueType.uint64.accepts cond.type) (silent : body.type = .none) :
      WellTyped (.loop id cond body)
  | jump (id kind) : WellTyped (.jump id kind)
  | slotNumber (id slot) : WellTyped (.slotNumber id slot)
  | load (id slot type) : WellTyped (.load id slot type)
  | loadAt (id index type) (well : WellTyped index)
      (number : ValueType.uint64.accepts index.type) : WellTyped (.loadAt id index type)
  | store (id slot value) (well : WellTyped value)
      (stored : value.type.producesValue) : WellTyped (.store id slot value)
  | storeAt (id index value) (wellIndex : WellTyped index) (wellValue : WellTyped value)
      (number : ValueType.uint64.accepts index.type)
      (stored : value.type.producesValue) : WellTyped (.storeAt id index value)
  | storeTop (id slot) : WellTyped (.storeTop id slot)

end Flowgraph.Expr
