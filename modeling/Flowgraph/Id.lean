/-! Identities of expressions and of blocks: positions in the table that holds them. -/

namespace Flowgraph

/-- Position of an expression in its arena. -/
structure ExprId where
  val : UInt32
  deriving DecidableEq

/-- Position of a block in its graph. -/
structure BlockId where
  val : UInt32
  deriving DecidableEq

namespace ExprId

def index (id : ExprId) : Nat :=
  id.val.toNat

/-- The identity of the next entry of a table of `size` entries. -/
def ofIndex (size : Nat) : ExprId :=
  ⟨.ofNat size⟩

def text (id : ExprId) : String :=
  "ExprId(" ++ toString id.index ++ ")"

theorem index_ofIndex {size : Nat} (h : size < UInt32.size) : (ofIndex size).index = size :=
  UInt32.toNat_ofNat_of_lt' h

end ExprId

namespace BlockId

def index (id : BlockId) : Nat :=
  id.val.toNat

/-- The identity of the next entry of a table of `size` entries. -/
def ofIndex (size : Nat) : BlockId :=
  ⟨.ofNat size⟩

def text (id : BlockId) : String :=
  "bb" ++ toString id.index

theorem index_ofIndex {size : Nat} (h : size < UInt32.size) : (ofIndex size).index = size :=
  UInt32.toNat_ofNat_of_lt' h

theorem index_inj {a b : BlockId} : a.index = b.index ↔ a = b := by
  cases a; cases b; simp [index, UInt32.toNat_inj]

end BlockId

end Flowgraph
