/-! Scratch slots. -/

namespace Flowgraph

/-- A virtual register. A reserved slot has the number its user asked for; the number of any other
is the allocator's choice. -/
structure Slot where
  id : UInt32
  reserved : Bool
  deriving DecidableEq

namespace Slot

/-- Two slots name the same register when their numbers agree, however they were obtained. -/
def aliases (a b : Slot) : Bool :=
  a.id == b.id

def text (slot : Slot) : String :=
  "slot#" ++ toString slot.id.toNat

theorem aliases_iff {a b : Slot} : a.aliases b = true ↔ a.id = b.id := by
  simp [aliases]

end Slot

end Flowgraph
