import Flowgraph.Slot.Allocator

/-! Allocators as they come about: from a new one, by requests that are granted or refused. -/

namespace Flowgraph.SlotAllocator

/-- A call that asks for a slot. -/
inductive Call where
  | allocate (requested : Option Int)
  | fresh

def Call.run : Call → Action SlotAllocator Slot
  | allocate requested => SlotAllocator.allocate requested
  | fresh => SlotAllocator.fresh

/-- The allocator behind calls, whether they fail or not. -/
def Call.runAll (calls : List Call) (a : SlotAllocator) : SlotAllocator :=
  Action.afterSeries (calls.map run) a

/-- The slots that nobody asked for by number, in order. -/
def autos (a : SlotAllocator) : List Slot :=
  a.allocated.toList.filter fun slot => !slot.reserved

/-- Asking for a fresh slot is asking for no particular one. -/
theorem Call.exists_run_eq (call : Call) :
    ∃ requested, call.run = SlotAllocator.allocate requested := by
  cases call with
  | allocate requested => exact ⟨requested, rfl⟩
  | fresh => exact ⟨none, rfl⟩

end Flowgraph.SlotAllocator
