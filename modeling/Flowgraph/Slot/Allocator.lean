import Flowgraph.Slot
import Flowgraph.Action

/-! The allocator of scratch slots. Numbers below `numSlots` are handed out on request, as often as
they are asked for; the numbers from `numSlots` on are handed out once each, in order. -/

namespace Flowgraph

structure SlotAllocator where
  numSlots : UInt32
  /-- The number of the next slot that nobody asked for by number. -/
  next : UInt32
  /-- Every slot handed out, in order. -/
  allocated : Array Slot

namespace SlotAllocator

/-- An allocator with nothing handed out. -/
def new (numSlots : UInt32) : SlotAllocator :=
  ⟨numSlots, numSlots, #[]⟩

/-- How many slots have been handed out without a number being asked for. -/
def autoCount (a : SlotAllocator) : UInt32 :=
  a.next - a.numSlots

/-- The next unreserved slot. The largest number is kept back, for `next` must stay a number. -/
def fresh : Action SlotAllocator Slot
  | ⟨numSlots, next, allocated⟩ =>
    if next.toNat + 1 < UInt32.size then
      let slot : Slot := ⟨next, false⟩
      .ok slot ⟨numSlots, next + 1, allocated.push slot⟩
    else
      .error (.error (.internal .slotsExhausted)) ⟨numSlots, next, allocated⟩

/-- The slot with a given number, which has to be one of the reserved range. -/
def reserve (requested : Int) : Action SlotAllocator Slot
  | ⟨numSlots, next, allocated⟩ =>
    if 0 ≤ requested ∧ requested < numSlots.toNat then
      let slot : Slot := ⟨.ofNat requested.toNat, true⟩
      .ok slot ⟨numSlots, next, allocated.push slot⟩
    else
      .error (.error (.invalidSlot requested numSlots)) ⟨numSlots, next, allocated⟩

def allocate : Option Int → Action SlotAllocator Slot
  | none => fresh
  | some requested => reserve requested

theorem fresh_failure {a b : SlotAllocator} {e : Failure} (h : fresh a = .error e b) : b = a := by
  cases a
  simp only [fresh] at h
  split at h <;> simp_all

theorem reserve_failure {r : Int} {a b : SlotAllocator} {e : Failure}
    (h : reserve r a = .error e b) : b = a := by
  cases a
  simp only [reserve] at h
  split at h <;> simp_all

end SlotAllocator

end Flowgraph
