import Mathlib.Tactic
import Flowgraph.Slot.History

/-! # Slots over a series of requests

Whatever is asked for, and whether it is granted or not, the slots that nobody asked for by number
are numbered one behind the other from the end of the reserved range on. So a number tells how its
slot was obtained. -/

namespace Flowgraph.SlotAllocator

variable {n : UInt32} {a : SlotAllocator} {requested : Int}

/-! ## One request -/

/-- The allocator with one more slot handed out. -/
def handOut (a : SlotAllocator) (next : UInt32) (slot : Slot) : SlotAllocator :=
  ⟨a.numSlots, next, a.allocated.push slot⟩

theorem allocate_none_run (room : a.next.toNat + 1 < UInt32.size) :
    allocate none a = .ok ⟨a.next, false⟩ (a.handOut (a.next + 1) ⟨a.next, false⟩) :=
  if_pos room

theorem allocate_none_exhausted (full : ¬a.next.toNat + 1 < UInt32.size) :
    allocate none a = .error (.error (.internal .slotsExhausted)) a :=
  if_neg full

theorem allocate_some_run (inside : 0 ≤ requested ∧ requested < a.numSlots.toNat) :
    allocate (some requested) a =
      .ok ⟨.ofNat requested.toNat, true⟩ (a.handOut a.next ⟨.ofNat requested.toNat, true⟩) :=
  if_pos inside

theorem allocate_some_outside (outside : ¬(0 ≤ requested ∧ requested < a.numSlots.toNat)) :
    allocate (some requested) a = .error (.error (.invalidSlot requested a.numSlots)) a :=
  if_neg outside

theorem toNat_ofNat_requested (inside : 0 ≤ requested ∧ requested < n.toNat) :
    ((UInt32.ofNat requested.toNat).toNat : Int) = requested := by
  have below := n.toNat_lt_size
  rw [UInt32.toNat_ofNat_of_lt' (by omega)]
  omega

theorem allocate_failure {request : Option Int} {failure : Failure} {after : SlotAllocator}
    (h : allocate request a = .error failure after) : after = a := by
  cases request with
  | none => exact fresh_failure h
  | some requested => exact reserve_failure h

/-- The slot that a request is granted, and the number that is the next one from then on. -/
inductive Grants (a : SlotAllocator) : Option Int → Slot → UInt32 → Prop where
  | auto (room : a.next.toNat + 1 < UInt32.size) : Grants a none ⟨a.next, false⟩ (a.next + 1)
  | reserved {requested : Int} (inside : 0 ≤ requested ∧ requested < a.numSlots.toNat) :
      Grants a (some requested) ⟨.ofNat requested.toNat, true⟩ a.next

/-- A request hands out one slot or leaves everything as it is. -/
theorem allocate_cases (request : Option Int) (a : SlotAllocator) :
    (∃ slot next, Grants a request slot next ∧
      allocate request a = .ok slot (a.handOut next slot)) ∨
    ∃ failure, allocate request a = .error failure a := by
  cases request with
  | none =>
      by_cases room : a.next.toNat + 1 < UInt32.size
      · exact .inl ⟨_, _, .auto room, allocate_none_run room⟩
      · exact .inr ⟨_, allocate_none_exhausted room⟩
  | some requested =>
      by_cases inside : 0 ≤ requested ∧ requested < a.numSlots.toNat
      · exact .inl ⟨_, _, .reserved inside, allocate_some_run inside⟩
      · exact .inr ⟨_, allocate_some_outside inside⟩

/-- What a call adds to the slots handed out is its answer. -/
theorem allocated_after_run (call : Call) (a : SlotAllocator) :
    (call.run.after a).allocated.toList =
      a.allocated.toList ++ (call.run.answer a).toOption.toList := by
  obtain ⟨request, same⟩ := call.exists_run_eq
  rw [same]
  rcases allocate_cases request a with ⟨slot, next, -, run⟩ | ⟨failure, run⟩
  · rw [Action.after_of_ok run, Action.answer_of_ok run, handOut, Array.toList_push]
    rfl
  · rw [Action.after_of_error run, Action.answer_of_error run]
    exact (List.append_nil _).symm

/-! ## What every request keeps -/

/-- The account that an allocator with `n` reserved numbers keeps of its slots. -/
structure Ledger (n : UInt32) (a : SlotAllocator) : Prop where
  numSlots_eq : a.numSlots = n
  next_eq : a.next.toNat = n.toNat + a.autos.length
  /-- Numbers that nobody asked for follow one another from `n` on. -/
  autos_eq : a.autos.map (·.id.toNat) = List.range' n.toNat a.autos.length
  reserved_lt : ∀ slot ∈ a.allocated, slot.reserved = true → slot.id.toNat < n.toNat

theorem ledger_new (n : UInt32) : Ledger n (.new n) where
  numSlots_eq := rfl
  next_eq := rfl
  autos_eq := rfl
  reserved_lt slot m := by cases m; contradiction

theorem Ledger.handOut_auto (ledger : Ledger n a) (room : a.next.toNat + 1 < UInt32.size) :
    Ledger n (a.handOut (a.next + 1) ⟨a.next, false⟩) := by
  have autos : (a.handOut (a.next + 1) ⟨a.next, false⟩).autos = a.autos ++ [⟨a.next, false⟩] := by
    simp [SlotAllocator.autos, handOut]
  refine ⟨ledger.numSlots_eq, ?_, ?_, ?_⟩
  · rw [autos, List.length_append, ← Nat.add_assoc, ← ledger.next_eq]
    exact (UInt32.toNat_add _ _).trans (Nat.mod_eq_of_lt room)
  · rw [autos, List.map_append, List.length_append, List.length_singleton, List.range'_concat,
      ledger.autos_eq, Nat.one_mul, ← ledger.next_eq]
    rfl
  · intro slot m reserved
    rcases Array.mem_push.mp m with m | rfl
    · exact ledger.reserved_lt slot m reserved
    · cases reserved

theorem Ledger.handOut_reserved (ledger : Ledger n a)
    (inside : 0 ≤ requested ∧ requested < n.toNat) :
    Ledger n (a.handOut a.next ⟨.ofNat requested.toNat, true⟩) := by
  have autos : (a.handOut a.next ⟨.ofNat requested.toNat, true⟩).autos = a.autos := by
    simp [SlotAllocator.autos, handOut]
  refine ⟨ledger.numSlots_eq, ?_, ?_, ?_⟩
  · rw [autos]
    exact ledger.next_eq
  · rw [autos, ledger.autos_eq]
  · intro slot m reserved
    rcases Array.mem_push.mp m with m | rfl
    · exact ledger.reserved_lt slot m reserved
    · have same := toNat_ofNat_requested inside
      dsimp only
      omega

theorem Ledger.allocate (ledger : Ledger n a) (request : Option Int) :
    Ledger n ((allocate request).after a) := by
  rcases allocate_cases request a with ⟨slot, next, grants, run⟩ | ⟨failure, run⟩
  · rw [Action.after_of_ok run]
    cases grants with
    | auto room => exact ledger.handOut_auto room
    | reserved inside => exact ledger.handOut_reserved (ledger.numSlots_eq ▸ inside)
  · rw [Action.after_of_error run]
    exact ledger

/-! ## Series of calls -/

theorem Ledger.run (ledger : Ledger n a) (call : Call) : Ledger n (call.run.after a) := by
  obtain ⟨request, same⟩ := call.exists_run_eq
  rw [same]
  exact ledger.allocate request

theorem Ledger.runAll (ledger : Ledger n a) (calls : List Call) :
    Ledger n (Call.runAll calls a) := by
  induction calls generalizing a with
  | nil => exact ledger
  | cons call rest ih => exact ih (ledger.run call)

/-- The slots handed out are what the calls that succeeded were answered, in order. -/
theorem allocated_runAll (calls : List Call) (a : SlotAllocator) :
    (Call.runAll calls a).allocated.toList =
      a.allocated.toList ++ (Action.series (calls.map Call.run) a).filterMap Except.toOption := by
  induction calls generalizing a with
  | nil => exact (List.append_nil _).symm
  | cons call rest ih =>
      have behind := ih (call.run.after a)
      rw [allocated_after_run, List.append_assoc] at behind
      rw [List.map_cons, Action.series, List.filterMap_cons]
      refine behind.trans ?_
      cases call.run.answer a <;> rfl

/-! ## What the account says -/

theorem Ledger.autoCount_eq (ledger : Ledger n a) :
    a.numSlots ≤ a.next ∧ a.autoCount.toNat = a.autos.length := by
  have next := ledger.next_eq
  have below : a.numSlots ≤ a.next := by
    rw [ledger.numSlots_eq, UInt32.le_iff_toNat_le]
    omega
  refine ⟨below, ?_⟩
  rw [autoCount, UInt32.toNat_sub_of_le _ _ below, ledger.numSlots_eq]
  omega

theorem Ledger.le_of_auto (ledger : Ledger n a) {slot : Slot} (m : slot ∈ a.allocated)
    (auto : slot.reserved = false) : n.toNat ≤ slot.id.toNat := by
  have listed : slot ∈ a.autos := List.mem_filter.mpr ⟨m.val, by simp [auto]⟩
  have numbered := List.mem_map_of_mem (f := fun slot : Slot => slot.id.toNat) listed
  rw [ledger.autos_eq] at numbered
  exact (List.mem_range'_1.mp numbered).1

/-- The number of a slot tells how it was obtained. -/
theorem Ledger.reserved_iff (ledger : Ledger n a) {slot : Slot} (m : slot ∈ a.allocated) :
    slot.reserved = true ↔ slot.id.toNat < n.toNat := by
  cases kind : slot.reserved with
  | true => simpa using ledger.reserved_lt slot m kind
  | false => simpa using ledger.le_of_auto m kind

theorem Ledger.reserved_eq_of_aliases (ledger : Ledger n a) {slot other : Slot}
    (m : slot ∈ a.allocated) (mOther : other ∈ a.allocated) (same : slot.aliases other = true) :
    slot.reserved = other.reserved := by
  rw [Bool.eq_iff_iff, ledger.reserved_iff m, ledger.reserved_iff mOther,
    Slot.aliases_iff.mp same]

theorem Ledger.answer_some_eq_ok_iff (ledger : Ledger n a) (slot : Slot) :
    (SlotAllocator.allocate (some requested)).answer a = .ok slot ↔
      (0 ≤ requested ∧ requested < n.toNat) ∧ (slot.id.toNat : Int) = requested ∧
        slot.reserved = true := by
  by_cases inside : 0 ≤ requested ∧ requested < n.toNat
  · have same := toNat_ofNat_requested inside
    have granted := inside
    rw [← ledger.numSlots_eq] at granted
    rw [Action.answer_of_ok (allocate_some_run granted), Except.ok.injEq]
    constructor
    · intro h
      rw [← h]
      exact ⟨inside, same, rfl⟩
    · intro h
      obtain ⟨id, reserved⟩ := slot
      obtain ⟨-, number, rfl⟩ := h
      rw [Slot.mk.injEq]
      exact ⟨UInt32.toNat.inj (by dsimp only at number; omega), rfl⟩
  · have refused := inside
    rw [← ledger.numSlots_eq] at refused
    rw [Action.answer_of_error (allocate_some_outside refused)]
    simp [inside]

theorem Ledger.answer_none_eq_ok_iff (ledger : Ledger n a) (slot : Slot) :
    (SlotAllocator.allocate none).answer a = .ok slot ↔
      n.toNat + a.autos.length < UInt32.size - 1 ∧
        slot.id.toNat = n.toNat + a.autos.length ∧ slot.reserved = false := by
  have next := ledger.next_eq
  by_cases room : a.next.toNat + 1 < UInt32.size
  · rw [Action.answer_of_ok (allocate_none_run room), Except.ok.injEq, ← next]
    constructor
    · intro h
      rw [← h]
      exact ⟨by omega, rfl, rfl⟩
    · intro h
      obtain ⟨id, reserved⟩ := slot
      obtain ⟨-, number, rfl⟩ := h
      rw [Slot.mk.injEq]
      exact ⟨UInt32.toNat.inj number.symm, rfl⟩
  · rw [Action.answer_of_error (allocate_none_exhausted room), ← next]
    constructor
    · intro h
      cases h
    · intro h
      omega

/-- Whatever was asked for before, a slot by number is granted if the number is one of the reserved
range, and any other slot as long as there are numbers left. A call that fails changes nothing. The
slots handed out are the answers to the other calls, the count is right, and the number of a slot
tells whether it was asked for. -/
theorem allocate_behind_calls (n : UInt32) (calls : List Call) :
    let a := Call.runAll calls (.new n)
    (∀ requested slot, (allocate (some requested)).answer a = .ok slot ↔
      (0 ≤ requested ∧ requested < n.toNat) ∧ (slot.id.toNat : Int) = requested ∧
        slot.reserved = true) ∧
    (∀ slot, (allocate none).answer a = .ok slot ↔
      n.toNat + a.autos.length < UInt32.size - 1 ∧
        slot.id.toNat = n.toNat + a.autos.length ∧ slot.reserved = false) ∧
    (∀ (call : Call) failure after, call.run a = .error failure after → after = a) ∧
    a.allocated.toList = (Action.series (calls.map Call.run) (.new n)).filterMap Except.toOption ∧
    a.numSlots ≤ a.next ∧ a.autoCount.toNat = a.autos.length ∧
    a.autos.map (·.id.toNat) = List.range' n.toNat a.autos.length ∧
    a.autos.Pairwise (fun slot other => slot.id < other.id) ∧
    ∀ slot ∈ a.allocated, ∀ other ∈ a.allocated, slot.aliases other = true →
      slot.reserved = other.reserved := by
  intro a
  have ledger : Ledger n a := (ledger_new n).runAll calls
  have ascending : (a.autos.map fun slot => slot.id.toNat).Pairwise (· < ·) := by
    rw [ledger.autos_eq]
    exact List.pairwise_lt_range'
  refine ⟨fun requested => ledger.answer_some_eq_ok_iff, ledger.answer_none_eq_ok_iff, ?_,
    allocated_runAll calls (.new n), ledger.autoCount_eq.1, ledger.autoCount_eq.2,
    ledger.autos_eq, ?_, fun slot m other mOther => ledger.reserved_eq_of_aliases m mOther⟩
  · intro call failure after failed
    obtain ⟨request, same⟩ := call.exists_run_eq
    rw [same] at failed
    exact allocate_failure failed
  · exact (List.pairwise_map.mp ascending).imp UInt32.lt_iff_toNat_lt.mpr

/-- The last number is kept back, whatever is asked for in between. -/
example :
    let calls : List Call := [.fresh, .allocate (some (-1)), .allocate (some 4294967293),
      .allocate none]
    Action.series (calls.map Call.run) (.new 4294967294) =
      [.ok ⟨4294967294, false⟩, .error (.error (.invalidSlot (-1) 4294967294)),
        .ok ⟨4294967293, true⟩, .error (.error (.internal .slotsExhausted))] := by
  decide

end Flowgraph.SlotAllocator
