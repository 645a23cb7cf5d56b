import Flowgraph.Proofs.Graph.DepthFirst

/-! # The slots within reach

The slots of the instructions within reach of a block are collected one of each number, as two slots
of one number are the same register. -/

namespace Flowgraph

/-! ## One slot of each number -/

/-- The listed slots have the property, and each register that has it is listed once. -/
structure Slot.Collects (slots : List Slot) (P : Slot → Prop) : Prop where
  sound : ∀ slot ∈ slots, P slot
  complete : ∀ slot, P slot → ∃ listed ∈ slots, listed.aliases slot = true
  apart : slots.Pairwise fun a b => a.aliases b = false

namespace Slot

theorem aliases_symm {a b : Slot} : a.aliases b = b.aliases a := by
  rw [Bool.eq_iff_iff, aliases_iff, aliases_iff, eq_comm]

theorem Collects.congr {slots : List Slot} {P Q : Slot → Prop} (collects : Collects slots P)
    (same : ∀ slot, P slot ↔ Q slot) : Collects slots Q := by
  rwa [show P = Q from funext fun slot => propext (same slot)] at collects

theorem Collects.nodup_ids {slots : List Slot} {P : Slot → Prop} (collects : Collects slots P) :
    (slots.map Slot.id).Nodup := by
  refine List.pairwise_map.mpr (collects.apart.imp ?_)
  intro a b differ same
  rw [aliases_iff.mpr same] at differ
  cases differ

theorem Collects.mem_ids_iff {slots : List Slot} {P : Slot → Prop} (collects : Collects slots P)
    (number : UInt32) : number ∈ slots.map Slot.id ↔ ∃ slot, P slot ∧ slot.id = number := by
  rw [List.mem_map]
  constructor
  · intro listed
    obtain ⟨slot, m, same⟩ := listed
    exact ⟨slot, collects.sound slot m, same⟩
  · intro there
    obtain ⟨slot, has, rfl⟩ := there
    obtain ⟨listed, m, same⟩ := collects.complete slot has
    exact ⟨listed, m, aliases_iff.mp same⟩

theorem collects_eraseDupsBy (slots : List Slot) :
    Collects (slots.eraseDupsBy aliases) (· ∈ slots) := by
  -- The first slot stays, and those that name the same register go before the others are looked at.
  induction length : slots.length using Nat.strongRecOn generalizing slots with
  | ind n ih =>
      cases slots with
      | nil => exact ⟨by simp, by simp, .nil⟩
      | cons first rest =>
          rw [List.eraseDupsBy_cons]
          have shorter : (rest.filter fun b => b.aliases first = false).length < n := by
            have le := List.length_filter_le (fun b : Slot => b.aliases first = false) rest
            rw [List.length_cons] at length
            omega
          obtain ⟨sound, complete, apart⟩ := ih _ shorter _ rfl
          refine ⟨?_, ?_, ?_⟩
          · intro slot m
            rcases List.mem_cons.mp m with rfl | m
            · exact List.mem_cons_self
            · exact List.mem_cons_of_mem _ (List.mem_of_mem_filter (sound slot m))
          · intro slot m
            by_cases same : first.aliases slot = true
            · exact ⟨first, List.mem_cons_self, same⟩
            · have kept : slot ∈ rest.filter fun b => b.aliases first = false := by
                rcases List.mem_cons.mp m with rfl | m
                · exact absurd (aliases_iff.mpr rfl) same
                · rw [List.mem_filter, aliases_symm]
                  exact ⟨m, by simpa using same⟩
              obtain ⟨listed, m, names⟩ := complete slot kept
              exact ⟨listed, List.mem_cons_of_mem _ m, names⟩
          · refine List.pairwise_cons.mpr ⟨?_, apart⟩
            intro slot m
            rw [aliases_symm]
            simpa using (List.mem_filter.mp (sound slot m)).2

end Slot

/-! ## The collection -/

namespace Graph

variable {g : Graph} {entry : BlockId} {named : List Slot}

/-- Some instruction within reach of the entry names the slot. -/
def Names (g : Graph) (entry : BlockId) (slot : Slot) : Prop :=
  ∃ id block, g.Reaches entry id ∧ g.blocks[id.index]? = some block ∧
    ∃ instr ∈ block.instrs, instr.slot? = some slot

/-- The collection has a result and lists the slots that are named within reach. -/
theorem exists_slotsNamed (inside : g.Inside entry) :
    ∃ named, g.slotsNamed entry = .ok named ∧ Slot.Collects named (g.Names entry) := by
  obtain ⟨blocks, run, lists⟩ := reachableBlocks_run inside
  have collected : g.slotsNamed entry = .ok ((blocks.flatMap fun stop =>
      stop.2.instrs.filterMap Instr.slot?).eraseDupsBy Slot.aliases) := by
    rw [slotsNamed, run]
    rfl
  refine ⟨_, collected, (Slot.collects_eraseDupsBy _).congr ?_⟩
  intro slot
  simp only [List.mem_flatMap, List.mem_filterMap, Prod.exists, lists.mem_iff, Names, and_assoc]

end Graph

end Flowgraph
