import Flowgraph.Proofs.Graph.Paths
import Flowgraph.Proofs.Graph.Rounds

/-! # Straight lines through a graph

Blocks one behind the other, of which each goes on at the next, lie on a way of jumps, and the walk
along jumps collects their instructions. -/

namespace Flowgraph.Graph

variable {g : Graph}

section

variable {entry exit : BlockId} {way : List (BlockId × Block)} {last : Block}

theorem Follows.isSimple (follows : g.Follows entry way exit) :
    ∀ block ∈ way.map Prod.snd, block.isSimple = true := by
  induction follows with
  | refl => simp
  | jump found edge rest ih =>
      exact List.forall_mem_cons.mpr ⟨by simp [Block.isSimple, edge, Edge.isBranch], ih⟩

/-- The walk takes the way to the first arrival at the exit. -/
theorem straightLine_run (follows : g.Follows entry way exit)
    (ends : g.blocks[exit.index]? = some last) (before : exit ∉ way.map Prod.fst) :
    g.straightLine ⟨entry, exit⟩ =
      .ok ((way.flatMap fun stop => stop.2.instrs) ++ last.instrs).toArray :=
  straightLine_eq_ok_iff.mpr ⟨way, last, follows, before, ends, rfl⟩

end

/-! ## Blocks one behind the other -/

/-- Blocks from position `start` on with the given instructions. Each goes on at the next one, the
last at `next`. -/
def line (start : Nat) (next : Option BlockId) : List (List Instr) → List Block
  | [] => []
  | [last] => [⟨last, .toward next⟩]
  | instrs :: rest => ⟨instrs, .jump (.ofIndex (start + 1))⟩ :: line (start + 1) next rest

section

variable {start offset : Nat} {next : Option BlockId} {code more : List (List Instr)}

theorem line_cons (instrs : List Instr) (nonempty : code ≠ []) :
    line start next (instrs :: code) =
      ⟨instrs, .jump (.ofIndex (start + 1))⟩ :: line (start + 1) next code := by
  obtain ⟨second, rest, rfl⟩ := List.exists_cons_of_ne_nil nonempty
  rfl

theorem length_line (start : Nat) (next : Option BlockId) (code : List (List Instr)) :
    (line start next code).length = code.length := by
  induction code generalizing start with
  | nil => rfl
  | cons instrs rest ih =>
      cases rest with
      | nil => rfl
      | cons second rest => rw [line_cons _ (by simp), List.length_cons, ih, ← List.length_cons]

theorem line_append (code : List (List Instr)) (nonempty : more ≠ []) :
    line start next (code ++ more) =
      line start (some (.ofIndex (start + code.length))) code ++
        line (start + code.length) next more := by
  induction code generalizing start with
  | nil => rfl
  | cons instrs rest ih =>
      rw [List.cons_append, line_cons _ (by simp [nonempty]), ih, List.length_cons,
        Nat.add_right_comm start 1, ← Nat.add_assoc]
      cases rest <;> rfl

/-- Jumps lead from the entry of the fragment to its exit, no block on the way branches, and these
are the instructions that run on it. -/
structure RunsStraight (g : Graph) (fragment : Fragment) (instrs : List Instr) : Prop where
  straightLine : g.straightLine fragment = .ok instrs.toArray
  way : ∃ way last, g.Follows fragment.entry way fragment.exit ∧
    g.blocks[fragment.exit.index]? = some last ∧
      ∀ block ∈ way.map Prod.snd ++ [last], block.isSimple = true

theorem exists_follows_line (code : List (List Instr)) (last : List Instr)
    (holds : g.Holds start (line start next (code ++ [last]))) :
    ∃ way, g.Follows (.ofIndex start) way (.ofIndex (start + code.length)) ∧
      way.map Prod.fst = (List.range' start code.length).map .ofIndex ∧
      (way.flatMap fun stop => stop.2.instrs) = code.flatten ∧
      g.blocks[(BlockId.ofIndex (start + code.length)).index]? = some ⟨last, .toward next⟩ := by
  induction code generalizing start with
  | nil => exact ⟨[], .refl _, rfl, rfl, holds.head⟩
  | cons instrs rest ih =>
      rw [List.cons_append, line_cons _ (by simp)] at holds
      obtain ⟨way, follows, ids, found, ends⟩ := ih holds.tail
      rw [List.length_cons, ← Nat.add_assoc, Nat.add_right_comm start]
      refine ⟨_, .jump holds.head rfl follows, ?_, ?_, ends⟩
      · rw [List.map_cons, ids, List.range'_succ, List.map_cons]
      · rw [List.flatMap_cons, found, List.flatten_cons]

theorem nodup_map_ofIndex {count : Nat} (room : start + count ≤ UInt32.size) :
    ((List.range' start count).map BlockId.ofIndex).Nodup := by
  refine List.Nodup.map_on ?_ List.nodup_range'
  intro i mi j mj same
  rw [List.mem_range'_1] at mi mj
  rw [← BlockId.index_ofIndex (by omega : i < UInt32.size), same,
    BlockId.index_ofIndex (by omega : j < UInt32.size)]

/-- Blocks one behind the other are a fragment of their own. -/
theorem runsStraight_line (holds : g.Holds start (line start next code))
    (count : offset + 1 = code.length) (room : start + code.length ≤ UInt32.size) :
    g.RunsStraight ⟨.ofIndex start, .ofIndex (start + offset)⟩ code.flatten := by
  obtain rfl | ⟨front, last, rfl⟩ := List.eq_nil_or_concat' code
  · cases count
  rw [List.length_append, List.length_singleton] at count room
  obtain rfl : offset = front.length := by omega
  obtain ⟨way, follows, ids, found, ends⟩ := exists_follows_line front last holds
  have before : BlockId.ofIndex (start + front.length) ∉ way.map Prod.fst := by
    have apart := nodup_map_ofIndex room
    rw [List.range'_concat, List.map_append, Nat.one_mul, ← ids] at apart
    exact fun m => (List.nodup_append.mp apart).2.2 _ m _ (by simp) rfl
  refine ⟨?_, way, _, follows, ends, ?_⟩
  · rw [straightLine_run follows ends before, found, List.flatten_append]
    simp
  · rw [List.forall_mem_append]
    refine ⟨follows.isSimple, ?_⟩
    cases next <;> simp [Block.isSimple, Edge.toward, Edge.isBranch]

end

end Flowgraph.Graph
