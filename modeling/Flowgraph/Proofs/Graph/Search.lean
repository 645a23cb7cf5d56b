import Mathlib.Tactic
import Flowgraph.Graph.Listing
import Flowgraph.Graph.Search
import Flowgraph.Machine

/-! # Walks that stay in the graph

A walk looks up the blocks it comes to, so it has a result where all that is within reach lies in
the graph. That is so in a closed graph, where every edge leads to a block of the graph. -/

namespace Flowgraph.Graph

variable {g : Graph}

/-- Every edge leads to a block of the graph. -/
def Closed (g : Graph) : Prop :=
  ∀ block ∈ g.blocks, ∀ target ∈ block.successors, target.index < g.size

/-- Everything within reach of the block lies in the graph. -/
def Inside (g : Graph) (id : BlockId) : Prop :=
  ∀ target, g.Reaches id target → target.index < g.size

theorem Closed.index_lt (closed : g.Closed) {source target : BlockId}
    (reaches : g.Reaches source target) (inside : source.index < g.size) :
    target.index < g.size := by
  induction reaches with
  | refl => exact inside
  | step found edge _ ih => exact ih (closed _ (Array.mem_of_getElem? found) _ edge)

theorem Closed.inside (closed : g.Closed) {id : BlockId} (inside : id.index < g.size) :
    g.Inside id :=
  fun _ reaches => closed.index_lt reaches inside

/-- Control passes along edges. -/
theorem Path.reaches {σ : Type} {m : Machine σ} {source last : BlockId} {s s' : σ}
    {trace : List Instr} (path : g.Path m source s trace last s') : g.Reaches source last := by
  induction path with
  | here id s => exact .refl id
  | jump block ran rest ih => exact .step block (by simp [Block.successors, Edge.targets]) ih
  | branch answer block ran tested rest ih =>
      exact .step block (by cases answer <;> simp [Block.successors, Edge.targets]) ih

/-! ## Marks -/

section

variable {marks : Marks g} {visited : Array BlockId} {id : BlockId}

/-- The marks are those of the visited blocks, each of which has been visited once. -/
structure Tracks (marks : Marks g) (visited : Array BlockId) : Prop where
  inside : ∀ id ∈ visited, id.index < g.size
  marked : ∀ (id : BlockId) (h : id.index < g.blocks.size), marks[id.index] = true ↔ id ∈ visited
  nodup : visited.toList.Nodup

theorem tracks_none : Tracks (.none g) #[] where
  inside := by simp
  marked := by simp [Marks.none]
  nodup := .nil

theorem Tracks.push (tracks : Tracks marks visited) (h : id.index < g.blocks.size)
    (fresh : ¬ marks[id.index] = true) :
    Tracks (marks.set id.index true) (visited.push id) where
  inside := by
    intro other m
    rcases Array.mem_push.mp m with m | rfl
    · exact tracks.inside other m
    · exact h
  marked := by
    intro other here
    rw [Array.mem_push, ← tracks.marked other here, Vector.getElem_set, ← BlockId.index_inj]
    grind
  nodup := by
    have unknown : id ∉ visited := fun m => fresh ((tracks.marked id h).mpr m)
    rw [Array.toList_push, List.nodup_append]
    refine ⟨tracks.nodup, by simp, ?_⟩
    intro a ma b mb same
    rw [List.mem_singleton.mp mb] at same
    exact unknown (Array.mem_toList_iff.mp (same ▸ ma))

end

/-! ## Depth-first search -/

section

variable {marks : Marks g} {visited order : Array BlockId} {pending : List BlockId} {id : BlockId}

/-- The search finds nothing that is not within reach. -/
theorem visit_reaches (run : g.visit marks visited pending = .ok order) (found : id ∈ order) :
    id ∈ visited ∨ ∃ source ∈ pending, g.Reaches source id := by
  fun_induction visit g marks visited pending with
  | case1 marks visited =>
      cases run
      exact .inl found
  | case2 marks visited first pending h seen ih =>
      rcases ih run with m | ⟨source, m, reaches⟩
      · exact .inl m
      · exact .inr ⟨source, List.mem_cons_of_mem _ m, reaches⟩
  | case3 marks visited first pending h fresh ih =>
      rcases ih run with m | ⟨source, m, reaches⟩
      · rcases Array.mem_push.mp m with m | rfl
        · exact .inl m
        · exact .inr ⟨id, by simp, .refl id⟩
      · rcases List.mem_append.mp m with edge | m
        · exact .inr ⟨first, by simp, .step (Array.getElem?_eq_getElem h) edge reaches⟩
        · exact .inr ⟨source, List.mem_cons_of_mem _ m, reaches⟩
  | case4 => cases run

/-- The search fails only where it comes to a place without a block. -/
theorem visit_failure {e : Failure} (failed : g.visit marks visited pending = .error e) :
    ∃ source ∈ pending, ∃ id, g.Reaches source id ∧ g.size ≤ id.index ∧
      e = .outOfRange g.size id.index := by
  fun_induction visit g marks visited pending with
  | case1 => cases failed
  | case2 marks visited first pending h seen ih =>
      obtain ⟨source, m, id, reaches, outside⟩ := ih failed
      exact ⟨source, List.mem_cons_of_mem _ m, id, reaches, outside⟩
  | case3 marks visited first pending h fresh ih =>
      obtain ⟨source, m, id, reaches, outside⟩ := ih failed
      rcases List.mem_append.mp m with edge | m
      · have step : g.Reaches first id := .step (Array.getElem?_eq_getElem h) edge reaches
        exact ⟨first, by simp, id, step, outside⟩
      · exact ⟨source, List.mem_cons_of_mem _ m, id, reaches, outside⟩
  | case4 marks visited first pending outside =>
      cases failed
      exact ⟨first, by simp, first, .refl first, Nat.le_of_not_lt outside, rfl⟩

end

/-- The search finds its way, and finds nothing outside of the graph. -/
theorem reachable_run {entry : BlockId} (inside : g.Inside entry) :
    ∃ order, g.reachable entry = .ok order ∧ ∀ id ∈ order, id.index < g.size := by
  cases run : g.reachable entry with
  | ok order =>
      refine ⟨order, rfl, fun id m => ?_⟩
      rcases visit_reaches run m with none | ⟨source, m, reaches⟩
      · simp at none
      · rw [List.mem_singleton.mp m] at reaches
        exact inside id reaches
  | error e =>
      obtain ⟨source, m, id, reaches, beyond, -⟩ := visit_failure run
      rw [List.mem_singleton.mp m] at reaches
      have within := inside id reaches
      omega

/-! ## What the search is for -/

/-- The blocks within reach of the entry, each with its identity, in the order of the search. -/
structure Lists (g : Graph) (entry : BlockId) (blocks : List (BlockId × Block)) : Prop where
  order : g.reachable entry = .ok (blocks.map Prod.fst).toArray
  found : ∀ stop ∈ blocks, g.blocks[stop.1.index]? = some stop.2

theorem mapM_lookup_run {ids : List BlockId} (inside : ∀ id ∈ ids, id.index < g.size) :
    ∃ blocks, (ids.mapM fun id => return (id, ← g.lookup id) :
      Except Failure (List (BlockId × Block))) = .ok blocks ∧ blocks.map Prod.fst = ids ∧
        ∀ stop ∈ blocks, g.blocks[stop.1.index]? = some stop.2 := by
  induction ids with
  | nil => exact ⟨[], rfl, rfl, by simp⟩
  | cons id rest ih =>
      obtain ⟨blocks, run, same, all⟩ := ih fun id m => inside id (List.mem_cons_of_mem _ m)
      have found : g.blocks[id.index]? = some _ := Array.getElem?_eq_getElem (inside id (by simp))
      rw [List.mapM_cons, run, lookup_eq_ok_iff.mpr found]
      exact ⟨_, rfl, congrArg _ same, List.forall_mem_cons.mpr ⟨found, all⟩⟩

variable {entry : BlockId}

theorem reachableBlocks_run (inside : g.Inside entry) :
    ∃ blocks, g.reachableBlocks entry = .ok blocks ∧ g.Lists entry blocks := by
  obtain ⟨order, run, within⟩ := reachable_run inside
  obtain ⟨blocks, looked, same, found⟩ :=
    mapM_lookup_run fun id m => within id (Array.mem_toList_iff.mp m)
  refine ⟨blocks, ?_, ?_, found⟩
  · rw [reachableBlocks, run]
    exact looked
  · rw [run, same]

theorem slotsNamed_run (inside : g.Inside entry) : ∃ slots, g.slotsNamed entry = .ok slots := by
  obtain ⟨blocks, run, -⟩ := reachableBlocks_run inside
  rw [slotsNamed, run]
  exact ⟨_, rfl⟩

theorem exists_listing (inside : g.Inside entry) :
    ∃ blocks, g.Lists entry blocks ∧ g.listing entry = .ok (String.join
      ((blocks.flatMap fun stop => stop.2.lines stop.1).map (· ++ "\n"))) := by
  obtain ⟨blocks, run, lists⟩ := reachableBlocks_run inside
  refine ⟨blocks, lists, ?_⟩
  rw [listing, run]
  rfl

theorem listing_run (inside : g.Inside entry) : ∃ text, g.listing entry = .ok text := by
  obtain ⟨blocks, -, listed⟩ := exists_listing inside
  exact ⟨_, listed⟩

end Flowgraph.Graph
