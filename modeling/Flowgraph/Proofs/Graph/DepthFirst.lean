import Flowgraph.Proofs.Graph.Search

/-! # The search is depth first

What is pending are the calls that the recursive search has still to make, so both visit the same
blocks in the same order. An edge out of a visited block leads to another one or to a pending block,
so in the end all that is within reach has been visited. -/

namespace Flowgraph.Graph

variable {g : Graph}

/-! ## The recursive search -/

section

variable {visited after ids more : List BlockId} {id : BlockId} {block : Block}

theorem exploresAll_nil_iff : g.ExploresAll visited [] after ↔ after = visited := by
  constructor
  · intro explores
    cases explores
    rfl
  · rintro rfl
    exact .nil _

theorem exploresAll_cons_iff :
    g.ExploresAll visited (id :: ids) after ↔
      ∃ middle, g.Explores visited id middle ∧ g.ExploresAll middle ids after := by
  constructor
  · intro explores
    cases explores with
    | cons first others => exact ⟨_, first, others⟩
  · intro explores
    obtain ⟨middle, first, others⟩ := explores
    exact .cons first others

theorem exploresAll_append_iff :
    g.ExploresAll visited (ids ++ more) after ↔
      ∃ middle, g.ExploresAll visited ids middle ∧ g.ExploresAll middle more after := by
  induction ids generalizing visited with
  | nil => simp [exploresAll_nil_iff]
  | cons id rest ih =>
      simp only [List.cons_append, exploresAll_cons_iff, ih]
      grind

theorem explores_iff_of_mem (known : id ∈ visited) :
    g.Explores visited id after ↔ after = visited := by
  constructor
  · intro explores
    cases explores with
    | known => rfl
    | new fresh => exact absurd known fresh
  · rintro rfl
    exact .known known

theorem explores_iff_of_fresh (fresh : id ∉ visited) (found : g.blocks[id.index]? = some block) :
    g.Explores visited id after ↔ g.ExploresAll (visited ++ [id]) block.successors after := by
  constructor
  · intro explores
    cases explores with
    | known known => exact absurd known fresh
    | new _ same behind =>
        rw [found, Option.some.injEq] at same
        rwa [same]
  · exact .new fresh found

/-- The recursive search has no result at a place where there is no block. -/
theorem Explores.index_lt (explores : g.Explores visited id after)
    (inside : ∀ id ∈ visited, id.index < g.size) : id.index < g.size := by
  cases explores with
  | known known => exact inside id known
  | new _ found => exact (Array.getElem?_eq_some_iff.mp found).1

end

/-! ## The search with its stack -/

section

variable {marks : Marks g} {visited order : Array BlockId} {pending : List BlockId} {id : BlockId}

/-- The search visits what the recursive search does when it is called on one pending block after
another. -/
theorem visit_eq_ok_iff (tracks : Tracks marks visited) :
    g.visit marks visited pending = .ok order ↔
      g.ExploresAll visited.toList pending order.toList := by
  fun_induction visit g marks visited pending with
  | case1 marks visited => rw [exploresAll_nil_iff, Except.ok.injEq, Array.toList_inj, eq_comm]
  | case2 marks visited id pending h seen ih =>
      have known : id ∈ visited.toList := Array.mem_toList_iff.mpr ((tracks.marked id h).mp seen)
      simp [ih tracks, exploresAll_cons_iff, explores_iff_of_mem known]
  | case3 marks visited id pending h fresh ih =>
      have unknown : id ∉ visited.toList := fun m =>
        fresh ((tracks.marked id h).mpr (Array.mem_toList_iff.mp m))
      have found : g.blocks[id.index]? = some g.blocks[id.index] := Array.getElem?_eq_getElem h
      -- The successors go in front of what was pending, as the recursive calls for them do.
      rw [ih (tracks.push h fresh), Array.toList_push, exploresAll_append_iff, exploresAll_cons_iff]
      simp only [explores_iff_of_fresh unknown found]
  | case4 marks visited id pending outside =>
      simp only [reduceCtorEq, false_iff, exploresAll_cons_iff]
      rintro ⟨middle, first, -⟩
      exact outside (first.index_lt fun id m => tracks.inside id (Array.mem_toList_iff.mp m))

theorem visit_tracks (tracks : Tracks marks visited)
    (run : g.visit marks visited pending = .ok order) : ∃ marks : Marks g, Tracks marks order := by
  fun_induction visit g marks visited pending with
  | case1 marks visited =>
      cases run
      exact ⟨marks, tracks⟩
  | case2 marks visited id pending h seen ih => exact ih tracks run
  | case3 marks visited id pending h fresh ih => exact ih (tracks.push h fresh) run
  | case4 => cases run

/-- What is visited first stays first. -/
theorem head?_visit (tracks : Tracks marks visited)
    (run : g.visit marks visited pending = .ok order) :
    order.toList.head? = (visited.toList ++ pending).head? := by
  fun_induction visit g marks visited pending with
  | case1 marks visited =>
      cases run
      simp
  | case2 marks visited id pending h seen ih =>
      have known : id ∈ visited.toList := Array.mem_toList_iff.mpr ((tracks.marked id h).mp seen)
      rw [ih tracks run, List.head?_append_of_ne_nil _ (List.ne_nil_of_mem known),
        List.head?_append_of_ne_nil _ (List.ne_nil_of_mem known)]
  | case3 marks visited id pending h fresh ih =>
      rw [ih (tracks.push h fresh) run]
      simp
  | case4 => cases run

/-- Each edge out of a visited block leads to a visited or a pending block. -/
def Settled (g : Graph) (visited : Array BlockId) (pending : List BlockId) : Prop :=
  ∀ id ∈ visited, ∀ block, g.blocks[id.index]? = some block →
    ∀ target ∈ block.successors, target ∈ visited ∨ target ∈ pending

theorem visit_settled (tracks : Tracks marks visited) (settled : g.Settled visited pending)
    (run : g.visit marks visited pending = .ok order) :
    g.Settled order [] ∧ ∀ id, id ∈ visited ∨ id ∈ pending → id ∈ order := by
  fun_induction visit g marks visited pending with
  | case1 marks visited =>
      cases run
      exact ⟨settled, by simp⟩
  | case2 marks visited id pending h seen ih =>
      have known := (tracks.marked id h).mp seen
      have rest : ∀ other, other ∈ visited ∨ other ∈ id :: pending →
          other ∈ visited ∨ other ∈ pending := by
        intro other m
        rw [List.mem_cons] at m
        rcases m with m | rfl | m
        · exact .inl m
        · exact .inl known
        · exact .inr m
      -- The block that is dropped from the pending ones is among the visited ones.
      obtain ⟨closed, kept⟩ := ih tracks (fun other m block found target edge =>
        rest target (settled other m block found target edge)) run
      exact ⟨closed, fun other m => kept other (rest other m)⟩
  | case3 marks visited id pending h fresh ih =>
      have moved : ∀ other, other ∈ visited ∨ other ∈ id :: pending →
          other ∈ visited.push id ∨ other ∈ g.blocks[id.index].successors ++ pending := by
        intro other m
        rw [List.mem_cons] at m
        rw [Array.mem_push, List.mem_append]
        rcases m with m | m | m
        · exact .inl (.inl m)
        · exact .inl (.inr m)
        · exact .inr (.inr m)
      have next : g.Settled (visited.push id) (g.blocks[id.index].successors ++ pending) := by
        intro other m block found target edge
        rcases Array.mem_push.mp m with m | rfl
        · exact moved target (settled other m block found target edge)
        · rw [Array.getElem?_eq_getElem h, Option.some.injEq] at found
          subst found
          exact .inr (List.mem_append_left _ edge)
      obtain ⟨closed, kept⟩ := ih (tracks.push h fresh) next run
      exact ⟨closed, fun other m => kept other (moved other m)⟩
  | case4 => cases run

end

/-! ## From one block -/

section

variable {entry : BlockId} {order : Array BlockId}

theorem reachable_eq_ok_iff :
    g.reachable entry = .ok order ↔ g.Explores [] entry order.toList := by
  rw [reachable, visit_eq_ok_iff tracks_none, exploresAll_cons_iff]
  simp [exploresAll_nil_iff]

/-- The search finds exactly what is within reach. -/
theorem mem_reachable_iff (run : g.reachable entry = .ok order) (id : BlockId) :
    id ∈ order ↔ g.Reaches entry id := by
  constructor
  · intro m
    rcases visit_reaches run m with none | ⟨source, m, reaches⟩
    · simp at none
    · rwa [← List.mem_singleton.mp m]
  · intro reaches
    obtain ⟨closed, kept⟩ := visit_settled tracks_none (by simp [Settled]) run
    obtain ⟨marks, tracks⟩ := visit_tracks tracks_none run
    have started : entry ∈ order := kept entry (by simp)
    clear run kept
    induction reaches with
    | refl => exact started
    | step found edge _ ih =>
        rcases closed _ started _ found _ edge with m | m
        · exact ih m
        · cases m

theorem Lists.mem_iff {blocks : List (BlockId × Block)} (lists : g.Lists entry blocks)
    {id : BlockId} {block : Block} :
    (id, block) ∈ blocks ↔ g.Reaches entry id ∧ g.blocks[id.index]? = some block := by
  have listed : id ∈ blocks.map Prod.fst ↔ g.Reaches entry id := by
    rw [← mem_reachable_iff lists.order id, List.mem_toArray]
  constructor
  · intro m
    exact ⟨listed.mp (List.mem_map_of_mem m), lists.found _ m⟩
  · intro there
    obtain ⟨reaches, found⟩ := there
    obtain ⟨⟨id', block'⟩, m, rfl⟩ := List.mem_map.mp (listed.mpr reaches)
    have same := lists.found _ m
    rw [found, Option.some.injEq] at same
    exact same ▸ m

theorem nodup_reachable (run : g.reachable entry = .ok order) : order.toList.Nodup := by
  obtain ⟨marks, tracks⟩ := visit_tracks tracks_none run
  exact tracks.nodup

theorem head?_reachable (run : g.reachable entry = .ok order) :
    order.toList.head? = some entry := by
  rw [head?_visit tracks_none run]
  rfl

theorem inside_of_reachable (run : g.reachable entry = .ok order) : g.Inside entry := by
  intro target reaches
  obtain ⟨marks, tracks⟩ := visit_tracks tracks_none run
  exact tracks.inside target ((mem_reachable_iff run target).mpr reaches)

/-- The search lists the blocks in the order of the recursive search: the entry first, each block
within reach once and no other. It fails if some place within reach has no block, and only names
such a place. -/
theorem reachable_depthFirst (g : Graph) (entry : BlockId) :
    (g.Inside entry → ∃ order, g.reachable entry = .ok order ∧
      (∀ visits, g.Explores [] entry visits ↔ visits = order.toList) ∧
      order.toList.head? = some entry ∧ order.toList.Nodup ∧
      ∀ id, id ∈ order ↔ g.Reaches entry id) ∧
    ∀ outside, g.Reaches entry outside → g.size ≤ outside.index →
      ∃ id, g.Reaches entry id ∧ g.size ≤ id.index ∧
        g.reachable entry = .error (.outOfRange g.size id.index) := by
  constructor
  · intro inside
    obtain ⟨order, run, -⟩ := reachable_run inside
    refine ⟨order, run, ?_, head?_reachable run, nodup_reachable run, mem_reachable_iff run⟩
    intro visits
    have same : g.reachable entry = .ok visits.toArray ↔
        g.Explores [] entry visits.toArray.toList :=
      reachable_eq_ok_iff
    rw [List.toList_toArray, run, Except.ok.injEq] at same
    rw [← same, ← Array.toList_inj, List.toList_toArray, eq_comm]
  · intro outside reaches beyond
    cases run : g.reachable entry with
    | ok order =>
        have within := inside_of_reachable run outside reaches
        omega
    | error e =>
        obtain ⟨source, m, id, found, missing, rfl⟩ := visit_failure run
        rw [List.mem_singleton.mp m] at found
        exact ⟨id, found, missing, rfl⟩

/-- A cycle, a block that goes on at itself and one with two ways to it; and then an edge that leads
out of the graph. -/
theorem reachable_depthFirst_cyclic :
    let g : Graph := ⟨#[⟨[], .branch ⟨1⟩ ⟨2⟩⟩, ⟨[], .jump ⟨0⟩⟩, ⟨[], .branch ⟨2⟩ ⟨1⟩⟩]⟩
    let open_ : Graph := g.push ⟨[], .branch ⟨0⟩ ⟨9⟩⟩
    g.reachable ⟨0⟩ = .ok #[⟨0⟩, ⟨1⟩, ⟨2⟩] ∧
      ∃ id, open_.Reaches ⟨3⟩ id ∧ 4 ≤ id.index ∧
        open_.reachable ⟨3⟩ = .error (.outOfRange 4 id.index) := by
  intro g open_
  have closed : g.Closed := by simp only [Closed]; decide
  have known : ∀ visited (id : BlockId), id ∈ visited → g.Explores visited id visited :=
    fun _ _ m => .known m
  have first : g.Explores [⟨0⟩] ⟨1⟩ [⟨0⟩, ⟨1⟩] :=
    .new (by decide) rfl (.cons (known _ _ (by decide)) (.nil _))
  have second : g.Explores [⟨0⟩, ⟨1⟩] ⟨2⟩ [⟨0⟩, ⟨1⟩, ⟨2⟩] :=
    .new (by decide) rfl (.cons (known _ _ (by decide)) (.cons (known _ _ (by decide)) (.nil _)))
  have all : g.Explores [] ⟨0⟩ [⟨0⟩, ⟨1⟩, ⟨2⟩] :=
    .new (by decide) rfl (.cons first (.cons second (.nil _)))
  obtain ⟨order, run, same, -⟩ := (reachable_depthFirst g ⟨0⟩).1 (closed.inside (by decide))
  have listed : #[⟨0⟩, ⟨1⟩, ⟨2⟩] = order := Array.toList_inj.mp ((same _).mp all)
  have out : open_.Reaches ⟨3⟩ ⟨9⟩ := .step rfl (by decide) (.refl ⟨9⟩)
  exact ⟨listed ▸ run, (reachable_depthFirst open_ ⟨3⟩).2 ⟨9⟩ out (by decide)⟩

end

end Flowgraph.Graph
