import Flowgraph.Graph.Rounds
import Flowgraph.Proofs.Graph.Search

/-! # Where the walk along a straight line ends

A round of the walk goes one jump further along the way, to a block that is not marked yet, or it
ends the walk as the rules say. So there is a result within one round more than the graph has
blocks, and it is decided by the way that the jumps lead. -/

namespace Flowgraph.Graph

variable {g : Graph}

/-! ## Ways along jumps -/

section

variable {source middle last next : BlockId} {block : Block} {way more : List (BlockId × Block)}

theorem Follows.snoc (follows : g.Follows source way last)
    (found : g.blocks[last.index]? = some block) (edge : block.edge = .jump next) :
    g.Follows source (way ++ [(last, block)]) next := by
  induction follows with
  | refl id => exact .jump found edge (.refl next)
  | jump here on rest ih => exact .jump here on (ih found)

/-- The way leads through no block that does not jump. -/
theorem Follows.not_mem (follows : g.Follows source way last) {id : BlockId}
    (found : g.blocks[id.index]? = some block) (edge : ∀ next, block.edge ≠ .jump next) :
    id ∉ way.map Prod.fst := by
  induction follows with
  | refl => simp
  | @jump source block' next way target here on rest ih =>
      refine List.not_mem_cons_of_ne_of_not_mem ?_ ih
      rintro rfl
      obtain rfl : block = block' := by rwa [found, Option.some.injEq] at here
      exact edge next on

/-- From each block on the way, jumps lead on to its end. -/
theorem Follows.exists_from (follows : g.Follows source way last) {id : BlockId}
    (m : id ∈ way.map Prod.fst) :
    ∃ front block rest, way = front ++ (id, block) :: rest ∧
      g.Follows id ((id, block) :: rest) last := by
  induction follows with
  | refl => cases m
  | @jump source block next way target found edge rest ih =>
      rcases List.mem_cons.mp m with rfl | m
      · exact ⟨[], block, way, rfl, .jump found edge rest⟩
      · obtain ⟨front, here, behind, rfl, onward⟩ := ih m
        exact ⟨(source, block) :: front, here, behind, rfl, onward⟩

/-- There is one way from a block to the first arrival at another. -/
theorem Follows.unique (follows : g.Follows source way last) (first : last ∉ way.map Prod.fst)
    (follows' : g.Follows source more last) (first' : last ∉ more.map Prod.fst) : way = more := by
  induction follows generalizing more with
  | refl id =>
      cases follows' with
      | refl => rfl
      | jump => simp at first'
  | @jump source block next way target found edge rest ih =>
      cases follows' with
      | refl => simp at first
      | @jump _ block' next' way' _ found' edge' rest' =>
          obtain rfl : block = block' := by rwa [found, Option.some.injEq] at found'
          obtain rfl : next = next' := by rwa [edge, Edge.jump.injEq] at edge'
          simp only [List.map_cons, List.mem_cons, not_or] at first first'
          rw [ih first.2 rest' first'.2]

/-- The way to the first arrival at a block comes to no block twice, for it would never get on. -/
theorem Follows.nodup (follows : g.Follows source way last) (first : last ∉ way.map Prod.fst) :
    (way.map Prod.fst).Nodup := by
  induction follows with
  | refl => exact .nil
  | @jump source block next way target found edge rest ih =>
      simp only [List.map_cons, List.mem_cons, not_or] at first
      refine List.nodup_cons.mpr ⟨?_, ih first.2⟩
      intro again
      obtain ⟨front, here, behind, rfl, onward⟩ := rest.exists_from again
      have firstBehind : target ∉ ((source, here) :: behind).map Prod.fst := fun m =>
        first.2 (by rw [List.map_append]; exact List.mem_append_right _ m)
      have firstWhole : target ∉ ((source, block) :: (front ++ (source, here) :: behind)).map
          Prod.fst := List.not_mem_cons_of_ne_of_not_mem first.1 first.2
      have same := Follows.unique (.jump found edge rest) firstWhole onward firstBehind
      have count := congrArg List.length same
      simp at count
      omega

theorem Follows.exists_first (follows : g.Follows source way last) :
    ∃ way, g.Follows source way last ∧ last ∉ way.map Prod.fst := by
  induction follows with
  | refl id => exact ⟨[], .refl id, by simp⟩
  | @jump source block next way target found edge rest ih =>
      obtain ⟨way, follows, first⟩ := ih
      by_cases here : target = source
      · subst here
        exact ⟨[], .refl target, by simp⟩
      · have notAtSource : target ∉ ((source, block) :: way).map Prod.fst := by
          rw [List.map_cons, List.mem_cons, not_or]
          exact ⟨here, first⟩
        exact ⟨(source, block) :: way, .jump found edge follows, notAtSource⟩

end

/-! ## Rounds -/

namespace LineState

section

variable {s next : LineState g} {fragment : Fragment} {exit : BlockId}
  {way : List (BlockId × Block)} {result : Except Failure (Array Instr)}

theorem lineFrom_eq_round (exit : BlockId) (s : LineState g) :
    g.lineFrom exit s.marks s.current s.found =
      match s.round exit with
      | .inl next => g.lineFrom exit next.marks next.current next.found
      | .inr result => result := by
  rw [lineFrom, round]
  split
  · split
    · rfl
    · simp only
      split
      · rfl
      · split <;> simp_all
  · rfl

/-- What a walk finds within some number of rounds is its result. -/
theorem lineFrom_of_resultWithin {rounds : Nat}
    (ended : s.resultWithin exit rounds = some result) :
    g.lineFrom exit s.marks s.current s.found = result := by
  induction rounds generalizing s with
  | zero => cases ended
  | succ rounds ih =>
      rw [lineFrom_eq_round]
      rw [resultWithin] at ended
      cases step : s.round exit with
      | inl next =>
          rw [step] at ended
          exact ih ended
      | inr result' =>
          rw [step, Option.some.injEq] at ended
          exact ended

/-- The walk has come along the way: the blocks on it are marked, their instructions collected. -/
structure Behind (s : LineState g) (fragment : Fragment) (way : List (BlockId × Block)) : Prop where
  approaches : g.Approaches fragment way s.current
  tracks : Tracks s.marks (way.map Prod.fst).toArray
  found_eq : s.found = (way.flatMap fun stop => stop.2.instrs).toArray

theorem behind_start (g : Graph) (fragment : Fragment) :
    (start g fragment.entry).Behind fragment [] where
  approaches := ⟨.refl _, .nil, by simp⟩
  tracks := tracks_none
  found_eq := rfl

theorem Behind.length_le (behind : s.Behind fragment way) : way.length ≤ g.size := by
  have apart : ((way.map Prod.fst).map BlockId.index).Nodup :=
    behind.approaches.apart.map fun _ _ same => BlockId.index_inj.mp same
  have inside : (way.map Prod.fst).map BlockId.index ⊆ List.range g.size := by
    intro i m
    obtain ⟨id, known, rfl⟩ := List.mem_map.mp m
    exact List.mem_range.mpr (behind.tracks.inside id (List.mem_toArray.mpr known))
  simpa using (apart.subperm inside).length_le

/-- A round at a block that the walk has not come by before. -/
theorem Behind.round_run (behind : s.Behind fragment way) (h : s.current.index < g.blocks.size)
    (new : s.current ∉ way.map Prod.fst) :
    s.round exit =
      if s.current = exit then .inr (.ok (s.found ++ g.blocks[s.current.index].instrs))
      else
        match g.blocks[s.current.index].edge with
        | .jump target => .inl ⟨s.marks.set s.current.index true, target,
            s.found ++ g.blocks[s.current.index].instrs⟩
        | .none => .inr (.error (.error (.internal (.deadEnd s.current exit))))
        | .branch .. => .inr (.error (.error (.internal (.branchInside s.current)))) := by
  have fresh : ¬ s.marks[s.current.index] = true := by
    rwa [behind.tracks.marked s.current h, List.mem_toArray]
  exact (dif_pos h).trans (if_neg fresh)

/-- Where the rules end the walk, the next round ends it. -/
theorem Behind.round_of_stops (behind : s.Behind fragment way)
    (stops : g.Stops fragment.exit way s.current result) :
    s.round fragment.exit = .inr result := by
  obtain ⟨follows, -, before⟩ := behind.approaches
  cases stops with
  | @arrived block found there =>
      obtain ⟨h, rfl⟩ := Array.getElem?_eq_some_iff.mp found
      rw [behind.round_run h (there ▸ before), if_pos there, behind.found_eq]
      simp
  | missing outside =>
      have h : ¬ s.current.index < g.blocks.size := Nat.not_lt.mpr outside
      rw [round, dif_neg h]
      rfl
  | cycle again =>
      have known := List.mem_toArray.mpr again
      have h : s.current.index < g.blocks.size := behind.tracks.inside _ known
      rw [round, dif_pos h, if_pos ((behind.tracks.marked s.current h).mpr known)]
  | @deadEnd block found short edge =>
      have new := follows.not_mem found (by simp [edge])
      obtain ⟨h, rfl⟩ := Array.getElem?_eq_some_iff.mp found
      rw [behind.round_run h new, if_neg short, edge]
  | @branch block found short edge =>
      have new := follows.not_mem found fun next jumps => by
        rw [jumps] at edge
        cases edge
      obtain ⟨h, rfl⟩ := Array.getElem?_eq_some_iff.mp found
      rw [behind.round_run h new, if_neg short]
      cases on : g.blocks[s.current.index].edge with
      | branch => rfl
      | _ =>
          rw [on] at edge
          cases edge

/-- Where they do not, it goes one jump further. -/
theorem Behind.round_of_jump (behind : s.Behind fragment way) {block : Block} {target : BlockId}
    (found : g.blocks[s.current.index]? = some block) (edge : block.edge = .jump target)
    (short : s.current ≠ fragment.exit) (new : s.current ∉ way.map Prod.fst) :
    ∃ next, s.round fragment.exit = .inl next ∧ next.current = target ∧
      next.Behind fragment (way ++ [(s.current, block)]) := by
  obtain ⟨follows, apart, before⟩ := behind.approaches
  have further := follows.snoc found edge
  obtain ⟨h, rfl⟩ := Array.getElem?_eq_some_iff.mp found
  have fresh : ¬ s.marks[s.current.index] = true := by
    rwa [behind.tracks.marked s.current h, List.mem_toArray]
  have tracks := behind.tracks.push h fresh
  refine ⟨⟨s.marks.set s.current.index true, target,
    s.found ++ g.blocks[s.current.index].instrs⟩, ?_, rfl, ?_⟩
  · rw [behind.round_run h new, if_neg short, edge]
  · refine ⟨⟨further, ?_, ?_⟩, ?_, ?_⟩
    · simpa using tracks.nodup
    · simpa [not_or] using ⟨by simpa using before, Ne.symm short⟩
    · simpa using tracks
    · simp [behind.found_eq]

/-- The rules end the walk at a block, or a jump leads it on. -/
theorem stops_or_jumps (g : Graph) (exit : BlockId) (way : List (BlockId × Block))
    (last : BlockId) :
    (∃ result, g.Stops exit way last result) ∨
      ∃ block target, g.blocks[last.index]? = some block ∧ block.edge = .jump target ∧
        last ≠ exit ∧ last ∉ way.map Prod.fst := by
  by_cases again : last ∈ way.map Prod.fst
  · exact .inl ⟨_, .cycle again⟩
  cases found : g.blocks[last.index]? with
  | none => exact .inl ⟨_, .missing (Array.getElem?_eq_none_iff.mp found)⟩
  | some block =>
      by_cases there : last = exit
      · exact .inl ⟨_, .arrived found there⟩
      cases edge : block.edge with
      | none => exact .inl ⟨_, .deadEnd found there edge⟩
      | jump target => exact .inr ⟨block, target, rfl, edge, there, again⟩
      | branch onTrue onFalse =>
          exact .inl ⟨_, .branch found there (by rw [edge]; rfl)⟩

/-- There are no more rounds than blocks, and one more. -/
theorem Behind.exists_stops (behind : s.Behind fragment way) {rounds : Nat}
    (enough : g.size < way.length + rounds) :
    ∃ whole last result, g.Approaches fragment whole last ∧
      g.Stops fragment.exit whole last result ∧
        s.resultWithin fragment.exit rounds = some result := by
  induction rounds generalizing s way with
  | zero =>
      have count := behind.length_le
      omega
  | succ rounds ih =>
      rcases stops_or_jumps g fragment.exit way s.current with
        ⟨result, stops⟩ | ⟨block, target, found, edge, short, new⟩
      · refine ⟨way, s.current, result, behind.approaches, stops, ?_⟩
        rw [resultWithin, behind.round_of_stops stops]
      · obtain ⟨next, step, -, onward⟩ := behind.round_of_jump found edge short new
        rw [resultWithin, step]
        apply ih onward
        rw [List.length_append, List.length_singleton]
        omega

/-- The walk takes the way to where the rules end it. -/
theorem Behind.lineFrom_of_follows {more : List (BlockId × Block)} {last : BlockId}
    (behind : s.Behind fragment way) (follows : g.Follows s.current more last)
    (apart : ((way ++ more).map Prod.fst).Nodup) (before : fragment.exit ∉ more.map Prod.fst)
    (stops : g.Stops fragment.exit (way ++ more) last result) :
    g.lineFrom fragment.exit s.marks s.current s.found = result := by
  generalize from_ : s.current = source at follows
  induction follows generalizing s way with
  | refl id =>
      subst from_
      rw [List.append_nil] at stops
      rw [lineFrom_eq_round, behind.round_of_stops stops]
  | @jump source block target more last found edge rest ih =>
      subst from_
      have new : s.current ∉ way.map Prod.fst := by
        intro known
        rw [List.map_append, List.nodup_append] at apart
        exact apart.2.2 _ known _ (by simp) rfl
      simp only [List.map_cons, List.mem_cons, not_or] at before
      obtain ⟨next, step, there, onward⟩ :=
        behind.round_of_jump found edge (Ne.symm before.1) new
      rw [List.append_cons] at apart stops
      rw [lineFrom_eq_round, step]
      simp only [there]
      exact ih onward apart before.2 stops there

end

end LineState

/-! ## The walk -/

section

variable {fragment : Fragment} {result : Except Failure (Array Instr)}

/-- The result is the one with which the rules end the walk on the way from the entry. -/
theorem straightLine_eq_iff :
    g.straightLine fragment = result ↔
      ∃ way last, g.Approaches fragment way last ∧ g.Stops fragment.exit way last result := by
  have behind := LineState.behind_start g fragment
  constructor
  · rintro rfl
    obtain ⟨way, last, result, approaches, stops, ended⟩ :=
      behind.exists_stops (by simp : g.size < 0 + (g.size + 1))
    have same : g.straightLine fragment = result := LineState.lineFrom_of_resultWithin ended
    exact ⟨way, last, approaches, same ▸ stops⟩
  · intro ends
    obtain ⟨way, last, ⟨follows, apart, before⟩, stops⟩ := ends
    exact behind.lineFrom_of_follows follows apart before stops

/-- The walk succeeds with the instructions on the way to the first arrival at the exit. -/
theorem straightLine_eq_ok_iff {instrs : Array Instr} :
    g.straightLine fragment = .ok instrs ↔
      ∃ way last, g.Follows fragment.entry way fragment.exit ∧
        fragment.exit ∉ way.map Prod.fst ∧ g.blocks[fragment.exit.index]? = some last ∧
        instrs.toList = (way.flatMap fun stop => stop.2.instrs) ++ last.instrs := by
  rw [straightLine_eq_iff]
  constructor
  · intro ends
    obtain ⟨way, last, ⟨follows, apart, before⟩, stops⟩ := ends
    cases stops with
    | @arrived block found there =>
        subst there
        exact ⟨way, block, follows, before, found, rfl⟩
  · intro arrives
    obtain ⟨way, last, follows, before, found, same⟩ := arrives
    refine ⟨way, fragment.exit, ⟨follows, follows.nodup before, before⟩, ?_⟩
    have listed : instrs = instrs.toList.toArray := Array.toArray_toList.symm
    rw [listed, same]
    exact .arrived found rfl

theorem exists_straightLine_iff :
    (∃ instrs, g.straightLine fragment = .ok instrs) ↔
      fragment.exit.index < g.size ∧ ∃ way, g.Follows fragment.entry way fragment.exit := by
  simp only [straightLine_eq_ok_iff]
  constructor
  · intro arrives
    obtain ⟨instrs, way, last, follows, -, found, -⟩ := arrives
    exact ⟨(Array.getElem?_eq_some_iff.mp found).1, way, follows⟩
  · intro arrives
    obtain ⟨inside, way, follows⟩ := arrives
    obtain ⟨first, follows, before⟩ := follows.exists_first
    exact ⟨_, first, _, follows, before, Array.getElem?_eq_getElem inside,
      (List.toList_toArray).symm⟩

/-- The walk is over within one round more than the graph has blocks. It succeeds exactly where
jumps lead from the entry to the exit, with the instructions on the way to the first arrival there.
Otherwise it fails at the first block that branches, goes on nowhere, is met for the second time or
is not there. -/
theorem straightLine_outcome (g : Graph) (fragment : Fragment) :
    (LineState.start g fragment.entry).resultWithin fragment.exit (g.size + 1) =
        some (g.straightLine fragment) ∧
      (∀ instrs, g.straightLine fragment = .ok instrs ↔
        ∃ way last, g.Follows fragment.entry way fragment.exit ∧
          fragment.exit ∉ way.map Prod.fst ∧ g.blocks[fragment.exit.index]? = some last ∧
          instrs.toList = (way.flatMap fun stop => stop.2.instrs) ++ last.instrs) ∧
      ((∃ instrs, g.straightLine fragment = .ok instrs) ↔
        fragment.exit.index < g.size ∧ ∃ way, g.Follows fragment.entry way fragment.exit) ∧
      ∀ failure, g.straightLine fragment = .error failure ↔
        ∃ way last, g.Approaches fragment way last ∧
          g.Stops fragment.exit way last (.error failure) := by
  refine ⟨?_, fun _ => straightLine_eq_ok_iff, exists_straightLine_iff,
    fun _ => straightLine_eq_iff⟩
  obtain ⟨way, last, result, -, -, ended⟩ :=
    (LineState.behind_start g fragment).exists_stops (by simp : g.size < 0 + (g.size + 1))
  rw [ended, Option.some.injEq]
  exact (LineState.lineFrom_of_resultWithin ended).symm

end

end Flowgraph.Graph
