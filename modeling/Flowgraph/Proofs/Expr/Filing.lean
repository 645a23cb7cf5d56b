import Flowgraph.Expr.Postorder
import Flowgraph.Proofs.Expr.Tables
import Flowgraph.Proofs.Expr.Typing

/-! # How an arena files its nodes

Each node is filed at the position that its identity names, behind all it is made of, and the tables
take each call as the arena does. A call appends one node or changes nothing, so what an arena holds
stays as it was asked for. -/

namespace Flowgraph

theorem ExprId.ofIndex_index (id : ExprId) : ofIndex id.index = id := by
  rw [ofIndex, index, UInt32.ofNat_toNat]

namespace Arena

variable {arena old : Arena} {expected type : ValueType} {id : ExprId} {e : Expr}

/-! ## Arenas in order -/

/-- The tree stands in the arena, under its own identity. -/
def Held (arena : Arena) (e : Expr) : Prop :=
  ∃ type, arena.lookup e.id = .ok (e, type)

/-- The tree is fit to be filed at the position, behind its operands. -/
structure FiledAt (arena : Arena) (i : Nat) (e : Expr) : Prop where
  id_eq : e.id = .ofIndex i
  operands : ∀ child ∈ e.children, child.id.index < i ∧ arena.Held child

def Filed (arena : Arena) : Prop :=
  ∀ (i : Nat) (entry : Expr × ValueType), arena.entries[i]? = some entry → arena.FiledAt i entry.1

theorem Filed.of_lookup (filed : arena.Filed) (found : arena.lookup id = .ok (e, type)) :
    e.id = id ∧ arena.Held e := by
  have same : e.id = id := by
    rw [(filed id.index (e, type) (lookup_eq_ok_iff.mp found)).id_eq, ExprId.ofIndex_index]
  exact ⟨same, type, by rw [same]; exact found⟩

theorem Filed.of_operand (filed : arena.Filed) (found : arena.operand expected id = .ok e) :
    e.id = id ∧ arena.Held e := by
  obtain ⟨actual, found, -⟩ := operand_eq_ok_iff.mp found
  exact filed.of_lookup found

theorem Filed.of_operands (filed : arena.Filed) {ids : List ExprId} {items : List Expr}
    (found : ids.mapM (arena.operand expected) = .ok items) :
    items.map Expr.id = ids ∧ ∀ item ∈ items, arena.Held item := by
  rw [Except.mapM_eq_ok_iff] at found
  induction found with
  | nil => simp
  | cons first _ ih =>
      have held := filed.of_operand first
      exact ⟨by rw [List.map_cons, held.1, ih.1], List.forall_mem_cons.mpr ⟨held.2, ih.2⟩⟩

/-! ## What a call does -/

/-- The node that was asked for, under an identity, with its operands from the arena. -/
structure Makes (arena : Arena) (asked : Node (List ExprId)) (id : ExprId) (e : Expr) : Prop where
  id_eq : e.id = id
  of_eq : Node.of e = asked
  held : ∀ child ∈ e.children, arena.Held child

/-- The arena and its tables do the same: they fail alike and stay as they are, or take the node
that was asked for. -/
inductive Files (arena : Arena) (asked : Option (Node (List ExprId)))
    (action : Action Arena ExprId) (flat : Action Tables ExprId) : Prop where
  | failure (failure : Failure) (failed : action arena = .error failure arena)
      (failedFlat : flat arena.tables = .error failure arena.tables)
  | node (node : Node (List ExprId)) (asked_eq : asked = some node) (e : Expr) (type : ValueType)
      (makes : Makes arena node (.ofIndex arena.size) e)
      (ran : action arena = .ok (.ofIndex arena.size) ⟨arena.entries.push (e, type)⟩)
      (ranFlat : flat arena.tables = .ok (.ofIndex arena.size) (arena.tables.add node type))

section Calls

variable {α : Type} {asked : Node (List ExprId)}
  {plan : Arena → Except Failure (ExprId → Expr × ValueType)}
  {check : Tables → Except Failure α} {finish : α → Action Tables ExprId}

/-- The tables check what the plan checks, and then file what the plan makes. -/
theorem files_insert (found : (ExprId → Expr × ValueType) → α)
    (checked : check arena.tables = (plan arena).map found)
    (planned : ∀ node, plan arena = .ok node → ∀ id, Makes arena asked id (node id).1 ∧
      finish (found node) arena.tables =
        .ok (.ofIndex arena.tables.nodes.size) (arena.tables.add asked (node id).2)) :
    Files arena (some asked) (Arena.insert plan) (.consult check >>= finish) := by
  cases outcome : plan arena with
  | error failure =>
      rw [outcome] at checked
      refine .failure failure (by simp [Arena.insert, outcome]) ?_
      exact Action.bind_failure (Action.consult_failure checked)
  | ok node =>
      rw [outcome] at checked
      obtain ⟨makes, finished⟩ := planned node outcome (.ofIndex arena.size)
      refine .node asked rfl _ _ makes (insert_run outcome) ?_
      rw [Action.bind_run (Action.consult_run checked), finished, size_tables]

/-- A node without operands. -/
theorem files_leaf (node : ExprId → Expr) (type : ValueType)
    (made : ∀ id, (node id).id = id ∧ Node.of (node id) = asked ∧ (node id).children = [])
    (plain : asked.items = []) :
    Files arena (some asked) (Arena.insert fun _ => pure fun id => (node id, type))
      (Tables.push (arena.tables.stored asked) type) := by
  obtain ⟨id_eq, of_eq, leaf⟩ := made (.ofIndex arena.size)
  refine .node asked rfl _ type ⟨id_eq, of_eq, by simp [leaf]⟩ rfl ?_
  rw [Tables.push_run _ _ rfl plain, size_tables]

end Calls

theorem files_seq (filed : arena.Filed) (items : List ExprId) :
    Files arena (some (.seq items)) (Arena.seq items) (Tables.seq items) := by
  -- The type of a sequence is all that its check hands on, whatever the identity of the node.
  refine files_insert (fun node => (node (.ofIndex arena.size)).2) ?_ ?_
  · rw [Tables.seqType, forM_require_tables]
    cases items.dropLast.mapM (arena.operand .none) with
    | error failure => rfl
    | ok silent =>
        cases items.getLast? with
        | none => rfl
        | some item =>
            simp only [type_tables]
            cases arena.lookup item <;> rfl
  · intro node planned id
    obtain ⟨silent, foundSilent, planned⟩ := Except.bind_eq_ok_iff.mp planned
    obtain ⟨front, held⟩ := filed.of_operands foundSilent
    cases last : items.getLast? with
    | none =>
        simp only [last] at planned
        cases planned
        have empty : items = [] := List.getLast?_eq_none_iff.mp last
        exact ⟨⟨rfl, by rw [empty]; rfl, by simp [Expr.children]⟩, rfl⟩
    | some item =>
        simp only [last] at planned
        obtain ⟨⟨tree, type⟩, found, planned⟩ := Except.bind_eq_ok_iff.mp planned
        cases planned
        have heldLast := filed.of_lookup found
        refine ⟨⟨rfl, ?_, List.forall_mem_append.mpr ⟨held, ?_⟩⟩, rfl⟩
        · have split : items = items.dropLast ++ [item] :=
            (List.dropLast_append_getLast? item last).symm
          rw [Node.of, List.map_append, front, List.map_singleton, heldLast.1, ← split]
        · simpa using heldLast.2

theorem files_loop (filed : arena.Filed) (cond body : ExprId) :
    Files arena (some (.loop cond body)) (Arena.loop cond body) (Tables.loop cond body) := by
  refine files_insert (fun _ => ()) ?_ ?_
  · rw [require_tables, require_tables]
    cases arena.operand .uint64 cond with
    | error failure => rfl
    | ok tree => cases arena.operand .none body <;> rfl
  · intro node planned id
    obtain ⟨condTree, foundCond, planned⟩ := Except.bind_eq_ok_iff.mp planned
    obtain ⟨bodyTree, foundBody, planned⟩ := Except.bind_eq_ok_iff.mp planned
    cases planned
    have heldCond := filed.of_operand foundCond
    have heldBody := filed.of_operand foundBody
    refine ⟨⟨rfl, by rw [Node.of, heldCond.1, heldBody.1], ?_⟩, Tables.push_run _ _ rfl rfl⟩
    simpa [Expr.children] using ⟨heldCond.2, heldBody.2⟩

theorem files_load (filed : arena.Filed) (target : Target) (type : ValueType) :
    Files arena (some (.load target type)) (Arena.load target type) (Tables.load target type) := by
  refine files_insert (fun _ => ()) ?_ ?_
  · cases target with
    | direct slot => rfl
    | indirect index =>
        simp only [Tables.requireTarget, require_tables]
        cases arena.operand .uint64 index <;> rfl
  · intro node planned id
    cases target with
    | direct slot =>
        cases planned
        exact ⟨⟨rfl, rfl, by simp [Expr.children]⟩, Tables.push_run _ _ rfl rfl⟩
    | indirect index =>
        obtain ⟨tree, found, planned⟩ := Except.bind_eq_ok_iff.mp planned
        cases planned
        have held := filed.of_operand found
        refine ⟨⟨rfl, by rw [Node.of, held.1], ?_⟩, Tables.push_run _ _ rfl rfl⟩
        simpa [Expr.children] using held.2

theorem files_store (filed : arena.Filed) (target : Target) (value : ExprId) :
    Files arena (some (.store target value)) (Arena.store target value)
      (Tables.store target value) := by
  refine files_insert (fun _ => ()) ?_ ?_
  · cases target with
    | direct slot =>
        simp only [Tables.requireTarget, require_tables]
        cases arena.operand .any value <;> rfl
    | indirect index =>
        simp only [Tables.requireTarget, require_tables]
        cases arena.operand .uint64 index with
        | error failure => rfl
        | ok tree => cases arena.operand .any value <;> rfl
  · intro node planned id
    cases target with
    | direct slot =>
        obtain ⟨tree, found, planned⟩ := Except.bind_eq_ok_iff.mp planned
        cases planned
        have held := filed.of_operand found
        refine ⟨⟨rfl, by rw [Node.of, held.1], ?_⟩, Tables.push_run _ _ rfl rfl⟩
        simpa [Expr.children] using held.2
    | indirect index =>
        obtain ⟨indexTree, foundIndex, planned⟩ := Except.bind_eq_ok_iff.mp planned
        obtain ⟨tree, found, planned⟩ := Except.bind_eq_ok_iff.mp planned
        cases planned
        have heldIndex := filed.of_operand foundIndex
        have held := filed.of_operand found
        refine ⟨⟨rfl, by rw [Node.of, heldIndex.1, held.1], ?_⟩, Tables.push_run _ _ rfl rfl⟩
        simpa [Expr.children] using ⟨heldIndex.2, held.2⟩

theorem files_storeTop (slot : Slot) :
    Files arena (some (.storeTop slot)) (Arena.storeTop slot) (Tables.storeTop slot) :=
  files_leaf (fun id => .storeTop id slot) .none (fun _ => ⟨rfl, rfl, rfl⟩) rfl

/-- All that a call can do. -/
theorem Call.files (filed : arena.Filed) (call : Call) :
    Files arena call.node call.run (Tables.file call) := by
  cases call with
  | seq items => exact files_seq filed items
  | loop cond body => exact files_loop filed cond body
  | load target type => exact files_load filed target type
  | store target value => exact files_store filed target value
  | storeTop slot => exact files_storeTop slot
  | storeOrTop target value =>
      cases value with
      | some value => exact files_store filed target value
      | none =>
          cases target with
          | direct slot => exact files_storeTop slot
          | indirect index => exact .failure _ rfl rfl
  | int value => exact files_leaf (.int · value) .uint64 (fun _ => ⟨rfl, rfl, rfl⟩) rfl
  | bytes value => exact files_leaf (.bytes · value) .bytes (fun _ => ⟨rfl, rfl, rfl⟩) rfl
  | jump kind => exact files_leaf (.jump · kind) .none (fun _ => ⟨rfl, rfl, rfl⟩) rfl
  | slotNumber slot =>
      exact files_leaf (.slotNumber · slot) .uint64 (fun _ => ⟨rfl, rfl, rfl⟩) rfl

/-! ## Runs of calls -/

theorem Held.index_lt (held : arena.Held e) : e.id.index < arena.size := by
  obtain ⟨type, found⟩ := held
  exact (Array.getElem?_eq_some_iff.mp (lookup_eq_ok_iff.mp found)).1

theorem Held.push (held : arena.Held e) (entry : Expr × ValueType) :
    Held ⟨arena.entries.push entry⟩ e := by
  have inside : e.id.index < arena.entries.size := held.index_lt
  obtain ⟨type, found⟩ := held
  refine ⟨type, ?_⟩
  rw [lookup_eq_ok_iff] at found ⊢
  rw [Array.getElem?_push_lt inside, ← found, Array.getElem?_eq_getElem inside]

theorem filed_empty : Filed {} := by
  simp [Filed]

theorem Filed.push (filed : arena.Filed) (id_eq : e.id = .ofIndex arena.size)
    (held : ∀ child ∈ e.children, arena.Held child) (type : ValueType) :
    Filed ⟨arena.entries.push (e, type)⟩ := by
  intro i entry here
  rw [Array.getElem?_push] at here
  split at here
  · rename_i last
    cases here
    rw [last]
    exact ⟨id_eq, fun child m => ⟨(held child m).index_lt, (held child m).push _⟩⟩
  · obtain ⟨id_eq, operands⟩ := filed i entry here
    exact ⟨id_eq, fun child m => ⟨(operands child m).1, (operands child m).2.push _⟩⟩

/-- An arena behind calls is in order and holds what it held before. -/
structure Follows (old arena : Arena) : Prop where
  filed : arena.Filed
  entries : ∃ more, arena.entries = old.entries ++ more

theorem Follows.extends (follows : Follows old arena) : old.tables.Extends arena.tables := by
  obtain ⟨more, same⟩ := follows.entries
  rw [tables, tables, same, Array.toList_append]
  exact Tables.extends_of_append _ _

/-- A call keeps an arena in order, and the tables do the same. -/
theorem Filed.run (filed : arena.Filed) (call : Call) :
    Follows arena (call.run.after arena) ∧
      (Tables.file call).answer arena.tables = call.run.answer arena ∧
      (Tables.file call).after arena.tables = (call.run.after arena).tables := by
  have unchanged : Follows arena arena := ⟨filed, #[], by simp⟩
  cases call.files filed with
  | failure failure failed failedFlat =>
      rw [Action.after_of_error failed, Action.after_of_error failedFlat,
        Action.answer_of_error failed, Action.answer_of_error failedFlat]
      exact ⟨unchanged, rfl, rfl⟩
  | node node asked_eq e type makes ran ranFlat =>
      rw [Action.after_of_ok ran, Action.after_of_ok ranFlat, Action.answer_of_ok ran,
        Action.answer_of_ok ranFlat, tables_push, makes.of_eq]
      exact ⟨⟨filed.push makes.id_eq makes.held type, #[(e, type)], by simp⟩, rfl, rfl⟩

theorem Filed.runAll (filed : arena.Filed) (calls : List Call) :
    Follows arena (Call.runAll calls arena) ∧
      Action.series (calls.map Tables.file) arena.tables =
        Action.series (calls.map Call.run) arena ∧
      Tables.fileAll calls arena.tables = (Call.runAll calls arena).tables := by
  induction calls generalizing arena with
  | nil => exact ⟨⟨filed, #[], by simp [Call.runAll, Action.afterSeries]⟩, rfl, rfl⟩
  | cons call rest ih =>
      obtain ⟨⟨filedFirst, more, grown⟩, answer, after⟩ := filed.run call
      obtain ⟨⟨filedRest, others, grownRest⟩, answers, afterAll⟩ := ih filedFirst
      rw [← after] at answers afterAll
      refine ⟨⟨filedRest, more ++ others, ?_⟩, ?_, afterAll⟩
      · rw [← Array.append_assoc, ← grown]
        exact grownRest
      · rw [List.map_cons, List.map_cons, Action.series, Action.series, answer, answers]

/-! ## Trees -/

theorem Filed.index_lt_of_mem_children (filed : arena.Filed) (held : arena.Held e) {child : Expr}
    (m : child ∈ e.children) : child.id.index < e.id.index ∧ arena.Held child := by
  obtain ⟨type, found⟩ := held
  exact (filed e.id.index (e, type) (lookup_eq_ok_iff.mp found)).operands child m

/-- All that a tree is made of stands in the arena, each part under its own identity. -/
theorem Filed.held_of_mem_postorder (filed : arena.Filed) (held : arena.Held e) :
    ∀ part ∈ e.postorder, arena.Held part := by
  -- Operands stand at earlier positions, so the position carries the induction.
  induction below : e.id.index using Nat.strong_induction_on generalizing e with
  | _ i ih =>
      intro part m
      rw [Expr.postorder_eq, List.mem_append, List.mem_flatMap, List.mem_singleton] at m
      rcases m with ⟨child, mChild, m⟩ | rfl
      · obtain ⟨earlier, heldChild⟩ := filed.index_lt_of_mem_children held mChild
        exact ih child.id.index (by omega) heldChild rfl part m
      · exact held

theorem Sound.lookup_of_held (sound : arena.Sound) (held : arena.Held e) :
    arena.lookup e.id = .ok (e, e.type) := by
  obtain ⟨type, found⟩ := held
  have same : e.type = type := (sound.lookup found).type_eq
  rw [same, found]

theorem Built.filed (built : Built arena) : arena.Filed := by
  induction built with
  | empty => exact filed_empty
  | call before call ih => exact (ih.run call).1.filed

end Arena

namespace Tables

/-! ## Tables behind calls -/

/-- The place `i` of the tables holds the root of the tree `e`, which is in order. -/
structure HoldsAt (t : Tables) (arena : Arena) (i : Nat) (stored : Node Stretch) (e : Expr) :
    Prop where
  of_eq : stored.map t.list = (Node.of e).map some
  operands_lt : ∀ operand ∈ (Node.of e).operands, operand.index < i
  type_eq : t.types[i]? = some e.type
  wellTyped : e.WellTyped
  lookup : arena.lookup (.ofIndex i) = .ok (e, e.type)
  parts : ∀ part ∈ e.postorder, arena.lookup part.id = .ok (part, part.type)

/-- From the tables `old` a call appends the one node it asks for, with the items it names, or fails
and changes nothing. The tables `t` are those in which the items are read back. -/
inductive Takes (t old : Tables) (call : Arena.Call) : Prop where
  | failure (failure : Failure) (failed : file call old = .error failure old)
  | node (id : ExprId) (node : Node (List ExprId)) (stored : Node Stretch) (type : ValueType)
      (index_eq : id.index = old.nodes.size) (asked_eq : call.node = some node)
      (readBack : stored.map t.list = node.map some)
      (ran : file call old = .ok id
        ⟨old.nodes.push stored, old.types.push type, old.items ++ node.items.toArray⟩)

/-- Nothing that `old` holds is another in `t`. -/
structure Keeps (old t : Tables) : Prop where
  nodes : ∀ i < old.nodes.size, t.nodes[i]? = old.nodes[i]?
  types : ∀ i < old.types.size, t.types[i]? = old.types[i]?
  lists : ∀ stored ∈ old.nodes, stored.map t.list = stored.map old.list

theorem exists_holdsAt {arena : Arena} (filed : arena.Filed) (sound : arena.Sound)
    (room : arena.size ≤ UInt32.size) (roomItems : arena.tables.items.size < UInt32.size)
    {i : Nat} {stored : Node Stretch} (here : arena.tables.nodes[i]? = some stored) :
    ∃ e, HoldsAt arena.tables arena i stored e := by
  obtain ⟨⟨e, type⟩, entry, types, readBack⟩ := exists_entry here roomItems
  rw [Array.getElem?_toList] at entry
  have inside : i < arena.size := (Array.getElem?_eq_some_iff.mp entry).1
  obtain ⟨id_eq, operands⟩ := filed i (e, type) entry
  have index_eq : (ExprId.ofIndex i).index = i := ExprId.index_ofIndex (lt_of_lt_of_le inside room)
  have held : arena.Held e := ⟨type, by rw [Arena.lookup_eq_ok_iff, id_eq, index_eq, entry]⟩
  have typed : Arena.Typed (e, type) := sound _ (Array.mem_of_getElem? entry)
  refine ⟨e, readBack, ?_, by rw [typed.type_eq]; exact types, typed.wellTyped, ?_, ?_⟩
  · intro operand m
    rw [Node.operands_of, List.mem_map] at m
    obtain ⟨child, m, rfl⟩ := m
    exact (operands child m).1
  · rw [← id_eq]
    exact sound.lookup_of_held held
  · intro part m
    exact sound.lookup_of_held (filed.held_of_mem_postorder held part m)

theorem keeps_of_extends {old t : Arena} (grows : Extends old.tables t.tables)
    (roomItems : t.tables.items.size < UInt32.size) : Keeps old.tables t.tables where
  nodes := fun _ inside => grows.stored inside
  types := fun _ inside => grows.type inside
  lists := by
    intro stored m
    obtain ⟨i, here⟩ := Array.getElem?_of_mem m
    obtain ⟨entry, -, -, readBack⟩ :=
      exists_entry here (lt_of_le_of_lt grows.items_size_le roomItems)
    exact (grows.map_list readBack).trans readBack.symm

/-- A call on the tables of an arena in order. -/
theorem takes_call {old arena : Arena} (filed : old.Filed) (call : Arena.Call)
    (grows : Extends (call.run.after old).tables arena.tables)
    (room : arena.size ≤ UInt32.size) (roomItems : arena.tables.items.size < UInt32.size) :
    Takes arena.tables old.tables call := by
  cases call.files filed with
  | failure failure _ failed => exact .failure failure failed
  | node node asked_eq e type makes ran ranFlat =>
      rw [Action.after_of_ok ran, Arena.tables_push, makes.of_eq] at grows
      have roomNode := lt_of_le_of_lt grows.items_size_le roomItems
      have size : old.size < UInt32.size := by
        have := grows.nodes_size_le
        simp only [add, Array.size_push, Arena.size_tables] at this
        omega
      refine .node _ node (old.tables.stored node) type ?_ asked_eq ?_ ranFlat
      · rw [ExprId.index_ofIndex size, Arena.size_tables]
      · exact grows.map_list (map_list_stored _ _ _ roomNode)

/-- What calls lead to, whatever they name and whether they fail or not. -/
theorem nodes_behind_calls (calls : List Arena.Call)
    (room : (fileAll calls {}).nodes.size ≤ UInt32.size)
    (roomItems : (fileAll calls {}).items.size < UInt32.size) :
    Action.series (calls.map file) {} = Action.series (calls.map Arena.Call.run) {} ∧
      fileAll calls {} = (Arena.Call.runAll calls {}).tables ∧
      (fileAll calls {}).types.size = (fileAll calls {}).nodes.size ∧
      (∀ i stored, (fileAll calls {}).nodes[i]? = some stored →
        ∃ e, HoldsAt (fileAll calls {}) (Arena.Call.runAll calls {}) i stored e) ∧
      (∀ before call behind, calls = before ++ call :: behind →
        Takes (fileAll calls {}) (fileAll before {}) call) ∧
      ∀ before behind, calls = before ++ behind → Keeps (fileAll before {}) (fileAll calls {}) := by
  obtain ⟨⟨filed, -⟩, answers, behindAll⟩ := Arena.filed_empty.runAll calls
  rw [Arena.tables_empty] at answers behindAll
  rw [behindAll] at room roomItems ⊢
  rw [Arena.size_tables] at room
  have sound : (Arena.Call.runAll calls {}).Sound := (Arena.Built.empty.afterSeries calls).sound
  refine ⟨answers, rfl, ?_, ?_, ?_, ?_⟩
  · rw [Arena.tables, (sizes_of _).1, (sizes_of _).2]
  · intro i stored here
    exact exists_holdsAt filed sound room roomItems here
  · intro before call behind split
    obtain ⟨⟨filedBefore, -⟩, -, behindBefore⟩ := Arena.filed_empty.runAll before
    rw [Arena.tables_empty] at behindBefore
    rw [behindBefore]
    -- What is read back at the end was filed by this call, and the calls behind it only add.
    obtain ⟨filedCall, -⟩ := (filedBefore.run call).1
    have grows := (filedCall.runAll behind).1.extends
    refine takes_call filedBefore call ?_ room roomItems
    rwa [split, Arena.Call.runAll_append]
  · intro before behind split
    obtain ⟨⟨filedBefore, -⟩, -, behindBefore⟩ := Arena.filed_empty.runAll before
    rw [Arena.tables_empty] at behindBefore
    rw [behindBefore]
    have grows := (filedBefore.runAll behind).1.extends
    rw [← Arena.Call.runAll_append, ← split] at grows
    exact keeps_of_extends grows roomItems

/-- Two calls fail, one for its body's type and one that names no node, and one sequence holds a
loop and a sequence. -/
theorem nodes_behind_calls_failing :
    let front : List Arena.Call := [.int 1, .jump .exit, .seq [⟨1⟩, ⟨0⟩], .loop ⟨0⟩ ⟨2⟩,
      .loop ⟨0⟩ ⟨1⟩, .seq [⟨3⟩, ⟨9⟩]]
    let calls := front ++ [.seq [⟨3⟩, ⟨1⟩, ⟨2⟩]]
    (fileAll calls {}).nodes[4]? = some (.seq ⟨2, 3⟩) ∧
      (∃ e, HoldsAt (fileAll calls {}) (Arena.Call.runAll calls {}) 4 (.seq ⟨2, 3⟩) e) ∧
      Takes (fileAll calls {}) (fileAll front {}) (.seq [⟨3⟩, ⟨1⟩, ⟨2⟩]) ∧
      Keeps (fileAll front {}) (fileAll calls {}) := by
  intro front calls
  have room : (fileAll calls {}).nodes.size ≤ UInt32.size := by decide +kernel
  have roomItems : (fileAll calls {}).items.size < UInt32.size := by decide +kernel
  have here : (fileAll calls {}).nodes[4]? = some (.seq ⟨2, 3⟩) := by decide +kernel
  obtain ⟨-, -, -, holds, takes, keeps⟩ := nodes_behind_calls calls room roomItems
  exact ⟨here, holds 4 _ here, takes front _ [] rfl, keeps front _ rfl⟩

end Tables

end Flowgraph
