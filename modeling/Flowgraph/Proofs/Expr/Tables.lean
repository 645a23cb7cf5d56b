import Mathlib.Tactic
import Flowgraph.Expr.Tables

/-! # The tables of an arena

Tables only grow, so what is filed can be read back as long as the table of items is not too large
for its stretches. The tables of an arena know what the arena knows of its operands. -/

namespace Flowgraph

namespace Tables

/-! ## Tables that only grow -/

theorem list_eq_some_iff {t : Tables} {s : Stretch} {ids : List ExprId} :
    t.list s = some ids ↔ s.start.toNat + s.length.toNat ≤ t.items.size ∧
      (t.items.toList.drop s.start.toNat).take s.length.toNat = ids := by
  unfold list
  split <;> simp_all

/-- Nothing is taken off the tables. -/
structure Extends (old t : Tables) : Prop where
  nodes : ∃ more, t.nodes = old.nodes ++ more
  types : ∃ more, t.types = old.types ++ more
  items : ∃ more, t.items = old.items ++ more

namespace Extends

variable {old mid t : Tables}

theorem refl (t : Tables) : Extends t t where
  nodes := ⟨#[], by simp⟩
  types := ⟨#[], by simp⟩
  items := ⟨#[], by simp⟩

theorem trans (first : Extends old mid) (second : Extends mid t) : Extends old t where
  nodes := by
    obtain ⟨xs, first⟩ := first.nodes
    obtain ⟨ys, second⟩ := second.nodes
    exact ⟨xs ++ ys, by rw [second, first, Array.append_assoc]⟩
  types := by
    obtain ⟨xs, first⟩ := first.types
    obtain ⟨ys, second⟩ := second.types
    exact ⟨xs ++ ys, by rw [second, first, Array.append_assoc]⟩
  items := by
    obtain ⟨xs, first⟩ := first.items
    obtain ⟨ys, second⟩ := second.items
    exact ⟨xs ++ ys, by rw [second, first, Array.append_assoc]⟩

theorem nodes_size_le (grows : Extends old t) : old.nodes.size ≤ t.nodes.size := by
  obtain ⟨more, same⟩ := grows.nodes
  simp [same]

theorem items_size_le (grows : Extends old t) : old.items.size ≤ t.items.size := by
  obtain ⟨more, same⟩ := grows.items
  simp [same]

theorem list (grows : Extends old t) {s : Stretch} {ids : List ExprId}
    (found : old.list s = some ids) : t.list s = some ids := by
  rw [list_eq_some_iff] at found ⊢
  obtain ⟨inside, found⟩ := found
  obtain ⟨more, same⟩ := grows.items
  refine ⟨le_trans inside (by simp [same]), ?_⟩
  rw [same, Array.toList_append, List.drop_append_of_le_length (by simpa using by omega),
    List.take_append_of_le_length (by simp; omega), found]

end Extends

theorem extends_add (t : Tables) (node : Node (List ExprId)) (type : ValueType) :
    Extends t (t.add node type) where
  nodes := ⟨#[t.stored node], by simp [add]⟩
  types := ⟨#[type], by simp [add]⟩
  items := ⟨node.items.toArray, rfl⟩

theorem extends_of_append (entries more : List (Expr × ValueType)) :
    Extends (of entries) (of (entries ++ more)) := by
  induction more using List.reverseRecOn with
  | nil => simpa using Extends.refl (of entries)
  | append_singleton more entry ih =>
      rw [← List.append_assoc, of_append_singleton]
      exact ih.trans (extends_add _ _ _)

theorem sizes_of (entries : List (Expr × ValueType)) :
    (of entries).nodes.size = entries.length ∧ (of entries).types.size = entries.length := by
  induction entries using List.reverseRecOn with
  | nil => exact ⟨rfl, rfl⟩
  | append_singleton entries entry ih => simp [of_append_singleton, add, ih]

/-- What is filed can be read back. -/
theorem map_list_stored (t : Tables) (node : Node (List ExprId)) (type : ValueType)
    (room : (t.add node type).items.size < UInt32.size) :
    (t.stored node).map (t.add node type).list = node.map some := by
  cases node with
  | seq ids =>
      have size : t.items.size + ids.length < UInt32.size := by simpa [add, Node.items] using room
      have start : (UInt32.ofNat t.items.size).toNat = t.items.size :=
        UInt32.toNat_ofNat_of_lt' (by omega)
      have length : (UInt32.ofNat ids.length).toNat = ids.length :=
        UInt32.toNat_ofNat_of_lt' (by omega)
      have found : (t.add (.seq ids) type).list ⟨.ofNat t.items.size, .ofNat ids.length⟩ =
          some ids := by
        rw [list_eq_some_iff]
        simp [add, Node.items, start, length]
      simp only [stored, Node.map, found]
  | _ => rfl

theorem Extends.map_list {old t : Tables} (grows : Extends old t) {filed : Node Stretch}
    {node : Node (List ExprId)} (found : filed.map old.list = node.map some) :
    filed.map t.list = node.map some := by
  cases filed <;> cases node <;> simp_all [Node.map]
  case seq.seq => exact grows.list found

theorem Extends.stored {old t : Tables} (grows : Extends old t) {i : Nat}
    (inside : i < old.nodes.size) : t.nodes[i]? = old.nodes[i]? := by
  obtain ⟨more, same⟩ := grows.nodes
  rw [same, Array.getElem?_append_left inside]

theorem Extends.type {old t : Tables} (grows : Extends old t) {i : Nat}
    (inside : i < old.types.size) : t.types[i]? = old.types[i]? := by
  obtain ⟨more, same⟩ := grows.types
  rw [same, Array.getElem?_append_left inside]

/-- What is filed at a place is the entry that stands there. -/
theorem exists_entry {entries : List (Expr × ValueType)} {i : Nat} {stored : Node Stretch}
    (here : (of entries).nodes[i]? = some stored) (room : (of entries).items.size < UInt32.size) :
    ∃ entry, entries[i]? = some entry ∧ (of entries).types[i]? = some entry.2 ∧
      stored.map (of entries).list = (Node.of entry.1).map some := by
  have inside : i < entries.length := by
    have := (Array.getElem?_eq_some_iff.mp here).1
    rwa [(sizes_of entries).1] at this
  have split : entries = entries.take i ++ [entries[i]] ++ entries.drop (i + 1) := by
    rw [List.take_append_getElem, List.take_append_drop]
  have sizes := sizes_of (entries.take i)
  rw [List.length_take_of_le (by omega)] at sizes
  have grows := extends_of_append (entries.take i ++ [entries[i]]) (entries.drop (i + 1))
  rw [← split, of_append_singleton] at grows
  have same : stored = (of (entries.take i)).stored (.of entries[i].1) := by
    rw [grows.stored (by simp [add, sizes]), add, Array.getElem?_push, if_pos sizes.1.symm] at here
    exact (Option.some.inj here).symm
  refine ⟨entries[i], List.getElem?_eq_getElem inside, ?_, ?_⟩
  · rw [grows.type (by simp [add, sizes]), add, Array.getElem?_push, if_pos sizes.2.symm]
  · rw [same]
    exact grows.map_list (map_list_stored _ _ _ (lt_of_le_of_lt grows.items_size_le room))

/-! ## The tables of an arena -/

theorem getElem?_types_of (entries : List (Expr × ValueType)) (i : Nat) :
    (of entries).types[i]? = entries[i]?.map Prod.snd := by
  induction entries using List.reverseRecOn with
  | nil => rfl
  | append_singleton entries entry ih =>
      rw [of_append_singleton, add, Array.getElem?_push, (sizes_of entries).2, ih,
        List.getElem?_append]
      split <;> grind

theorem push_run (t : Tables) {stored : Node Stretch} {node : Node (List ExprId)}
    (type : ValueType) (same : t.stored node = stored) (plain : node.items = []) :
    push stored type t = .ok (.ofIndex t.nodes.size) (t.add node type) := by
  simp [push, add, same, plain]

end Tables

namespace Arena

variable {arena old : Arena} {expected type : ValueType} {id : ExprId} {e : Expr}

theorem size_tables (arena : Arena) : arena.tables.nodes.size = arena.size :=
  (Tables.sizes_of arena.entries.toList).1

theorem tables_push (arena : Arena) (entry : Expr × ValueType) :
    tables ⟨arena.entries.push entry⟩ = arena.tables.add (.of entry.1) entry.2 := by
  rw [tables, Array.toList_push, Tables.of_append_singleton, tables]

/-- The tables know the type that an entry is filed under. -/
theorem type_tables (arena : Arena) (id : ExprId) :
    arena.tables.type id = (arena.lookup id).map Prod.snd := by
  have size : arena.tables.types.size = arena.size :=
    (Tables.sizes_of arena.entries.toList).2
  have filed : arena.tables.types[id.index]? = arena.entries[id.index]?.map Prod.snd := by
    rw [tables, Tables.getElem?_types_of, Array.getElem?_toList]
  unfold Tables.type
  cases found : arena.lookup id with
  | ok entry =>
      rw [lookup_eq_ok_iff.mp found] at filed
      obtain ⟨inside, same⟩ := Array.getElem?_eq_some_iff.mp filed
      rw [dif_pos inside, same]
      rfl
  | error e =>
      obtain ⟨outside, rfl⟩ := lookup_eq_error_iff.mp found
      rw [dif_neg (by omega), size]
      rfl

theorem require_tables (arena : Arena) (expected : ValueType) (id : ExprId) :
    arena.tables.require expected id = (arena.operand expected id).map fun _ => () := by
  rw [Tables.require, type_tables, operand]
  cases arena.lookup id with
  | error e => rfl
  | ok entry =>
      obtain ⟨e, actual⟩ := entry
      simp only [Except.map, bind, Except.bind]
      cases expected.require actual <;> rfl

theorem forM_require_tables (arena : Arena) (expected : ValueType) (ids : List ExprId) :
    ids.forM (arena.tables.require expected) =
      (ids.mapM (arena.operand expected)).map fun _ => () := by
  induction ids with
  | nil => rfl
  | cons id rest ih =>
      rw [List.mapM_cons]
      change (arena.tables.require expected id >>= fun _ =>
        rest.forM (arena.tables.require expected)) = _
      rw [ih, require_tables]
      cases arena.operand expected id with
      | error e => rfl
      | ok e => cases rest.mapM (arena.operand expected) <;> rfl

end Arena

end Flowgraph
