import Flowgraph.Expr
import Flowgraph.Action

/-! Arenas: expressions under the identities they are referred to by. A node is checked against the
operands it names when it is built, so that lowering need not check anything. -/

namespace Flowgraph

/-- Where a load reads or a store writes: a slot fixed in advance, or the slot whose number an
expression evaluates to. -/
inductive Target where
  | direct (slot : Slot)
  | indirect (index : ExprId)
  deriving DecidableEq

namespace Target

/-- Exactly one of the two parts has to be there. -/
def ofParts : Option Slot → Option ExprId → Except Error Target
  | some slot, none => .ok (direct slot)
  | none, some index => .ok (indirect index)
  | _, _ => .error (.internal .ambiguousTarget)

def slot? : Target → Option Slot
  | direct slot => some slot
  | indirect _ => none

end Target

structure Arena where
  /-- Every expression with its value type, in the order in which they were built. -/
  entries : Array (Expr × ValueType) := #[]

namespace Arena

def size (arena : Arena) : Nat :=
  arena.entries.size

def lookup (arena : Arena) (id : ExprId) : Except Failure (Expr × ValueType) :=
  if h : id.index < arena.entries.size then
    .ok arena.entries[id.index]
  else
    .error (.outOfRange arena.entries.size id.index)

/-- The expression `id` as an operand in a place for values of type `expected`. -/
def operand (arena : Arena) (expected : ValueType) (id : ExprId) : Except Failure Expr := do
  let (expr, actual) ← arena.lookup id
  match expected.require actual with
  | .ok _ => pure expr
  | .error e => throw (.error e)

/-- Appends the node that `plan` makes of the arena. Where `plan` fails, the arena stays as it
is. -/
@[inline] def insert (plan : Arena → Except Failure (ExprId → Expr × ValueType)) :
    Action Arena ExprId := fun arena =>
  match plan arena with
  | .ok node =>
      let id := ExprId.ofIndex arena.entries.size
      .ok id ⟨arena.entries.push (node id)⟩
  | .error e => .error e arena

/-! ## Nodes -/

def int (value : UInt64) : Action Arena ExprId :=
  insert fun _ => pure fun id => (.int id value, .uint64)

def bytes (value : List UInt8) : Action Arena ExprId :=
  insert fun _ => pure fun id => (.bytes id value, .bytes)

/-- Every item but the last has to leave nothing behind; the sequence has the last one's type. -/
def seq (items : List ExprId) : Action Arena ExprId :=
  insert fun arena => do
    let silent ← items.dropLast.mapM (arena.operand .none)
    match items.getLast? with
    | none => pure fun id => (.seq id [], .none)
    | some item =>
        let (last, type) ← arena.lookup item
        pure fun id => (.seq id (silent ++ [last]), type)

def loop (cond body : ExprId) : Action Arena ExprId :=
  insert fun arena => do
    let cond ← arena.operand .uint64 cond
    let body ← arena.operand .none body
    pure fun id => (.loop id cond body, .none)

def jump (kind : LoopJump) : Action Arena ExprId :=
  insert fun _ => pure fun id => (.jump id kind, .none)

def slotNumber (slot : Slot) : Action Arena ExprId :=
  insert fun _ => pure fun id => (.slotNumber id slot, .uint64)

/-- The declared type is the caller's word: no slot has a type of its own. -/
def load (target : Target) (type : ValueType) : Action Arena ExprId :=
  insert fun arena =>
    match target with
    | .direct slot => pure fun id => (.load id slot type, type)
    | .indirect index => do
        let index ← arena.operand .uint64 index
        pure fun id => (.loadAt id index type, type)

def store (target : Target) (value : ExprId) : Action Arena ExprId :=
  insert fun arena =>
    match target with
    | .direct slot => do
        let value ← arena.operand .any value
        pure fun id => (.store id slot value, .none)
    | .indirect index => do
        let index ← arena.operand .uint64 index
        let value ← arena.operand .any value
        pure fun id => (.storeAt id index value, .none)

def storeTop (slot : Slot) : Action Arena ExprId :=
  insert fun _ => pure fun id => (.storeTop id slot, .none)

/-- Stores a value where there is one, and the top of the stack otherwise. To store the top of the
stack through an index, the index would have to lie below a value that is there already, so that
form is for a fixed slot only. -/
def storeOrTop (target : Target) (value : Option ExprId) : Action Arena ExprId :=
  match value, target with
  | some value, target => store target value
  | none, .direct slot => storeTop slot
  | none, .indirect index => .fail (.internal (.stackStoreThroughIndex index))

/-! ## Elementary laws -/

theorem lookup_eq_ok_iff {arena : Arena} {id : ExprId} {entry : Expr × ValueType} :
    arena.lookup id = .ok entry ↔ arena.entries[id.index]? = some entry := by
  unfold lookup
  split <;> simp_all

theorem lookup_eq_error_iff {arena : Arena} {id : ExprId} {e : Failure} :
    arena.lookup id = .error e ↔ arena.size ≤ id.index ∧ e = .outOfRange arena.size id.index := by
  unfold lookup size
  split <;> grind

theorem insert_run {plan : Arena → Except Failure (ExprId → Expr × ValueType)} {arena : Arena}
    {node : ExprId → Expr × ValueType} (planned : plan arena = .ok node) :
    insert plan arena =
      .ok (.ofIndex arena.size) ⟨arena.entries.push (node (.ofIndex arena.size))⟩ := by
  simp [insert, planned, size]

end Arena

end Flowgraph
