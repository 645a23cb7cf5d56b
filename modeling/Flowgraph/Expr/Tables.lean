import Flowgraph.Expr.Construction

/-! An arena as flat tables: one of the nodes, each with its operands by identity, one of their
types, and one of the items of sequences. The items of one sequence stand side by side, and its node
names the stretch that they take up. -/

namespace Flowgraph

/-- A stretch of a table. -/
structure Stretch where
  start : UInt32
  length : UInt32
  deriving DecidableEq

/-- A node by itself, with its operands by identity. The items of a sequence are given by an `ι`. -/
inductive Node (ι : Type) where
  | int (value : UInt64)
  | bytes (value : List UInt8)
  | seq (items : ι)
  | loop (cond body : ExprId)
  | jump (kind : LoopJump)
  | slotNumber (slot : Slot)
  | load (target : Target) (type : ValueType)
  | store (target : Target) (value : ExprId)
  | storeTop (slot : Slot)
  deriving DecidableEq

namespace Node

variable {ι κ : Type}

def map (f : ι → κ) : Node ι → Node κ
  | int value => int value
  | bytes value => bytes value
  | seq items => seq (f items)
  | loop cond body => loop cond body
  | jump kind => jump kind
  | slotNumber slot => slotNumber slot
  | load target type => load target type
  | store target value => store target value
  | storeTop slot => storeTop slot

/-- The node at the root of a tree. -/
def of : Expr → Node (List ExprId)
  | .int _ value => int value
  | .bytes _ value => bytes value
  | .seq _ items => seq (items.map Expr.id)
  | .loop _ cond body => loop cond.id body.id
  | .jump _ kind => jump kind
  | .slotNumber _ slot => slotNumber slot
  | .load _ slot type => load (.direct slot) type
  | .loadAt _ index type => load (.indirect index.id) type
  | .store _ slot value => store (.direct slot) value.id
  | .storeAt _ index value => store (.indirect index.id) value.id
  | .storeTop _ slot => storeTop slot

/-- The operands of a node, in the order in which they are evaluated. -/
def operands : Node (List ExprId) → List ExprId
  | seq items => items
  | loop cond body => [cond, body]
  | load (.indirect index) _ => [index]
  | store (.direct _) value => [value]
  | store (.indirect index) value => [index, value]
  | _ => []

def items : Node (List ExprId) → List ExprId
  | seq items => items
  | _ => []

theorem operands_of (e : Expr) : (of e).operands = e.children.map Expr.id := by
  cases e <;> rfl

end Node

structure Tables where
  nodes : Array (Node Stretch) := #[]
  types : Array ValueType := #[]
  /-- The items of all sequences, in the order in which the sequences were built. -/
  items : Array ExprId := #[]

namespace Tables

/-- What stands in a stretch of the table of items, unless it ends behind the table. -/
def list (t : Tables) (s : Stretch) : Option (List ExprId) :=
  if s.start.toNat + s.length.toNat ≤ t.items.size then
    some ((t.items.toList.drop s.start.toNat).take s.length.toNat)
  else
    none

def type (t : Tables) (id : ExprId) : Except Failure ValueType :=
  if h : id.index < t.types.size then
    .ok t.types[id.index]
  else
    .error (.outOfRange t.types.size id.index)

/-- The node `id` is fit for a place for values of type `expected`. -/
def require (t : Tables) (expected : ValueType) (id : ExprId) : Except Failure Unit := do
  let actual ← t.type id
  match expected.require actual with
  | .ok _ => pure ()
  | .error e => throw (.error e)

/-- A slot is addressed by a number. -/
def requireTarget (t : Tables) : Target → Except Failure Unit
  | .direct _ => pure ()
  | .indirect index => t.require .uint64 index

/-- The type of a sequence, whose items but for the last have to leave nothing behind. -/
def seqType (t : Tables) (ids : List ExprId) : Except Failure ValueType := do
  ids.dropLast.forM (t.require .none)
  match ids.getLast? with
  | none => pure .none
  | some last => t.type last

/-! ## Calls -/

def push (node : Node Stretch) (type : ValueType) : Action Tables ExprId
  | ⟨nodes, types, items⟩ =>
    .ok (.ofIndex nodes.size) ⟨nodes.push node, types.push type, items⟩

def pushItems (ids : List ExprId) : Action Tables Stretch
  | ⟨nodes, types, items⟩ =>
    .ok ⟨.ofNat items.size, .ofNat ids.length⟩ ⟨nodes, types, items ++ ids.toArray⟩

def seq (ids : List ExprId) : Action Tables ExprId := do
  -- A sequence that is refused must not leave items behind, so the table of items comes last.
  let type ← .consult fun t => t.seqType ids
  let stretch ← pushItems ids
  push (.seq stretch) type

def loop (cond body : ExprId) : Action Tables ExprId := do
  .consult fun t => do
    t.require .uint64 cond
    t.require .none body
  push (.loop cond body) .none

def load (target : Target) (type : ValueType) : Action Tables ExprId := do
  .consult fun t => t.requireTarget target
  push (.load target type) type

def store (target : Target) (value : ExprId) : Action Tables ExprId := do
  .consult fun t => do
    t.requireTarget target
    t.require .any value
  push (.store target value) .none

def storeTop (slot : Slot) : Action Tables ExprId :=
  push (.storeTop slot) .none

/-- Files the node that a call asks for. -/
def file : Arena.Call → Action Tables ExprId
  | .int value => push (.int value) .uint64
  | .bytes value => push (.bytes value) .bytes
  | .seq ids => seq ids
  | .loop cond body => loop cond body
  | .jump kind => push (.jump kind) .none
  | .slotNumber slot => push (.slotNumber slot) .uint64
  | .load target type => load target type
  | .store target value => store target value
  | .storeTop slot => storeTop slot
  | .storeOrTop target (some value) => store target value
  | .storeOrTop (.direct slot) none => storeTop slot
  | .storeOrTop (.indirect index) none => .fail (.internal (.stackStoreThroughIndex index))

/-- The tables behind calls, whether they fail or not. -/
def fileAll (calls : List Arena.Call) (t : Tables) : Tables :=
  Action.afterSeries (calls.map file) t

/-! ## The tables of an arena -/

/-- A node as it is filed next. -/
def stored (t : Tables) (node : Node (List ExprId)) : Node Stretch :=
  node.map fun ids => ⟨.ofNat t.items.size, .ofNat ids.length⟩

def add (t : Tables) (node : Node (List ExprId)) (type : ValueType) : Tables where
  nodes := t.nodes.push (t.stored node)
  types := t.types.push type
  items := t.items ++ node.items.toArray

def of (entries : List (Expr × ValueType)) : Tables :=
  entries.foldl (fun t entry => t.add (.of entry.1) entry.2) {}

theorem of_append_singleton (entries : List (Expr × ValueType)) (entry : Expr × ValueType) :
    of (entries ++ [entry]) = (of entries).add (.of entry.1) entry.2 := by
  simp [of]

end Tables

namespace Arena

def tables (arena : Arena) : Tables :=
  .of arena.entries.toList

/-- The arena behind calls, whether they fail or not. -/
def Call.runAll (calls : List Call) (arena : Arena) : Arena :=
  Action.afterSeries (calls.map Call.run) arena

theorem tables_empty : tables {} = {} :=
  rfl

theorem Call.runAll_append (calls more : List Call) (arena : Arena) :
    runAll (calls ++ more) arena = runAll more (runAll calls arena) := by
  rw [runAll, List.map_append, Action.afterSeries_append, runAll, runAll]

/-- The node that a call asks for. A store that leaves open whether there is a value is one of two
others, and through an index there is no store of the stack's top to ask for. -/
def Call.node : Call → Option (Node (List ExprId))
  | int value => some (.int value)
  | bytes value => some (.bytes value)
  | seq items => some (.seq items)
  | loop cond body => some (.loop cond body)
  | jump kind => some (.jump kind)
  | slotNumber slot => some (.slotNumber slot)
  | load target type => some (.load target type)
  | store target value => some (.store target value)
  | storeTop slot => some (.storeTop slot)
  | storeOrTop target (some value) => some (.store target value)
  | storeOrTop (.direct slot) none => some (.storeTop slot)
  | storeOrTop (.indirect _) none => none

end Arena

end Flowgraph
