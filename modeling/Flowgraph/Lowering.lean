import Flowgraph.Expr.Arena
import Flowgraph.Program

/-! Lowering: every expression becomes a fragment that leaves the expression's value, if it has one,
on the operand stack.

Operands run before the instruction that uses them, each fragment's exit being linked to the next
one's entry. A loop becomes

    cond → branch → (true) body → back to cond
                  → (false) exit

where a jump in the condition or the body goes to the exit or to the start of the condition. -/

namespace Flowgraph

namespace Context

/-- Puts `next` behind `head`, if there is a head. -/
def link : Option Fragment → Fragment → Action Context Fragment
  | none, next => pure next
  | some head, next => do
      setNext head.exit next.entry
      return ⟨head.entry, next.exit⟩

/-- A block for one instruction, behind the operands lowered so far. -/
def emit (head : Option Fragment) (instr : Instr) : Action Context Fragment := do
  let block ← addBlock ⟨[instr], .none⟩
  link head (.single block)

/-- An empty block, where there is nothing else. -/
def orEmpty : Option Fragment → Action Context Fragment
  | some fragment => pure fragment
  | none => do
      let block ← addBlock .empty
      return .single block

/-- Turns a lowered condition and body into a loop with an exit of its own. -/
def wireLoop (cond body : Fragment) : Action Context Fragment := do
  let exit ← addBlock .empty
  let branch ← addBlock ⟨[], .branch body.entry exit⟩
  setNext cond.exit branch
  setNext body.exit cond.entry
  let _ ← closeLoop exit cond.entry
  return ⟨cond.entry, exit⟩

end Context

namespace Expr

open Context

mutual

def lower : Expr → Action Context Fragment
  | .int id value => emit none ⟨.int, [.uint value], id⟩
  | .bytes id value => emit none ⟨.byte, [.bytes value], id⟩
  | .seq _ items => do
      let items ← lowerAll none items
      orEmpty items
  | .loop id cond body => do
      openLoop id
      let cond ← cond.lower
      let body ← body.lower
      wireLoop cond body
  | .jump id kind => do
      let anchor ← addAnchor kind id
      return .single anchor
  | .slotNumber id slot => emit none ⟨.int, [.slot slot], id⟩
  | .load id slot _ => emit none ⟨.load, [.slot slot], id⟩
  | .loadAt id index _ => do
      let index ← index.lower
      emit (some index) ⟨.loads, [], id⟩
  | .store id slot value => do
      let value ← value.lower
      emit (some value) ⟨.store, [.slot slot], id⟩
  | .storeAt id index value => do
      let index ← index.lower
      let value ← value.lower
      let operands ← link (some index) value
      emit (some operands) ⟨.stores, [], id⟩
  | .storeTop id slot => emit none ⟨.store, [.slot slot], id⟩

/-- Trees one behind the other, the first behind those lowered so far. Nothing comes of no tree. -/
def lowerAll : Option Fragment → List Expr → Action Context (Option Fragment)
  | head, [] => pure head
  | head, item :: rest => do
      let next ← item.lower
      let head ← link head next
      lowerAll (some head) rest

end

end Expr

namespace Arena

open Context

/-- Lowers the expression `id` and all it is made of. -/
def lower (arena : Arena) (id : ExprId) : Action Context Fragment := fun cx =>
  match arena.lookup id with
  | .ok (expr, _) => expr.lower cx
  | .error e => .error e cx

/-- Lowers the operands in order and puts an instruction behind them. -/
def chain (arena : Arena) (instr : Instr) (operands : List ExprId) : Action Context Fragment := do
  let head ← operands.foldlM (fun head id => do
    let next ← arena.lower id
    some <$> link head next) none
  emit head instr

/-- Lowers a whole program and ends the compilation. -/
def compile (arena : Arena) (root : ExprId) (cx : Context) : Except Failure Program :=
  match arena.lower root cx with
  | .ok fragment cx => (cx.finish fragment).mapError .error
  | .error e _ => .error e

end Arena

end Flowgraph
