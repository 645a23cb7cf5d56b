import Flowgraph.ValueType
import Flowgraph.Id
import Flowgraph.LoopJump

/-! What can go wrong while a tree is built or lowered, by cause, with its wording.

An `Error` is a finding about the input or the compiler. A `Failure` is an error or the use of an
identity that its table does not hold. -/

namespace Flowgraph

/-- A broken invariant of the compiler itself. -/
inductive Fault where
  | slotsExhausted
  | ambiguousTarget
  | stackStoreThroughIndex (index : ExprId)
  | fallThroughOfBranch (block : BlockId)
  | cycle (block : BlockId)
  | deadEnd (block exit : BlockId)
  | branchInside (block : BlockId)
  | noOpenLoop
  | loopsLeftOpen (count : Nat) (innermost : ExprId)
  /-- A fault that another stage reports in its own words. -/
  | other (text : String) (node : Option ExprId)
  deriving DecidableEq

namespace Fault

def text : Fault → String
  | slotsExhausted => "scratch slot ids exhausted"
  | ambiguousTarget => "exactly one of slot or index expression must be provided"
  | stackStoreThroughIndex _ => "stack store is only supported for static slots"
  | fallThroughOfBranch block =>
      "cannot set fall-through successor of branching block " ++ block.text
  | cycle block => "cycle at " ++ block.text ++ " while walking straight-line fragment"
  | deadEnd block exit => block.text ++ " ends before reaching fragment exit " ++ exit.text
  | branchInside block => "branch at " ++ block.text ++ " inside straight-line fragment"
  | noOpenLoop => "exit_loop called with no active loop"
  | loopsLeftOpen count _ => toString count ++ " loop frame(s) left open after lowering"
  | other text _ => text

def node : Fault → Option ExprId
  | stackStoreThroughIndex index => some index
  | loopsLeftOpen _ innermost => some innermost
  | other _ node => node
  | _ => none

end Fault

/-- Whose mistake an error is: the caller's, the program's, or the compiler's own. -/
inductive ErrorKind where
  | input
  | compile
  | internal
  deriving DecidableEq

inductive Error where
  | invalidSlot (requested : Int) (numSlots : UInt32)
  | typeMismatch (expected actual : ValueType)
  | jumpOutsideLoop (jump : LoopJump) (node : ExprId)
  | internal (fault : Fault)
  deriving DecidableEq

namespace Error

def kind : Error → ErrorKind
  | invalidSlot .. | typeMismatch .. => .input
  | jumpOutsideLoop .. => .compile
  | internal _ => .internal

/-- Codes are grouped by kind: 01 input, 02 compile, 90 internal. -/
def code : Error → String
  | invalidSlot .. => "E0101"
  | typeMismatch .. => "E0102"
  | jumpOutsideLoop .exit _ => "E0201"
  | jumpOutsideLoop .reenter _ => "E0202"
  | internal _ => "E9001"

/-- The expression an error points at, if it points at one. -/
def node : Error → Option ExprId
  | jumpOutsideLoop _ node => some node
  | internal fault => fault.node
  | _ => none

private def nodeSuffix : Option ExprId → String
  | some node => " (node " ++ node.text ++ ")"
  | none => ""

def message : Error → String
  | invalidSlot requested numSlots =>
      "invalid slot id " ++ toString requested ++
        ", should be in [0, " ++ toString numSlots.toNat ++ ")"
  | typeMismatch expected actual =>
      "type mismatch: expected " ++ expected.text ++ ", got " ++ actual.text
  | jumpOutsideLoop jump node =>
      jump.keyword ++ " is only allowed in a loop" ++ nodeSuffix (some node)
  | internal fault => "internal compiler error: " ++ fault.text ++ nodeSuffix fault.node

end Error

/-- Why an operation has no result. -/
inductive Failure where
  | error (e : Error)
  /-- An identity was looked up that lies beyond the end of its table. -/
  | outOfRange (size index : Nat)
  deriving DecidableEq

def Failure.message : Failure → String
  | error e => e.message
  | outOfRange size index =>
      "index out of bounds: the len is " ++ toString size ++
        " but the index is " ++ toString index

/-- Refuses a value of a type that does not fit the place it is used in. -/
def ValueType.require (expected actual : ValueType) : Except Error Unit :=
  if expected.accepts actual then .ok () else .error (.typeMismatch expected actual)

end Flowgraph
