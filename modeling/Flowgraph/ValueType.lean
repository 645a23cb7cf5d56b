/-! Value types, and which of them may stand where another is expected. -/

namespace Flowgraph

/-- What an expression leaves on the operand stack: a number, a byte string, a value whose type is
only known when it is used, or nothing. -/
inductive ValueType where
  | uint64
  | bytes
  | any
  | none
  deriving DecidableEq

namespace ValueType

def text : ValueType → String
  | uint64 => "uint64"
  | bytes => "bytes"
  | any => "any"
  | none => "none"

/-- Every type but `none` stands for one value on the stack. -/
def producesValue (type : ValueType) : Bool :=
  type != none

/-- `none` goes with itself alone, and `any` with every type that produces a value. -/
def accepts : (expected actual : ValueType) → Bool
  | none, actual => actual == none
  | _, none => false
  | any, _ => true
  | _, any => true
  | expected, actual => expected == actual

theorem accepts_iff (expected actual : ValueType) :
    expected.accepts actual = true ↔
      expected.producesValue = actual.producesValue ∧
        (expected = actual ∨ expected = any ∨ actual = any) := by
  cases expected <;> cases actual <;> decide

theorem any_accepts (actual : ValueType) : any.accepts actual = actual.producesValue := by
  cases actual <;> rfl

theorem none_accepts (actual : ValueType) : none.accepts actual = !actual.producesValue := by
  cases actual <;> rfl

end ValueType

end Flowgraph
