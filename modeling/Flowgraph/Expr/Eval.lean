import Flowgraph.Expr.Postorder
import Flowgraph.Machine

/-! The meaning of a tree: structured evaluation on a machine, without blocks or addresses. -/

namespace Flowgraph.Expr

variable {σ : Type}

mutual

/-- Evaluation of a tree takes one state to another and runs the instructions of its trace. It ends
normally, or with a jump that the tree's surroundings have to take. -/
inductive Eval (m : Machine σ) : Expr → σ → List Instr → Option LoopJump → σ → Prop where
  | instr {e instr s trace s₁ s₂} (own : e.ownInstr = some instr)
      (operands : EvalAll m e.children s trace none s₁) (ran : m.step instr s₁ = some s₂) :
      Eval m e s (trace ++ [instr]) none s₂
  /-- An operand jumps, and the instruction is never reached. -/
  | abandoned {e instr s trace jump s₁} (own : e.ownInstr = some instr)
      (operands : EvalAll m e.children s trace (some jump) s₁) :
      Eval m e s trace (some jump) s₁
  | seq {id items s trace outcome s₁} (all : EvalAll m items s trace outcome s₁) :
      Eval m (.seq id items) s trace outcome s₁
  | jump (id kind s) : Eval m (.jump id kind) s [] (some kind) s
  /-- The condition is zero. -/
  | done {id cond body s trace s₁ s₂} (first : Eval m cond s trace none s₁)
      (zero : m.test false s₁ = some s₂) :
      Eval m (.loop id cond body) s trace none s₂
  /-- The body ends in order, or goes back to the condition on its own account. -/
  | again {id cond body s trace s₁ s₂ trace₁ outcome s₃ trace₂ s₄}
      (first : Eval m cond s trace none s₁) (nonzero : m.test true s₁ = some s₂)
      (inside : Eval m body s₂ trace₁ outcome s₃) (stays : outcome ≠ some .exit)
      (rest : Eval m (.loop id cond body) s₃ trace₂ none s₄) :
      Eval m (.loop id cond body) s (trace ++ trace₁ ++ trace₂) none s₄
  | left {id cond body s trace s₁ s₂ trace₁ s₃}
      (first : Eval m cond s trace none s₁) (nonzero : m.test true s₁ = some s₂)
      (inside : Eval m body s₂ trace₁ (some .exit) s₃) :
      Eval m (.loop id cond body) s (trace ++ trace₁) none s₃
  /-- The condition itself leaves the loop. -/
  | leftEarly {id cond body s trace s₁} (first : Eval m cond s trace (some .exit) s₁) :
      Eval m (.loop id cond body) s trace none s₁
  /-- The condition starts over. -/
  | againEarly {id cond body s trace s₁ trace₁ s₂}
      (first : Eval m cond s trace (some .reenter) s₁)
      (rest : Eval m (.loop id cond body) s₁ trace₁ none s₂) :
      Eval m (.loop id cond body) s (trace ++ trace₁) none s₂

/-- One tree behind the other, up to the first that jumps. -/
inductive EvalAll (m : Machine σ) :
    List Expr → σ → List Instr → Option LoopJump → σ → Prop where
  | nil (s) : EvalAll m [] s [] none s
  | cons {e rest s trace s₁ trace₁ outcome s₂} (first : Eval m e s trace none s₁)
      (others : EvalAll m rest s₁ trace₁ outcome s₂) :
      EvalAll m (e :: rest) s (trace ++ trace₁) outcome s₂
  | jump {e rest s trace kind s₁} (first : Eval m e s trace (some kind) s₁) :
      EvalAll m (e :: rest) s trace (some kind) s₁

end

end Flowgraph.Expr
