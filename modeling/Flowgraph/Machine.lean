import Flowgraph.Graph

/-! Abstract machines, and the runs of a graph on them.

A machine says what an instruction and a branch test do to its state, and that is all lowering may
assume of it: every law about what a program does holds for each machine. -/

namespace Flowgraph

structure Machine (σ : Type) where
  /-- The state behind an instruction, unless the machine gets stuck on it. -/
  step : Instr → σ → Option σ
  /-- The state behind a branch test that comes out as given, if it can come out so. -/
  test : Bool → σ → Option σ

namespace Machine

variable {σ : Type}

/-- Runs instructions one behind the other. -/
def run (m : Machine σ) : List Instr → σ → Option σ
  | [], s => some s
  | instr :: rest, s => (m.step instr s).bind (m.run rest)

theorem run_append (m : Machine σ) (first second : List Instr) (s : σ) :
    m.run (first ++ second) s = (m.run first s).bind (m.run second) := by
  induction first generalizing s with
  | nil => rfl
  | cons instr rest ih =>
      simp only [List.cons_append, run, Option.bind_assoc]
      exact congrArg _ (funext ih)

end Machine

namespace Graph

variable {σ : Type}

/-- Control passes from the start of one block to the start of another. The trace lists the
instructions that run on the way. -/
inductive Path (g : Graph) (m : Machine σ) : BlockId → σ → List Instr → BlockId → σ → Prop where
  | here (at_ s) : Path g m at_ s [] at_ s
  | jump {source instrs target s s₁ trace last s₂}
      (block : g.blocks[source.index]? = some ⟨instrs, .jump target⟩)
      (ran : m.run instrs s = some s₁) (rest : Path g m target s₁ trace last s₂) :
      Path g m source s (instrs ++ trace) last s₂
  | branch {source instrs onTrue onFalse s s₁ s₂ trace last s₃} (answer : Bool)
      (block : g.blocks[source.index]? = some ⟨instrs, .branch onTrue onFalse⟩)
      (ran : m.run instrs s = some s₁) (tested : m.test answer s₁ = some s₂)
      (rest : Path g m (bif answer then onTrue else onFalse) s₂ trace last s₃) :
      Path g m source s (instrs ++ trace) last s₃

/-- A run of a fragment, from the start of its entry to the end of its exit. -/
inductive Run (g : Graph) (m : Machine σ) (fragment : Fragment) : σ → List Instr → σ → Prop where
  | mk {s trace s₁ block s₂} (path : Path g m fragment.entry s trace fragment.exit s₁)
      (found : g.blocks[fragment.exit.index]? = some block)
      (ran : m.run block.instrs s₁ = some s₂) :
      Run g m fragment s (trace ++ block.instrs) s₂

end Graph

end Flowgraph
