import Mathlib.Tactic
import Flowgraph.Machine
import Flowgraph.Expr.Layout

/-! # Ways through a graph

A graph that holds a list of blocks runs them wherever in the graph they lie. `Leaves` follows
control to the edge behind a given block. `Ends` follows it to where there is nothing left to run,
and counts the blocks on the way, which is what an induction over the turns of a loop goes by. -/

namespace Flowgraph.Graph

variable {σ : Type} {g : Graph} {m : Machine σ}

/-! ## Blocks of a graph -/

/-- The graph has the blocks from position `start` on. -/
def Holds (g : Graph) (start : Nat) (blocks : List Block) : Prop :=
  ∀ i block, blocks[i]? = some block → g.blocks[(BlockId.ofIndex (start + i)).index]? = some block

section

variable {start : Nat} {block : Block} {front rest : List Block}

theorem Holds.left (holds : g.Holds start (front ++ rest)) : g.Holds start front := by
  intro i block found
  have inside := (List.getElem?_eq_some_iff.mp found).1
  exact holds i block (by rw [List.getElem?_append_left inside, found])

theorem Holds.right (holds : g.Holds start (front ++ rest)) :
    g.Holds (start + front.length) rest := by
  intro i block found
  rw [Nat.add_assoc]
  refine holds _ block ?_
  rw [List.getElem?_append_right (by omega), Nat.add_sub_cancel_left, found]

theorem Holds.head (holds : g.Holds start (block :: rest)) :
    g.blocks[(BlockId.ofIndex start).index]? = some block :=
  holds 0 block rfl

theorem Holds.tail (holds : g.Holds start (block :: rest)) : g.Holds (start + 1) rest := by
  rw [← List.singleton_append] at holds
  exact holds.right

theorem Holds.second {first : Block} (holds : g.Holds start (first :: block :: rest)) :
    g.blocks[(BlockId.ofIndex (start + 1)).index]? = some block :=
  holds 1 block rfl

end

/-! ## Leaving blocks -/

theorem Path.trans {a b c : BlockId} {s s₁ s₂ : σ} {trace more : List Instr}
    (first : g.Path m a s trace b s₁) (second : g.Path m b s₁ more c s₂) :
    g.Path m a s (trace ++ more) c s₂ := by
  induction first with
  | here => exact second
  | jump block ran rest ih =>
      rw [List.append_assoc]
      exact .jump block ran (ih second)
  | branch answer block ran tested rest ih =>
      rw [List.append_assoc]
      exact .branch answer block ran tested (ih second)

/-- A run from the start of `source` to the end of `last` and on to `next`, or to nowhere. -/
inductive Leaves (g : Graph) (m : Machine σ) (source last : BlockId) (next : Option BlockId) :
    σ → List Instr → σ → Prop where
  | mk {s trace s₁ instrs s₂} (path : g.Path m source s trace last s₁)
      (found : g.blocks[last.index]? = some ⟨instrs, .toward next⟩)
      (ran : m.run instrs s₁ = some s₂) : Leaves g m source last next s (trace ++ instrs) s₂

section

variable {source middle last target : BlockId} {next : Option BlockId} {s s₁ s₂ : σ}
  {instrs trace more : List Instr}

theorem Leaves.single (found : g.blocks[last.index]? = some ⟨instrs, .toward next⟩)
    (ran : m.run instrs s = some s₁) : g.Leaves m last last next s instrs s₁ :=
  .mk (.here last s) found ran

theorem Leaves.behind (path : g.Path m source s trace middle s₁)
    (leaves : g.Leaves m middle last next s₁ more s₂) :
    g.Leaves m source last next s (trace ++ more) s₂ := by
  obtain ⟨rest, found, ran⟩ := leaves
  rw [← List.append_assoc]
  exact .mk (path.trans rest) found ran

theorem Leaves.path (leaves : g.Leaves m source last (some target) s trace s₁) :
    g.Path m source s trace target s₁ := by
  obtain ⟨path, found, ran⟩ := leaves
  have edge := Path.jump found ran (.here target s₁)
  rw [List.append_nil] at edge
  exact path.trans edge

theorem Leaves.run {fragment : Fragment}
    (leaves : g.Leaves m fragment.entry fragment.exit next s trace s₁) :
    g.Run m fragment s trace s₁ := by
  obtain ⟨path, found, ran⟩ := leaves
  exact .mk path found ran

end

/-! ## Coming to an end -/

/-- Control ends `n` blocks behind a place, which is the start of a block or the end itself. -/
inductive Ends (g : Graph) (m : Machine σ) :
    (n : Nat) → Option BlockId → σ → List Instr → σ → Prop where
  | done (s) : Ends g m 0 none s [] s
  | on {n source instrs next s s₁ trace s₂}
      (block : g.blocks[source.index]? = some ⟨instrs, .toward next⟩)
      (ran : m.run instrs s = some s₁) (rest : Ends g m n next s₁ trace s₂) :
      Ends g m (n + 1) (some source) s (instrs ++ trace) s₂
  | branch {n source instrs onTrue onFalse s s₁ s₂ trace s₃} (answer : Bool)
      (block : g.blocks[source.index]? = some ⟨instrs, .branch onTrue onFalse⟩)
      (ran : m.run instrs s = some s₁) (tested : m.test answer s₁ = some s₂)
      (rest : Ends g m n (some (bif answer then onTrue else onFalse)) s₂ trace s₃) :
      Ends g m (n + 1) (some source) s (instrs ++ trace) s₃

section

variable {n : Nat} {source onTrue onFalse : BlockId} {next : Option BlockId} {s s₁ s₂ : σ}
  {instrs trace more : List Instr}

theorem Ends.of_none (ends : g.Ends m n none s trace s₁) : trace = [] ∧ s₁ = s := by
  cases ends
  exact ⟨rfl, rfl⟩

theorem Ends.of_toward (ends : g.Ends m n (some source) s trace s₂)
    (block : g.blocks[source.index]? = some ⟨instrs, .toward next⟩) :
    ∃ k s₁ rest, n = k + 1 ∧ m.run instrs s = some s₁ ∧ g.Ends m k next s₁ rest s₂ ∧
      trace = instrs ++ rest := by
  cases ends with
  | on found ran rest =>
      rw [block, Option.some.injEq, Block.mk.injEq] at found
      obtain ⟨rfl, edge⟩ := found
      cases Edge.toward_injective edge
      exact ⟨_, _, _, rfl, ran, rest, rfl⟩
  | branch answer found ran tested rest =>
      rw [block, Option.some.injEq, Block.mk.injEq] at found
      cases next <;> cases found.2

theorem Ends.of_branch (ends : g.Ends m n (some source) s trace s₂)
    (block : g.blocks[source.index]? = some ⟨[], .branch onTrue onFalse⟩) :
    ∃ k answer s₁, n = k + 1 ∧ m.test answer s = some s₁ ∧
      g.Ends m k (some (bif answer then onTrue else onFalse)) s₁ trace s₂ := by
  cases ends with
  | @on _ _ _ next _ _ _ _ found ran rest =>
      rw [block, Option.some.injEq, Block.mk.injEq] at found
      cases next <;> cases found.2
  | branch answer found ran tested rest =>
      rw [block, Option.some.injEq, Block.mk.injEq] at found
      obtain ⟨rfl, edge⟩ := found
      cases edge
      cases ran
      exact ⟨_, answer, _, rfl, tested, rest⟩

theorem Path.ends {last : BlockId} (path : g.Path m source s trace last s₁)
    (ends : g.Ends m n (some last) s₁ more s₂) :
    ∃ k, g.Ends m k (some source) s (trace ++ more) s₂ := by
  induction path with
  | here => exact ⟨n, ends⟩
  | @jump _ _ target _ _ _ _ _ block ran rest ih =>
      obtain ⟨k, ends⟩ := ih ends
      rw [List.append_assoc]
      have block : g.blocks[_]? = some (Block.mk _ (.toward (some target))) := block
      exact ⟨k + 1, .on block ran ends⟩
  | branch answer block ran tested rest ih =>
      obtain ⟨k, ends⟩ := ih ends
      rw [List.append_assoc]
      exact ⟨k + 1, .branch answer block ran tested ends⟩

/-- A run of a fragment comes to an end if nothing follows the exit. -/
theorem Run.ends {fragment : Fragment} (run : g.Run m fragment s trace s₁)
    (exit : g.blocks[fragment.exit.index]? = some ⟨instrs, .none⟩) :
    ∃ k, g.Ends m k (some fragment.entry) s trace s₁ := by
  obtain ⟨path, found, ran⟩ := run
  rw [exit, Option.some.injEq] at found
  subst found
  have block : g.blocks[_]? = some (Block.mk instrs (.toward none)) := exit
  have last := Ends.on block ran (.done _)
  rw [List.append_nil] at last
  exact path.ends last

end

end Flowgraph.Graph
