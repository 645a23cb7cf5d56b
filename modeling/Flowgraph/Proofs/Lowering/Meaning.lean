import Flowgraph.Expr.Eval
import Flowgraph.Proofs.Graph.Paths
import Flowgraph.Proofs.Lowering.Outcome

/-! # Lowering keeps the meaning of a tree

A graph that holds the layout of a tree does what structured evaluation says. From evaluations to
runs the induction is on the evaluation, from runs to evaluations on the tree, and inside a loop on
the number of blocks that are still to be run. -/

namespace Flowgraph

namespace Expr

variable {σ : Type} {g : Graph} {m : Machine σ} {start : Nat} {next : Option BlockId}
  {targets : LoopJump → Option BlockId} {s s₁ s₂ s₃ : σ} {trace trace₁ trace₂ : List Instr}
  {outcome : Option LoopJump} {e item cond body : Expr} {items rest : List Expr} {id : ExprId}

/-! ## Layouts in a graph -/

theorem holds_of_ownInstr {instr : Instr} (own : e.ownInstr = some instr)
    (holds : g.Holds start (e.layout start next targets)) :
    g.Holds start
        (layoutAll start (some (.ofIndex (start + blockCountAll e.children))) targets e.children) ∧
      g.blocks[(BlockId.ofIndex (start + blockCountAll e.children)).index]? =
        some ⟨[instr], .toward next⟩ := by
  rw [layout_of_ownInstr _ _ _ own] at holds
  have block := holds.right.head
  rw [length_layoutAll] at block
  exact ⟨holds.left, block⟩

theorem holds_cons_cons {second : Expr}
    (holds : g.Holds start (layoutAll start next targets (item :: second :: rest))) :
    g.Holds start (item.layout start (some (.ofIndex (start + item.blockCount))) targets) ∧
      g.Holds (start + item.blockCount)
        (layoutAll (start + item.blockCount) next targets (second :: rest)) := by
  rw [layoutAll_cons_cons] at holds
  have others := holds.right
  rw [length_layout] at others
  exact ⟨holds.left, others⟩

theorem exists_holds_first
    (holds : g.Holds start (layoutAll start next targets (item :: rest))) :
    ∃ next, g.Holds start (item.layout start next targets) := by
  cases rest with
  | nil => exact ⟨next, holds⟩
  | cons second rest => exact ⟨_, (holds_cons_cons holds).1⟩

/-- The parts of a loop, its condition at `start`, its body at `inside` and its exit at `exit`. -/
structure HoldsLoop (g : Graph) (cond body : Expr) (start inside exit : Nat)
    (next : Option BlockId) : Prop where
  condHolds :
    g.Holds start (cond.layout start (some (.ofIndex (exit + 1))) (loopTargets start exit))
  bodyHolds : g.Holds inside (body.layout inside (some (.ofIndex start)) (loopTargets start exit))
  exitBlock : g.blocks[(BlockId.ofIndex exit).index]? = some ⟨[], .toward next⟩
  branchBlock : g.blocks[(BlockId.ofIndex (exit + 1)).index]? =
    some ⟨[], .branch (.ofIndex inside) (.ofIndex exit)⟩

theorem holdsLoop_of_holds (holds : g.Holds start ((loop id cond body).layout start next targets)) :
    HoldsLoop g cond body start (start + cond.blockCount)
      (start + cond.blockCount + body.blockCount) next := by
  rw [layout] at holds
  have own := holds.right
  rw [List.length_append, length_layout, length_layout, ← Nat.add_assoc] at own
  have second := holds.left.right
  rw [length_layout] at second
  exact ⟨holds.left.left, second, own.head, own.second⟩

/-! ## From evaluations to runs -/

/-- Control leaves the blocks of a tree behind the exit, or at the target of a jump. -/
def Departs (g : Graph) (m : Machine σ) (entry exit : BlockId) (next : Option BlockId)
    (targets : LoopJump → Option BlockId) (s : σ) (trace : List Instr) :
    Option LoopJump → σ → Prop
  | none, s' => g.Leaves m entry exit next s trace s'
  | some kind, s' => ∀ target, targets kind = some target → g.Path m entry s trace target s'

theorem Departs.behind {entry middle exit : BlockId} (path : g.Path m entry s trace middle s₁)
    (departs : Departs g m middle exit next targets s₁ trace₁ outcome s₂) :
    Departs g m entry exit next targets s (trace ++ trace₁) outcome s₂ := by
  cases outcome with
  | none => exact Graph.Leaves.behind path departs
  | some kind => exact fun target found => path.trans (departs target found)

theorem EvalAll.ne_nil_of_jump {kind : LoopJump} (eval : EvalAll m items s trace (some kind) s₁) :
    items ≠ [] := by
  cases eval <;> simp

theorem path_of_evalAll (operands : EvalAll m items s trace none s₁)
    (departs : items ≠ [] →
      Departs g m (.ofIndex start) (.ofIndex (start + exitOffsetAll items))
        (some (.ofIndex (start + blockCountAll items))) targets s trace none s₁) :
    g.Path m (.ofIndex start) s trace (.ofIndex (start + blockCountAll items)) s₁ := by
  cases items with
  | nil =>
      cases operands
      exact .here _ _
  | cons item rest => exact Graph.Leaves.path (departs (by simp))

theorem departs_instr {instr : Instr} (own : e.ownInstr = some instr)
    (holds : g.Holds start (e.layout start next targets))
    (path : g.Path m (.ofIndex start) s trace (.ofIndex (start + blockCountAll e.children)) s₁)
    (ran : m.step instr s₁ = some s₂) :
    Departs g m (.ofIndex start) (.ofIndex (start + e.exitOffset)) next targets s
      (trace ++ [instr]) none s₂ := by
  rw [exitOffset_of_ownInstr own]
  have ran : m.run [instr] s₁ = some s₂ := by simp [Machine.run, ran]
  exact Graph.Leaves.behind path (.single (holds_of_ownInstr own holds).2 ran)

theorem departs_seq
    (departs : items ≠ [] → g.Holds start (layoutAll start next targets items) →
      Departs g m (.ofIndex start) (.ofIndex (start + exitOffsetAll items)) next targets s trace
        outcome s₁)
    (all : EvalAll m items s trace outcome s₁)
    (holds : g.Holds start ((seq id items).layout start next targets)) :
    Departs g m (.ofIndex start) (.ofIndex (start + (seq id items).exitOffset)) next targets s trace
      outcome s₁ := by
  cases items with
  | nil =>
      cases all
      exact Graph.Leaves.single holds.head rfl
  | cons item rest => exact departs (by simp) holds

/-- The condition of a loop has run, and the branch behind it goes to one side or the other. -/
theorem HoldsLoop.path_tested {inside exit : Nat} {last : BlockId}
    (parts : HoldsLoop g cond body start inside exit next)
    (first : Departs g m (.ofIndex start) last (some (.ofIndex (exit + 1)))
      (loopTargets start exit) s trace none s₁) {answer : Bool}
    (tested : m.test answer s₁ = some s₂) :
    g.Path m (.ofIndex start) s trace (bif answer then .ofIndex inside else .ofIndex exit) s₂ := by
  have toTest := Graph.Leaves.path first
  have path := toTest.trans (.branch answer parts.branchBlock rfl tested (.here _ s₂))
  rw [List.append_nil, List.append_nil] at path
  exact path

/-- What comes to the exit of a loop leaves the loop. -/
theorem departs_loop (holds : g.Holds start ((loop id cond body).layout start next targets))
    (path : g.Path m (.ofIndex start) s trace
      (.ofIndex (start + cond.blockCount + body.blockCount)) s₁) :
    Departs g m (.ofIndex start) (.ofIndex (start + (loop id cond body).exitOffset)) next targets s
      trace none s₁ := by
  have leaves : g.Leaves m _ _ next s₁ [] s₁ := .single (holdsLoop_of_holds holds).exitBlock rfl
  rw [exitOffset, ← Nat.add_assoc, ← List.append_nil trace]
  exact Graph.Leaves.behind path leaves

/-- A body that does not leave the loop comes back to the condition. -/
theorem path_back {inside last : BlockId} {exit : Nat}
    (departs : Departs g m inside last (some (.ofIndex start)) (loopTargets start exit) s trace
      outcome s₁)
    (stays : outcome ≠ some .exit) : g.Path m inside s trace (.ofIndex start) s₁ := by
  cases outcome with
  | none => exact Graph.Leaves.path departs
  | some kind =>
      cases kind with
      | exit => exact absurd rfl stays
      | reenter => exact departs _ rfl

theorem departs_cons {rest : List Expr}
    (first : ∀ next, g.Holds start (item.layout start next targets) →
      Departs g m (.ofIndex start) (.ofIndex (start + item.exitOffset)) next targets s trace none
        s₁)
    (others : rest ≠ [] →
      g.Holds (start + item.blockCount)
        (layoutAll (start + item.blockCount) next targets rest) →
      Departs g m (.ofIndex (start + item.blockCount))
        (.ofIndex (start + item.blockCount + exitOffsetAll rest)) next targets s₁ trace₁ outcome s₂)
    (eval : EvalAll m rest s₁ trace₁ outcome s₂)
    (holds : g.Holds start (layoutAll start next targets (item :: rest))) :
    Departs g m (.ofIndex start) (.ofIndex (start + exitOffsetAll (item :: rest))) next targets s
      (trace ++ trace₁) outcome s₂ := by
  cases rest with
  | nil =>
      cases eval
      rw [List.append_nil]
      exact first next holds
  | cons second rest =>
      have parts := holds_cons_cons holds
      rw [exitOffsetAll_cons_cons, ← Nat.add_assoc]
      exact (others (by simp) parts.2).behind (Graph.Leaves.path (first _ parts.1))

mutual

theorem Eval.departs {σ : Type} {g : Graph} {m : Machine σ} :
    ∀ {e s trace outcome s'}, Eval m e s trace outcome s' →
      ∀ start next targets, g.Holds start (e.layout start next targets) →
        Departs g m (.ofIndex start) (.ofIndex (start + e.exitOffset)) next targets s trace outcome
          s'
  | _, _, _, _, _, .instr own operands ran, start, next, targets, holds =>
      departs_instr own holds (path_of_evalAll operands fun nonempty =>
        operands.departs start _ targets nonempty (holds_of_ownInstr own holds).1) ran
  | _, _, _, _, _, .abandoned own operands, start, next, targets, holds => by
      have nonempty := operands.ne_nil_of_jump
      exact operands.departs start _ targets nonempty (holds_of_ownInstr own holds).1
  | _, _, _, _, _, .seq all, start, next, targets, holds =>
      departs_seq (all.departs start next targets) all holds
  | _, _, _, _, _, .jump id kind s, start, next, targets, holds => by
      intro target found
      have block := holds.head
      rw [found] at block
      exact Graph.Leaves.path (.single block rfl)
  | _, _, _, _, _, .done first zero, start, next, targets, holds => by
      have parts := holdsLoop_of_holds holds
      exact departs_loop holds (parts.path_tested (first.departs start _ _ parts.condHolds) zero)
  | _, _, _, _, _, .again first nonzero inside stays rest, start, next, targets, holds => by
      have parts := holdsLoop_of_holds holds
      have toBody := parts.path_tested (first.departs start _ _ parts.condHolds) nonzero
      have back := toBody.trans (path_back (inside.departs _ _ _ parts.bodyHolds) stays)
      exact (rest.departs start next targets holds).behind back
  | _, _, _, _, _, .left first nonzero inside, start, next, targets, holds => by
      have parts := holdsLoop_of_holds holds
      have toBody := parts.path_tested (first.departs start _ _ parts.condHolds) nonzero
      exact departs_loop holds (toBody.trans (inside.departs _ _ _ parts.bodyHolds _ rfl))
  | _, _, _, _, _, .leftEarly first, start, next, targets, holds => by
      have parts := holdsLoop_of_holds holds
      exact departs_loop holds (first.departs start _ _ parts.condHolds _ rfl)
  | _, _, _, _, _, .againEarly first rest, start, next, targets, holds => by
      have parts := holdsLoop_of_holds holds
      have again := first.departs start _ _ parts.condHolds _ rfl
      exact (rest.departs start next targets holds).behind again
termination_by structural _ _ _ _ _ eval => eval

theorem EvalAll.departs {σ : Type} {g : Graph} {m : Machine σ} :
    ∀ {items s trace outcome s'}, EvalAll m items s trace outcome s' →
      ∀ start next targets, items ≠ [] → g.Holds start (layoutAll start next targets items) →
        Departs g m (.ofIndex start) (.ofIndex (start + exitOffsetAll items)) next targets s trace
          outcome s'
  | _, _, _, _, _, .nil _, _, _, _, nonempty, _ => absurd rfl nonempty
  | _, _, _, _, _, .cons first others, start, next, targets, _, holds =>
      departs_cons (fun next => first.departs start next targets)
        (fun nonempty => others.departs _ next targets nonempty) others holds
  | _, _, _, _, _, .jump first, start, next, targets, _, holds => by
      obtain ⟨behind, holds⟩ := exists_holds_first holds
      exact first.departs start behind targets holds
termination_by structural _ _ _ _ _ eval => eval

end

/-! ## From runs to evaluations -/

/-- Where control goes on behind a tree. -/
def placeBehind (next : Option BlockId) (targets : LoopJump → Option BlockId) :
    Option LoopJump → Option BlockId
  | none => next
  | some kind => targets kind

/-- Every one of the jumps has a target. -/
def Covers (targets : LoopJump → Option BlockId) (jumps : List (LoopJump × ExprId)) : Prop :=
  ∀ jump ∈ jumps, ∃ target, targets jump.1 = some target

theorem covers_loopTargets (entry exit : Nat) (jumps : List (LoopJump × ExprId)) :
    Covers (loopTargets entry exit) jumps := by
  intro jump _
  obtain ⟨kind, node⟩ := jump
  cases kind
  · exact ⟨_, rfl⟩
  · exact ⟨_, rfl⟩

/-- A run to the end begins with an evaluation of the tree, which uses up some of its blocks. -/
def Begins (g : Graph) (m : Machine σ) (e : Expr) (next : Option BlockId)
    (targets : LoopJump → Option BlockId) (n : Nat) (s : σ) (trace : List Instr) (s' : σ) : Prop :=
  ∃ outcome s₁ front k back, Eval m e s front outcome s₁ ∧ k < n ∧
    g.Ends m k (placeBehind next targets outcome) s₁ back s' ∧ trace = front ++ back

/-- A run to the end begins with an evaluation of the trees. Where there are none, no block is used
up. -/
def BeginsAll (g : Graph) (m : Machine σ) (items : List Expr) (next : Option BlockId)
    (targets : LoopJump → Option BlockId) (n : Nat) (s : σ) (trace : List Instr) (s' : σ) : Prop :=
  ∃ outcome s₁ front k back, EvalAll m items s front outcome s₁ ∧ (k < n ∨ items = [] ∧ k = n) ∧
    g.Ends m k (placeBehind next targets outcome) s₁ back s' ∧ trace = front ++ back

/-- Whatever runs from the start of the tree to the end begins with an evaluation of the tree. -/
def Unfolds (g : Graph) (m : Machine σ) (e : Expr) : Prop :=
  ∀ start next targets, Covers targets e.strayJumps →
    g.Holds start (e.layout start next targets) →
    ∀ n s trace s', g.Ends m n (some (.ofIndex start)) s trace s' →
      Begins g m e next targets n s trace s'

variable {n : Nat}

theorem begins_first (first : Begins g m item next targets n s trace s₁) :
    BeginsAll g m [item] next targets n s trace s₁ := by
  obtain ⟨outcome, s₂, front, k, back, eval, fewer, ends, rfl⟩ := first
  cases outcome with
  | none =>
      have all := EvalAll.cons eval (.nil s₂)
      rw [List.append_nil] at all
      exact ⟨none, s₂, front, k, back, all, .inl fewer, ends, rfl⟩
  | some kind => exact ⟨some kind, s₂, front, k, back, .jump eval, .inl fewer, ends, rfl⟩

theorem beginsAll_of_unfolds {items : List Expr} (ih : ∀ item ∈ items, Unfolds g m item)
    (covers : Covers targets (strayJumpsAll items))
    (holds : g.Holds start (layoutAll start next targets items))
    (empty : items = [] → next = some (.ofIndex start))
    (ends : g.Ends m n (some (.ofIndex start)) s trace s₁) :
    BeginsAll g m items next targets n s trace s₁ := by
  induction items generalizing start n s trace with
  | nil =>
      rw [← empty rfl] at ends
      exact ⟨none, s, [], n, trace, .nil s, .inr ⟨rfl, rfl⟩, ends, rfl⟩
  | cons item rest ihRest =>
      have coversItem : Covers targets item.strayJumps := fun jump mem =>
        covers jump (List.mem_append_left _ mem)
      have coversRest : Covers targets (strayJumpsAll rest) := fun jump mem =>
        covers jump (List.mem_append_right _ mem)
      have unfolds := ih item (by simp) start
      cases rest with
      | nil => exact begins_first (unfolds next targets coversItem holds n s trace s₁ ends)
      | cons second rest =>
          have parts := holds_cons_cons holds
          obtain ⟨outcome, s₂, front, k, back, eval, fewer, endsBack, rfl⟩ :=
            unfolds _ targets coversItem parts.1 n s trace s₁ ends
          cases outcome with
          | some kind =>
              exact ⟨some kind, s₂, front, k, back, .jump eval, .inl fewer, endsBack, rfl⟩
          | none =>
              obtain ⟨outcome, s₃, frontRest, k', backRest, evalRest, fewerRest, endsRest, rfl⟩ :=
                ihRest (fun item mem => ih item (List.mem_cons_of_mem _ mem)) coversRest parts.2
                  (fun none => by cases none) endsBack
              refine ⟨outcome, s₃, front ++ frontRest, k', backRest, .cons eval evalRest, ?_,
                endsRest, (List.append_assoc _ _ _).symm⟩
              rcases fewerRest with fewerRest | ⟨empty, -⟩
              · exact .inl (fewerRest.trans fewer)
              · cases empty

theorem unfolds_instr {instr : Instr} (own : e.ownInstr = some instr)
    (ih : ∀ child ∈ e.children, Unfolds g m child) : Unfolds g m e := by
  intro start next targets covers holds n s trace s' ends
  have parts := holds_of_ownInstr own holds
  rw [strayJumps_of_ownInstr own] at covers
  obtain ⟨outcome, s₁, front, k, back, operands, fewer, endsBack, split⟩ :=
    beginsAll_of_unfolds ih covers parts.1 (fun none => by rw [none]; rfl) ends
  cases outcome with
  | some kind =>
      rcases fewer with fewer | ⟨none, -⟩
      · exact ⟨some kind, s₁, front, k, back, .abandoned own operands, fewer, endsBack, split⟩
      · exact absurd none operands.ne_nil_of_jump
  | none =>
      obtain ⟨k', s₂, rest, rfl, ran, endsRest, splitBack⟩ := Graph.Ends.of_toward endsBack parts.2
      have ran : m.step instr s₁ = some s₂ := by simpa [Machine.run] using ran
      refine ⟨none, s₂, front ++ [instr], k', rest, .instr own operands ran, by omega, endsRest, ?_⟩
      rw [split, splitBack, List.append_assoc]

theorem unfolds_seq (ih : ∀ item ∈ items, Unfolds g m item) : Unfolds g m (seq id items) := by
  intro start next targets covers holds n s trace s' ends
  cases items with
  | nil =>
      obtain ⟨k, s₁, back, rfl, ran, endsBack, split⟩ := Graph.Ends.of_toward ends holds.head
      cases ran
      exact ⟨none, s, [], k, back, .seq (.nil s), Nat.lt_succ_self k, endsBack, split⟩
  | cons item rest =>
      obtain ⟨outcome, s₁, front, k, back, all, fewer, endsBack, split⟩ :=
        beginsAll_of_unfolds ih covers holds (fun none => by cases none) ends
      rcases fewer with fewer | ⟨none, -⟩
      · exact ⟨outcome, s₁, front, k, back, .seq all, fewer, endsBack, split⟩
      · cases none

theorem unfolds_jump (kind : LoopJump) : Unfolds g m (jump id kind) := by
  intro start next targets covers holds n s trace s' ends
  obtain ⟨target, found⟩ := covers (kind, id) (by simp [strayJumps])
  have block := holds.head
  rw [found] at block
  obtain ⟨k, s₁, back, rfl, ran, endsBack, split⟩ := Graph.Ends.of_toward ends block
  cases ran
  refine ⟨some kind, s, [], k, back, .jump id kind s, Nat.lt_succ_self k, ?_, split⟩
  rw [placeBehind, found]
  exact endsBack

theorem HoldsLoop.ends_exit {inside exit : Nat}
    (parts : HoldsLoop g cond body start inside exit next)
    (ends : g.Ends m n (some (.ofIndex exit)) s trace s₁) :
    ∃ k, k < n ∧ g.Ends m k next s trace s₁ := by
  obtain ⟨k, s₂, rest, rfl, ran, endsRest, split⟩ := Graph.Ends.of_toward ends parts.exitBlock
  cases ran
  rw [split]
  exact ⟨k, Nat.lt_succ_self k, endsRest⟩

/-- A run from the start of a loop begins with an evaluation of the loop. -/
def UnfoldsLoop (g : Graph) (m : Machine σ) (e : Expr) (start : Nat) (next : Option BlockId)
    (n : Nat) : Prop :=
  ∀ s trace s', g.Ends m n (some (.ofIndex start)) s trace s' →
    ∃ s₁ front k back, Eval m e s front none s₁ ∧ k < n ∧ g.Ends m k next s₁ back s' ∧
      trace = front ++ back

/-- A turn of the loop that gets to the body, which goes on as the shorter run `again` does. -/
theorem eval_loop_of_ends_body {inside exit : Nat}
    (parts : HoldsLoop g cond body start inside exit next) (ihBody : Unfolds g m body)
    (again : ∀ k, k < n → UnfoldsLoop g m (loop id cond body) start next k)
    (first : Eval m cond s trace none s₁) (nonzero : m.test true s₁ = some s₂)
    (ends : g.Ends m n (some (.ofIndex inside)) s₂ trace₁ s₃) :
    ∃ s₄ front k back, Eval m (loop id cond body) s front none s₄ ∧ k < n ∧
      g.Ends m k next s₄ back s₃ ∧ trace ++ trace₁ = front ++ back := by
  obtain ⟨outcome, s₄, front, k, back, turn, fewer, endsBack, rfl⟩ :=
    ihBody _ _ _ (covers_loopTargets _ _ _) parts.bodyHolds _ _ _ _ ends
  by_cases leaves : outcome = some .exit
  · rw [leaves] at turn endsBack
    obtain ⟨k', fewer', endsNext⟩ := parts.ends_exit endsBack
    exact ⟨s₄, trace ++ front, k', back, .left first nonzero turn, fewer'.trans fewer, endsNext,
      (List.append_assoc _ _ _).symm⟩
  · have toStart : placeBehind (some (.ofIndex start)) (loopTargets start exit) outcome =
        some (.ofIndex start) := by
      cases outcome with
      | none => rfl
      | some kind =>
          cases kind with
          | exit => exact absurd rfl leaves
          | reenter => rfl
    rw [toStart] at endsBack
    obtain ⟨s₅, frontRest, k', rest, eval, fewer', endsNext, rfl⟩ :=
      again k fewer _ _ _ endsBack
    refine ⟨s₅, trace ++ front ++ frontRest, k', rest, .again first nonzero turn leaves eval,
      fewer'.trans fewer, endsNext, ?_⟩
    simp only [List.append_assoc]

/-- The induction over the turns of a loop is on the number of blocks that are left to run. -/
theorem unfoldsLoop_of_unfolds (ihCond : Unfolds g m cond) (ihBody : Unfolds g m body)
    (holds : g.Holds start ((loop id cond body).layout start next targets)) (n : Nat) :
    UnfoldsLoop g m (loop id cond body) start next n := by
  have parts := holdsLoop_of_holds holds
  induction n using Nat.strong_induction_on with
  | _ n ih =>
      intro s trace s' ends
      obtain ⟨outcome, s₁, front, k, back, first, fewer, endsBack, rfl⟩ :=
        ihCond _ _ _ (covers_loopTargets _ _ _) parts.condHolds _ _ _ _ ends
      cases outcome with
      | none =>
          obtain ⟨k, answer, s₂, rfl, tested, endsTest⟩ :=
            Graph.Ends.of_branch endsBack parts.branchBlock
          cases answer with
          | false =>
              obtain ⟨k', fewer', endsNext⟩ := parts.ends_exit endsTest
              exact ⟨s₂, front, k', back, .done first tested, by omega, endsNext, rfl⟩
          | true =>
              obtain ⟨s₃, front', k', rest, eval, fewer', endsNext, split⟩ :=
                eval_loop_of_ends_body parts ihBody (fun k' fewer' => ih k' (by omega)) first tested
                  endsTest
              exact ⟨s₃, front', k', rest, eval, by omega, endsNext, split⟩
      | some kind =>
          cases kind with
          | exit =>
              obtain ⟨k', fewer', endsNext⟩ := parts.ends_exit endsBack
              exact ⟨s₁, front, k', back, .leftEarly first, fewer'.trans fewer, endsNext, rfl⟩
          | reenter =>
              obtain ⟨s₂, frontRest, k', rest, eval, fewer', endsNext, rfl⟩ :=
                ih k fewer _ _ _ endsBack
              exact ⟨s₂, front ++ frontRest, k', rest, .againEarly first eval, fewer'.trans fewer,
                endsNext, (List.append_assoc _ _ _).symm⟩

theorem unfolds (e : Expr) : Unfolds g m e := by
  induction e using inductionOnRole with
  | instr e instr own ih => exact unfolds_instr own ih
  | seq id items ih => exact unfolds_seq ih
  | loop id cond body ihCond ihBody =>
      intro start next targets covers holds n s trace s' ends
      obtain ⟨s₁, front, k, back, eval, fewer, endsNext, split⟩ :=
        unfoldsLoop_of_unfolds ihCond ihBody holds n s trace s' ends
      exact ⟨none, s₁, front, k, back, eval, fewer, endsNext, split⟩
  | jump id kind => exact unfolds_jump kind

/-! ## Evaluations that jump -/

theorem EvalAll.mem_strayJumps_of {kind : LoopJump}
    (ih : ∀ item ∈ items, ∀ s trace s', Eval m item s trace (some kind) s' →
      ∃ node, (kind, node) ∈ item.strayJumps)
    (eval : EvalAll m items s trace (some kind) s₁) :
    ∃ node, (kind, node) ∈ strayJumpsAll items := by
  induction items generalizing s trace with
  | nil => cases eval
  | cons item rest ihRest =>
      cases eval with
      | cons first others =>
          obtain ⟨node, mem⟩ := ihRest (fun item mem => ih item (by simp [mem])) others
          exact ⟨node, List.mem_append_right _ mem⟩
      | jump first =>
          obtain ⟨node, mem⟩ := ih item (by simp) _ _ _ first
          exact ⟨node, List.mem_append_left _ mem⟩

/-- A tree that ends with a jump ends with one of those that leave it. -/
theorem Eval.mem_strayJumps {kind : LoopJump} (eval : Eval m e s trace (some kind) s₁) :
    ∃ node, (kind, node) ∈ e.strayJumps := by
  induction e using inductionOnRole generalizing s trace s₁ with
  | instr e instr own ih =>
      rw [strayJumps_of_ownInstr own]
      cases eval with
      | abandoned _ operands =>
          exact operands.mem_strayJumps_of fun item mem s trace s' eval => ih item mem eval
      | seq => cases own
      | jump => cases own
  | seq id items ih =>
      cases eval with
      | abandoned own => cases own
      | seq all => exact all.mem_strayJumps_of fun item mem s trace s' eval => ih item mem eval
  | loop id cond body =>
      cases eval with
      | abandoned own => cases own
  | jump id jump =>
      cases eval with
      | abandoned own => cases own
      | jump => exact ⟨id, List.mem_singleton_self _⟩

/-! ## The whole tree -/

/-- In a graph with the layout of a tree that no jump leaves, the runs of the tree's fragment are
the evaluations of the tree. -/
theorem eval_iff_run_of_holds (stray : e.strayJumps = [])
    (holds : g.Holds start (e.layout start none noTargets)) :
    Eval m e s trace none s₁ ↔ g.Run m (e.fragment start) s trace s₁ := by
  constructor
  · intro eval
    have departs := eval.departs start none noTargets holds
    exact Graph.Leaves.run departs
  · intro run
    obtain ⟨block, found, edge⟩ := edge_exit_none start e
    have exit : g.blocks[(e.fragment start).exit.index]? = some ⟨block.instrs, .none⟩ := by
      rw [← edge]
      exact holds _ _ found
    obtain ⟨n, ends⟩ := run.ends exit
    obtain ⟨outcome, s₂, front, k, back, eval, fewer, endsBack, rfl⟩ :=
      unfolds e start none noTargets (by simp [Covers, stray]) holds n s trace s₁ ends
    cases outcome with
    | none =>
        obtain ⟨rfl, rfl⟩ := endsBack.of_none
        rwa [List.append_nil]
    | some kind =>
        obtain ⟨node, mem⟩ := eval.mem_strayJumps
        rw [stray] at mem
        cases mem

end Expr

/-- Blocks that are appended to a graph are found behind it. -/
theorem Graph.holds_append {g : Graph} {blocks : List Block}
    (room : (g.append blocks).size ≤ UInt32.size) : (g.append blocks).Holds g.size blocks := by
  intro i block found
  have inside := (List.getElem?_eq_some_iff.mp found).1
  rw [size_append] at room
  rw [BlockId.index_ofIndex (by omega), append, Array.getElem?_append_right (by simp [size])]
  simpa [size] using found

/-- Whatever instructions and branch tests do to a machine: the runs of the fragment that a tree is
lowered to are the evaluations of the tree, instruction by instruction. -/
theorem Arena.eval_iff_run {arena : Arena} {id : ExprId} {e : Expr} {type : ValueType}
    (found : arena.lookup id = .ok (e, type)) {cx after : Context} (closed : cx.loops = [])
    {fragment : Fragment} (lowered : arena.lower id cx = .ok fragment after)
    (room : after.graph.size ≤ UInt32.size) {σ : Type} (m : Machine σ) (s : σ)
    (trace : List Instr) (s' : σ) :
    Expr.Eval m e s trace none s' ↔ after.graph.Run m fragment s trace s' := by
  have roomAfter := room
  rw [← Action.after_of_ok lowered] at room
  obtain ⟨stray, rfl, rfl⟩ := (lower_eq_ok_iff found closed room).mp lowered
  exact Expr.eval_iff_run_of_holds stray (Graph.holds_append roomAfter)

theorem Arena.eval_iff_run_counting :
    let build : Action Arena ExprId := do
      let one ← int 1
      let again ← jump .reenter
      let top ← storeTop ⟨0, false⟩
      let body ← seq [again, top]
      loop one body
    let arena := build.after {}
    let m : Machine Nat :=
      ⟨fun _ s => some (s + 1), fun answer s => if answer = decide (s < 2) then some s else none⟩
    let pushed : Instr := ⟨.int, [.uint 1], ⟨0⟩⟩
    ((arena.lower ⟨4⟩).after (.new {})).graph.Run m ⟨⟨0⟩, ⟨3⟩⟩ 0 [pushed, pushed] 2 := by
  intro build arena m pushed
  let one : Expr := .int ⟨0⟩ 1
  let body : Expr := .seq ⟨3⟩ [.jump ⟨1⟩ .reenter, .storeTop ⟨2⟩ ⟨0, false⟩]
  have found : arena.lookup ⟨4⟩ = .ok (.loop ⟨4⟩ one body, .none) := rfl
  have room : ((arena.lower ⟨4⟩).after (.new {})).graph.size ≤ UInt32.size := by decide +kernel
  have lowered := (lower_eq_ok_iff found rfl room).mpr ⟨rfl, rfl, rfl⟩
  have count : ∀ s, Expr.Eval m one s ([] ++ [pushed]) none (s + 1) := fun s =>
    .instr rfl (.nil s) rfl
  have turn : Expr.Eval m body 1 [] (some .reenter) 1 := .seq (.jump (.jump ⟨1⟩ .reenter 1))
  have last : Expr.Eval m (.loop ⟨4⟩ one body) 1 ([] ++ [pushed]) none 2 := .done (count 1) rfl
  have eval := Expr.Eval.again (count 0) rfl turn (by decide) last
  rw [Action.after_of_ok lowered] at room ⊢
  exact (eval_iff_run found rfl lowered room m 0 [pushed, pushed] 2).mp eval

end Flowgraph
