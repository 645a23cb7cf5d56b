import Flowgraph.Expr.Postorder
import Flowgraph.Graph

/-! The blocks of a tree, written down at once. Every subtree has as many blocks as `blockCount`
says, the subtrees of a node lie one behind the other in the order in which they are evaluated, and
the blocks of the node itself come last. So each address is known before the block that goes there
is written, and nothing has to be put in later. -/

namespace Flowgraph

/-- The edge of a block that goes on at a given place, or nowhere yet. -/
def Edge.toward : Option BlockId → Edge
  | .some target => jump target
  | .none => none

theorem Edge.toward_injective {a b : Option BlockId} (h : toward a = toward b) : a = b := by
  cases a <;> cases b <;> simp_all [toward]

namespace Expr

/-- Outside of loops a jump has no target. -/
def noTargets : LoopJump → Option BlockId :=
  fun _ => none

/-- The targets of the jumps in a loop whose condition starts at `entry`. -/
def loopTargets (entry exit : Nat) : LoopJump → Option BlockId
  | .exit => some (.ofIndex exit)
  | .reenter => some (.ofIndex entry)

mutual

/-- The blocks of a tree that starts at position `start`. Control goes on at `next` behind the tree,
and jumps go where `targets` says; a jump without a target goes on at `next` as any other block. -/
def layout (start : Nat) (next : Option BlockId) (targets : LoopJump → Option BlockId) :
    Expr → List Block
  | .seq _ items =>
      if items.isEmpty then [⟨[], .toward next⟩] else layoutAll start next targets items
  | .loop _ cond body =>
      let inside := start + cond.blockCount
      let exit := inside + body.blockCount
      let branch := exit + 1
      let targets := loopTargets start exit
      cond.layout start (some (.ofIndex branch)) targets ++
        body.layout inside (some (.ofIndex start)) targets ++
        [⟨[], .toward next⟩, ⟨[], .branch (.ofIndex inside) (.ofIndex exit)⟩]
  | .jump _ kind => [⟨[], .toward ((targets kind).or next)⟩]
  | .loadAt id index _ =>
      let own := start + index.blockCount
      index.layout start (some (.ofIndex own)) targets ++ [⟨[⟨.loads, [], id⟩], .toward next⟩]
  | .store id slot value =>
      let own := start + value.blockCount
      value.layout start (some (.ofIndex own)) targets ++
        [⟨[⟨.store, [.slot slot], id⟩], .toward next⟩]
  | .storeAt id index value =>
      let second := start + index.blockCount
      let own := second + value.blockCount
      index.layout start (some (.ofIndex second)) targets ++
        value.layout second (some (.ofIndex own)) targets ++
        [⟨[⟨.stores, [], id⟩], .toward next⟩]
  | .int id value => [⟨[⟨.int, [.uint value], id⟩], .toward next⟩]
  | .bytes id value => [⟨[⟨.byte, [.bytes value], id⟩], .toward next⟩]
  | .slotNumber id slot => [⟨[⟨.int, [.slot slot], id⟩], .toward next⟩]
  | .load id slot _ => [⟨[⟨.load, [.slot slot], id⟩], .toward next⟩]
  | .storeTop id slot => [⟨[⟨.store, [.slot slot], id⟩], .toward next⟩]

/-- The blocks of trees one behind the other. Each goes on at the next one's start, the last at
`next`. -/
def layoutAll (start : Nat) (next : Option BlockId) (targets : LoopJump → Option BlockId) :
    List Expr → List Block
  | [] => []
  | [last] => last.layout start next targets
  | item :: rest =>
      let behind := start + item.blockCount
      item.layout start (some (.ofIndex behind)) targets ++ layoutAll behind next targets rest

end

mutual

/-- Where the exit of a tree lies among its blocks. It is the last of them, unless the tree ends in
a loop, whose branch lies behind its exit. -/
def exitOffset : Expr → Nat
  | .seq _ items => exitOffsetAll items
  | .loop _ cond body => cond.blockCount + body.blockCount
  | .loadAt _ index _ => index.blockCount
  | .store _ _ value => value.blockCount
  | .storeAt _ index value => index.blockCount + value.blockCount
  | .jump .. | .int .. | .bytes .. | .slotNumber .. | .load .. | .storeTop .. => 0

def exitOffsetAll : List Expr → Nat
  | [] => 0
  | [last] => last.exitOffset
  | item :: rest => item.blockCount + exitOffsetAll rest

end

mutual

/-- The blocks of the jumps that leave a tree at position `start`, in the order of `strayJumps`. -/
def anchors (start : Nat) : Expr → List (LoopJump × BlockId)
  | .jump _ kind => [(kind, .ofIndex start)]
  | .seq _ items => anchorsAll start items
  | .loadAt _ index _ => index.anchors start
  | .store _ _ value => value.anchors start
  | .storeAt _ index value => index.anchors start ++ value.anchors (start + index.blockCount)
  | .loop .. | .int .. | .bytes .. | .slotNumber .. | .load .. | .storeTop .. => []

def anchorsAll (start : Nat) : List Expr → List (LoopJump × BlockId)
  | [] => []
  | item :: rest => item.anchors start ++ anchorsAll (start + item.blockCount) rest

end

mutual

/-- The blocks of a tree at position `start` as far as the first jump that leaves the tree. What
would go on at a block that does not come any more goes on nowhere. -/
def layoutToJump (start : Nat) : Expr → List Block
  | .seq _ items => layoutAllToJump start [] items
  | .loadAt _ index _ => index.layoutToJump start
  | .store _ _ value => value.layoutToJump start
  | .storeAt _ index value =>
      if index.strayJumps.isEmpty then
        index.layout start none noTargets ++ value.layoutToJump (start + index.blockCount)
      else
        index.layoutToJump start
  | .jump .. | .loop .. | .int .. | .bytes .. | .slotNumber .. | .load .. | .storeTop .. => []

/-- The same for trees one behind the other, of which no jump leaves those that are `done`. -/
def layoutAllToJump (start : Nat) (done : List Expr) : List Expr → List Block
  | [] => layoutAll start none noTargets done
  | item :: rest =>
      if item.strayJumps.isEmpty then
        layoutAllToJump start (done ++ [item]) rest
      else
        layoutAll start none noTargets done ++ item.layoutToJump (start + blockCountAll done)

end

/-! ## Elementary laws -/

section

variable {e : Expr} {instr : Instr} (start : Nat) (next : Option BlockId)
  (targets : LoopJump → Option BlockId)

theorem layoutAll_cons_cons (item second : Expr) (rest : List Expr) :
    layoutAll start next targets (item :: second :: rest) =
      item.layout start (some (.ofIndex (start + item.blockCount))) targets ++
        layoutAll (start + item.blockCount) next targets (second :: rest) :=
  rfl

theorem exitOffsetAll_cons_cons (item second : Expr) (rest : List Expr) :
    exitOffsetAll (item :: second :: rest) = item.blockCount + exitOffsetAll (second :: rest) :=
  rfl

theorem layout_of_ownInstr (own : e.ownInstr = some instr) :
    e.layout start next targets =
      layoutAll start (some (.ofIndex (start + blockCountAll e.children))) targets e.children ++
        [⟨[instr], .toward next⟩] := by
  cases e <;> simp_all [ownInstr, layout, layoutAll, children, Nat.add_assoc]

theorem exitOffset_of_ownInstr (own : e.ownInstr = some instr) :
    e.exitOffset = blockCountAll e.children := by
  cases e <;> simp_all [ownInstr, exitOffset, children]

theorem anchors_of_ownInstr (own : e.ownInstr = some instr) :
    e.anchors start = anchorsAll start e.children := by
  cases e <;> simp_all [ownInstr, anchors, anchorsAll, children]

theorem layoutToJump_of_ownInstr (own : e.ownInstr = some instr) (stray : e.strayJumps ≠ []) :
    e.layoutToJump start = layoutAllToJump start [] e.children := by
  cases e with
  | storeAt id index value =>
      by_cases first : index.strayJumps = []
      · have second : value.strayJumps ≠ [] := by simpa [strayJumps, first] using stray
        simp [layoutToJump, layoutAllToJump, layoutAll, children, first, second]
      · simp [layoutToJump, layoutAllToJump, layoutAll, children, first]
  | _ => simp_all [ownInstr, strayJumps, layoutToJump, layoutAllToJump, layoutAll, children]

theorem length_layoutAll_of {items : List Expr}
    (length : ∀ item ∈ items, ∀ start next,
      (item.layout start next targets).length = item.blockCount) :
    (layoutAll start next targets items).length = blockCountAll items := by
  induction items generalizing start with
  | nil => rfl
  | cons item rest ih =>
      have first := length item (by simp)
      have others := fun start => ih start fun item m => length item (by simp [m])
      cases rest with
      | nil => simp [layoutAll, first]
      | cons second rest => simp [layoutAll_cons_cons, first, others]

@[simp] theorem length_layout (e : Expr) :
    (e.layout start next targets).length = e.blockCount := by
  induction e using inductionOnRole generalizing start next targets with
  | instr e instr own ih =>
      rw [layout_of_ownInstr _ _ _ own, blockCount_of_ownInstr own, List.length_append,
        length_layoutAll_of _ _ _ fun item m start next => ih item m start next targets]
      rfl
  | seq id items ih =>
      cases items with
      | nil => rfl
      | cons item rest =>
          simpa [layout] using
            length_layoutAll_of _ _ _ fun item m start next => ih item m start next targets
  | loop id cond body ihCond ihBody => simp [layout, ihCond, ihBody]; omega
  | jump id kind => rfl

@[simp] theorem length_layoutAll (items : List Expr) :
    (layoutAll start next targets items).length = blockCountAll items :=
  length_layoutAll_of _ _ _ fun item _ start next => length_layout start next targets item

/-! Trees one behind the other, cut in two. -/

variable (items : List Expr) {more : List Expr}

theorem layoutAll_append (nonempty : more ≠ []) :
    layoutAll start next targets (items ++ more) =
      layoutAll start (some (.ofIndex (start + blockCountAll items))) targets items ++
        layoutAll (start + blockCountAll items) next targets more := by
  induction items generalizing start with
  | nil => rfl
  | cons item rest ih =>
      cases rest with
      | nil =>
          obtain ⟨second, others, rfl⟩ := List.exists_cons_of_ne_nil nonempty
          rfl
      | cons second rest =>
          rw [List.cons_append, List.cons_append, layoutAll_cons_cons, layoutAll_cons_cons,
            ← List.cons_append, ih, blockCountAll_cons item, Nat.add_assoc, List.append_assoc]

theorem exitOffsetAll_append (nonempty : more ≠ []) :
    exitOffsetAll (items ++ more) = blockCountAll items + exitOffsetAll more := by
  induction items with
  | nil => simp
  | cons item rest ih =>
      obtain ⟨second, others, same⟩ := List.exists_cons_of_ne_nil
        (List.append_ne_nil_of_right_ne_nil rest nonempty)
      rw [List.cons_append, same, exitOffsetAll_cons_cons, ← same, ih, blockCountAll_cons,
        Nat.add_assoc]

theorem anchorsAll_append (more : List Expr) :
    anchorsAll start (items ++ more) =
      anchorsAll start items ++ anchorsAll (start + blockCountAll items) more := by
  induction items generalizing start with
  | nil => rfl
  | cons item rest ih => simp [anchorsAll, ih, Nat.add_assoc]

end

end Expr

end Flowgraph
