import Mathlib.Tactic
import Flowgraph.Expr.Construction
import Flowgraph.Expr.Typing

/-! # The trees of an arena are well typed

A node is checked against its operands when it is built, and what an arena holds never changes. So
every tree that calls lead to is well typed and has the type it is filed under. -/

namespace Flowgraph

theorem Except.bind_eq_ok_iff {ε α β : Type} {x : Except ε α} {f : α → Except ε β} {b : β} :
    x >>= f = .ok b ↔ ∃ a, x = .ok a ∧ f a = .ok b := by
  cases x <;> simp [bind, Except.bind]

theorem Except.mapM_eq_ok_iff {ε α β : Type} {f : α → Except ε β} {as : List α} {bs : List β} :
    as.mapM f = .ok bs ↔ List.Forall₂ (fun a b => f a = .ok b) as bs := by
  induction as generalizing bs with
  | nil => cases bs <;> simp [pure, Except.pure]
  | cons a rest ih =>
      rw [List.mapM_cons, Except.bind_eq_ok_iff, List.forall₂_cons_left_iff]
      simp only [Except.bind_eq_ok_iff, ih, pure, Except.pure, Except.ok.injEq]
      grind

namespace Arena

variable {arena : Arena} {expected type : ValueType} {id : ExprId} {e : Expr}

/-- A tree with the type that it is filed under. -/
structure Typed (entry : Expr × ValueType) : Prop where
  wellTyped : entry.1.WellTyped
  type_eq : entry.1.type = entry.2

/-- All trees of the arena are typed. -/
def Sound (arena : Arena) : Prop :=
  ∀ entry ∈ arena.entries, Typed entry

/-! ## Operands -/

theorem Sound.lookup (sound : arena.Sound) {entry : Expr × ValueType}
    (found : arena.lookup id = .ok entry) : Typed entry :=
  sound entry (Array.mem_of_getElem? (lookup_eq_ok_iff.mp found))

theorem operand_eq_ok_iff :
    arena.operand expected id = .ok e ↔
      ∃ actual, arena.lookup id = .ok (e, actual) ∧ expected.accepts actual = true := by
  rw [operand, Except.bind_eq_ok_iff]
  constructor
  · intro h
    obtain ⟨⟨tree, actual⟩, found, checked⟩ := h
    by_cases fits : expected.accepts actual = true
    · simp only [ValueType.require, fits, if_true] at checked
      cases checked
      exact ⟨actual, found, fits⟩
    · simp [ValueType.require, fits, throw, throwThe, MonadExceptOf.throw] at checked
  · intro h
    obtain ⟨actual, found, fits⟩ := h
    refine ⟨(e, actual), found, ?_⟩
    simp only [ValueType.require, fits, if_true]
    rfl

theorem Sound.operand (sound : arena.Sound) (found : arena.operand expected id = .ok e) :
    e.WellTyped ∧ expected.accepts e.type = true := by
  obtain ⟨actual, found, fits⟩ := operand_eq_ok_iff.mp found
  have typed := sound.lookup found
  rw [typed.type_eq]
  exact ⟨typed.wellTyped, fits⟩

theorem Sound.operands (sound : arena.Sound) {ids : List ExprId} {items : List Expr}
    (found : ids.mapM (arena.operand expected) = .ok items) :
    ∀ item ∈ items, item.WellTyped ∧ expected.accepts item.type = true := by
  rw [Except.mapM_eq_ok_iff] at found
  induction found with
  | nil => simp
  | cons first _ ih => exact List.forall_mem_cons.mpr ⟨sound.operand first, ih⟩

theorem type_eq_none (silent : ValueType.accepts .none type = true) : type = .none := by
  rw [ValueType.none_accepts] at silent
  cases type <;> first | rfl | cases silent

theorem producesValue_of_any (stored : ValueType.accepts .any type = true) :
    type.producesValue = true := by
  rwa [ValueType.any_accepts] at stored

/-! ## Calls -/

/-- What a plan makes of sound arenas is typed. -/
def PlansTyped (plan : Arena → Except Failure (ExprId → Expr × ValueType)) : Prop :=
  ∀ arena node, arena.Sound → plan arena = .ok node → ∀ id, Typed (node id)

theorem Sound.insert {plan : Arena → Except Failure (ExprId → Expr × ValueType)}
    (sound : arena.Sound) (plans : PlansTyped plan) : ((insert plan).after arena).Sound := by
  cases planned : plan arena with
  | error failure => simpa [Action.after, Arena.insert, planned] using sound
  | ok node =>
      rw [Action.after_of_ok (insert_run planned)]
      intro entry m
      rcases Array.mem_push.mp m with m | rfl
      · exact sound entry m
      · exact plans arena node sound planned _

theorem Sound.seq (sound : arena.Sound) (items : List ExprId) :
    ((Arena.seq items).after arena).Sound := by
  apply sound.insert
  intro arena node sound planned id
  obtain ⟨silent, foundSilent, planned⟩ := Except.bind_eq_ok_iff.mp planned
  have front := sound.operands foundSilent
  cases last : items.getLast? with
  | none =>
      simp only [last] at planned
      cases planned
      exact ⟨.seq id [] (by simp) (by simp), rfl⟩
  | some item =>
      simp only [last] at planned
      obtain ⟨⟨tree, type⟩, found, planned⟩ := Except.bind_eq_ok_iff.mp planned
      cases planned
      have typed := sound.lookup found
      refine ⟨.seq id _ ?_ ?_, ?_⟩
      · intro e m
        rcases List.mem_append.mp m with m | m
        · exact (front e m).1
        · rw [List.mem_singleton.mp m]
          exact typed.wellTyped
      · intro e m
        rw [List.dropLast_concat] at m
        exact type_eq_none (front e m).2
      · have typeEq : tree.type = type := typed.type_eq
        simp [Expr.type, Expr.lastType_eq, typeEq]

theorem Sound.loop (sound : arena.Sound) (cond body : ExprId) :
    ((Arena.loop cond body).after arena).Sound := by
  apply sound.insert
  intro arena node sound planned id
  obtain ⟨condTree, foundCond, planned⟩ := Except.bind_eq_ok_iff.mp planned
  obtain ⟨bodyTree, foundBody, planned⟩ := Except.bind_eq_ok_iff.mp planned
  cases planned
  have typedCond := sound.operand foundCond
  have typedBody := sound.operand foundBody
  exact ⟨.loop id _ _ typedCond.1 typedBody.1 typedCond.2 (type_eq_none typedBody.2), rfl⟩

theorem Sound.load (sound : arena.Sound) (target : Target) (type : ValueType) :
    ((Arena.load target type).after arena).Sound := by
  apply sound.insert
  intro arena node sound planned id
  cases target with
  | direct slot =>
      cases planned
      exact ⟨.load id slot type, rfl⟩
  | indirect index =>
      obtain ⟨tree, found, planned⟩ := Except.bind_eq_ok_iff.mp planned
      cases planned
      have typed := sound.operand found
      exact ⟨.loadAt id tree type typed.1 typed.2, rfl⟩

theorem Sound.store (sound : arena.Sound) (target : Target) (value : ExprId) :
    ((Arena.store target value).after arena).Sound := by
  apply sound.insert
  intro arena node sound planned id
  cases target with
  | direct slot =>
      obtain ⟨tree, found, planned⟩ := Except.bind_eq_ok_iff.mp planned
      cases planned
      have typed := sound.operand found
      exact ⟨.store id slot tree typed.1 (producesValue_of_any typed.2), rfl⟩
  | indirect index =>
      obtain ⟨indexTree, foundIndex, planned⟩ := Except.bind_eq_ok_iff.mp planned
      obtain ⟨tree, found, planned⟩ := Except.bind_eq_ok_iff.mp planned
      cases planned
      have typedIndex := sound.operand foundIndex
      have typed := sound.operand found
      exact ⟨.storeAt id indexTree tree typedIndex.1 typed.1 typedIndex.2
        (producesValue_of_any typed.2), rfl⟩

/-- A node without operands. -/
theorem Sound.leaf (sound : arena.Sound) (node : ExprId → Expr × ValueType)
    (typed : ∀ id, Typed (node id)) : ((Arena.insert fun _ => pure node).after arena).Sound := by
  apply sound.insert
  intro arena planned sound same id
  cases same
  exact typed id

theorem Sound.storeTop (sound : arena.Sound) (slot : Slot) :
    ((Arena.storeTop slot).after arena).Sound :=
  sound.leaf (fun id => (.storeTop id slot, .none)) fun id => ⟨.storeTop id slot, rfl⟩

theorem Sound.call (sound : arena.Sound) (call : Call) : (call.run.after arena).Sound := by
  cases call with
  | int value =>
      exact sound.leaf (fun id => (.int id value, .uint64)) fun id => ⟨.int id value, rfl⟩
  | bytes value =>
      exact sound.leaf (fun id => (.bytes id value, .bytes)) fun id => ⟨.bytes id value, rfl⟩
  | seq items => exact sound.seq items
  | loop cond body => exact sound.loop cond body
  | jump kind => exact sound.leaf (fun id => (.jump id kind, .none)) fun id => ⟨.jump id kind, rfl⟩
  | slotNumber slot =>
      exact sound.leaf (fun id => (.slotNumber id slot, .uint64)) fun id =>
        ⟨.slotNumber id slot, rfl⟩
  | load target type => exact sound.load target type
  | store target value => exact sound.store target value
  | storeTop slot => exact sound.storeTop slot
  | storeOrTop target value =>
      cases value with
      | some value => exact sound.store target value
      | none =>
          cases target with
          | direct slot => exact sound.storeTop slot
          | indirect index => exact sound

/-! ## Built arenas -/

theorem Built.sound (built : Built arena) : arena.Sound := by
  induction built with
  | empty => intro entry m; cases m; contradiction
  | call before call ih => exact ih.call call

/-- Whatever is found in an arena that was built by calls is typed. -/
theorem Built.typed (built : Built arena) (found : arena.lookup id = .ok (e, type)) :
    e.WellTyped ∧ e.type = type :=
  ⟨(built.sound.lookup found).wellTyped, (built.sound.lookup found).type_eq⟩

/-- Further calls on a built arena. -/
theorem Built.afterSeries (built : Built arena) (calls : List Call) :
    Built (Action.afterSeries (calls.map Call.run) arena) := by
  induction calls generalizing arena with
  | nil => exact built
  | cons call rest ih => exact ih (built.call call)

end Arena

end Flowgraph
