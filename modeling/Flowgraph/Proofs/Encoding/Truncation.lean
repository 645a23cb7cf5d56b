import Flowgraph.Proofs.Encoding.RoundTrip

/-! # Input that is cut short, and input that goes on

A reader is local when the bytes it has not come to do not matter: more of them change neither what
it finds nor how it fails, unless it fails because there are no more. The ways of combining formats
keep this, so a bad byte in a program is the same bad byte whatever follows. And as what is written
for a program is read back, or else there is no room for it, a program of which the end is missing
is never taken for another, nor for bad bytes. -/

namespace Flowgraph

variable {α β : Type}

namespace Reader

/-! ## Readers that do not look ahead -/

structure Local (r : Reader α) : Prop where
  ok_append : ∀ bytes a rest, r bytes = .ok (a, rest) →
    ∀ more, r (bytes ++ more) = .ok (a, rest ++ more)
  error_append : ∀ bytes e, r bytes = .error e → e ≠ .endOfInput →
    ∀ more, r (bytes ++ more) = .error e

/-- A reader of two parts fails in the first, or in the second on what the first left. -/
theorem bind_eq_error_iff {first : Reader α} {second : α → Reader β} {bytes : List UInt8}
    {e : DecodeError} :
    (first >>= second) bytes = .error e ↔
      first bytes = .error e ∨ ∃ a middle, first bytes = .ok (a, middle) ∧
        second a middle = .error e := by
  change (first bytes >>= fun found => second found.1 found.2) = _ ↔ _
  cases h : first bytes with
  | error e' => simp [bind, Except.bind]
  | ok found =>
      obtain ⟨a, middle⟩ := found
      simp [bind, Except.bind]

theorem local_lift (x : Except DecodeError α) : Local (liftM x : Reader α) := by
  cases x with
  | error e =>
      refine ⟨fun bytes a rest found => ?_, fun bytes e' failed _ more => failed⟩
      cases (lift_eq_ok_iff.mp found).1
  | ok a =>
      refine ⟨fun bytes b rest found more => ?_, fun bytes e failed _ more => ?_⟩
      · obtain ⟨same, rfl⟩ := lift_eq_ok_iff.mp found
        exact lift_eq_ok_iff.mpr ⟨same, rfl⟩
      · cases failed

theorem local_pure (a : α) : Local (pure a : Reader α) :=
  local_lift (.ok a)

theorem local_throw (e : DecodeError) : Local (throw e : Reader α) :=
  local_lift (.error e)

theorem Local.bind {first : Reader α} {second : α → Reader β} (h : Local first)
    (h' : ∀ a, Local (second a)) : Local (first >>= second) := by
  constructor
  · intro bytes b rest found more
    obtain ⟨a, middle, hfirst, hsecond⟩ := bind_eq_ok_iff.mp found
    exact bind_eq_ok_iff.mpr
      ⟨a, middle ++ more, h.ok_append _ _ _ hfirst more, (h' a).ok_append _ _ _ hsecond more⟩
  · intro bytes e failed other more
    rw [bind_eq_error_iff] at failed ⊢
    cases failed with
    | inl inFirst => exact .inl (h.error_append _ _ inFirst other more)
    | inr inSecond =>
        obtain ⟨a, middle, hfirst, hsecond⟩ := inSecond
        exact .inr ⟨a, middle ++ more, h.ok_append _ _ _ hfirst more,
          (h' a).error_append _ _ hsecond other more⟩

/-! ## Readers that may refuse -/

/-- The reader finds `a` and leaves `rest`, or it fails and the error is one of those that `refused`
tells. -/
def Yields (r : Reader α) (refused : DecodeError → Prop) (bytes : List UInt8) (a : α)
    (rest : List UInt8) : Prop :=
  r bytes = .ok (a, rest) ∨ ∃ e, refused e ∧ r bytes = .error e

section

variable {r : Reader α} {refused refused' : DecodeError → Prop} {bytes middle rest : List UInt8}
  {a : α} {b : β}

theorem Yields.mono (h : Yields r refused bytes a rest) (more : ∀ e, refused e → refused' e) :
    Yields r refused' bytes a rest :=
  h.imp_right fun ⟨e, he, failed⟩ => ⟨e, more e he, failed⟩

theorem yields_pure : Yields (pure a) refused bytes a bytes :=
  .inl rfl

theorem yields_lift (x : Except DecodeError Unit) :
    Yields (liftM x) (fun e => x = .error e) bytes () bytes := by
  cases x with
  | ok => exact .inl rfl
  | error e => exact .inr ⟨e, rfl, rfl⟩

theorem Yields.bind {second : α → Reader β} (h : Yields r refused bytes a middle)
    (h' : Yields (second a) refused middle b rest) :
    Yields (r >>= second) refused bytes b rest := by
  cases h with
  | inr fails =>
      obtain ⟨e, he, failed⟩ := fails
      exact .inr ⟨e, he, bind_eq_error_iff.mpr (.inl failed)⟩
  | inl first =>
      cases h' with
      | inl found => exact .inl (bind_eq_ok_iff.mpr ⟨_, _, first, found⟩)
      | inr fails =>
          obtain ⟨e, he, failed⟩ := fails
          exact .inr ⟨e, he, bind_eq_error_iff.mpr (.inr ⟨_, _, first, failed⟩)⟩

end

end Reader

open Reader

namespace Format

variable {f : Format α} {g : Format β}

/-! ## Numbers -/

/-- A number is cut off or it is read; it cannot be wrong. -/
theorem readLittleEndian_eq_error {width : Nat} {bytes : List UInt8} {e : DecodeError}
    (failed : readLittleEndian width bytes = .error e) : e = .endOfInput := by
  induction width generalizing bytes with
  | zero => cases failed
  | succ width ih =>
      cases bytes with
      | nil => simpa [readLittleEndian, eq_comm] using failed
      | cons low bytes =>
          rw [readLittleEndian] at failed
          cases h : readLittleEndian width bytes with
          | error e' =>
              rw [h] at failed
              cases failed
              exact ih h
          | ok found =>
              rw [h] at failed
              cases failed

theorem local_word (width : Nat) : (word width).read.Local := by
  constructor
  · intro bytes n rest found more
    rw [exact_word width] at found ⊢
    obtain ⟨bound, rfl⟩ := found
    exact ⟨bound, by simp⟩
  · intro bytes e failed other
    cases other (readLittleEndian_eq_error failed)

theorem local_map (h : f.read.Local) (forth : α → β) (back : β → α) :
    (f.map forth back).read.Local :=
  h.bind fun a => local_pure (forth a)

theorem local_uint8 : uint8.read.Local :=
  local_map (local_word 1) _ _

theorem local_uint32 : uint32.read.Local :=
  local_map (local_word 4) _ _

theorem local_uint64 : uint64.read.Local :=
  local_map (local_word 8) _ _

theorem local_bool : bool.read.Local := by
  refine local_uint8.bind fun found => ?_
  split
  · exact local_pure false
  · exact local_pure true
  · exact local_throw _

/-! ## Compound values -/

theorem local_pair (hf : f.read.Local) (hg : g.read.Local) : (f.pair g).read.Local :=
  hf.bind fun a => hg.bind fun b => local_pure (a, b)

theorem local_readMany (h : f.read.Local) (count : Nat) (found : Array α) :
    (f.readMany count found).Local := by
  induction count generalizing found with
  | zero => exact local_pure found
  | succ count ih =>
      rw [readMany_succ]
      exact h.bind fun a => ih (found.push a)

theorem local_array (h : f.read.Local) (makeRoom : Nat → Except DecodeError Unit) :
    (f.array makeRoom).read.Local :=
  (local_word 8).bind fun count => (local_lift (makeRoom count)).bind fun _ =>
    local_readMany h count #[]

theorem local_list (h : f.read.Local) (makeRoom : Nat → Except DecodeError Unit) :
    (f.list makeRoom).read.Local :=
  local_map (local_array h makeRoom) _ _

/-! ## Formats of the parts -/

theorem local_slot : slot.read.Local :=
  local_map (local_pair local_uint32 local_bool) _ _

theorem local_exprId : exprId.read.Local :=
  local_map local_uint32 _ _

theorem local_blockId : blockId.read.Local :=
  local_map local_uint32 _ _

theorem local_opcode : opcode.read.Local := by
  refine local_uint32.bind fun found => ?_
  split
  case h_7 => exact local_throw _
  all_goals exact local_pure _

theorem local_operand : operand.read.Local := by
  refine local_uint32.bind fun found => ?_
  split
  · exact local_uint64.bind fun value => local_pure _
  · exact (local_list local_uint8 _).bind fun value => local_pure _
  · exact local_slot.bind fun s => local_pure _
  · exact local_throw _

theorem local_edge : edge.read.Local := by
  refine local_uint32.bind fun found => ?_
  split
  · exact local_pure _
  · exact local_blockId.bind fun target => local_pure _
  · exact local_blockId.bind fun onTrue => local_blockId.bind fun onFalse => local_pure _
  · exact local_throw _

section

variable (makeRoom : Nat → Except DecodeError Unit)

theorem local_instr : (instr makeRoom).read.Local :=
  local_map (local_pair local_opcode (local_pair (local_list local_operand _) local_exprId)) _ _

theorem local_block : (block makeRoom).read.Local :=
  local_map (local_pair (local_list (local_instr makeRoom) _) local_edge) _ _

theorem local_graph : (graph makeRoom).read.Local :=
  local_map (local_array (local_block makeRoom) _) _ _

theorem local_fragment : fragment.read.Local :=
  local_map (local_pair local_blockId local_blockId) _ _

theorem local_program : (program makeRoom).read.Local :=
  local_map (local_pair (local_graph makeRoom)
    (local_pair local_fragment (local_array local_slot _))) _ _

end

/-! ## Values that there may be no room for -/

/-- What is written for a value is read back as that value, or the value is refused. -/
def Answers (f : Format α) (domain : α → Prop) (refused : α → DecodeError → Prop) : Prop :=
  ∀ a, domain a → ∀ rest, f.read.Yields (refused a) (f.write a ++ rest) a rest

section

variable {domain domain' : α → Prop} {codomain : β → Prop}
  {refused refused' : α → DecodeError → Prop} {refusedToo : β → DecodeError → Prop}

theorem Exact.answers (exact : f.Exact domain) : f.Answers domain fun _ _ => False :=
  fun a ha rest => .inl ((exact _ a rest).mpr ⟨ha, rfl⟩)

theorem Answers.mono (h : f.Answers domain refused) (fewer : ∀ a, domain' a → domain a)
    (more : ∀ a e, refused a e → refused' a e) : f.Answers domain' refused' :=
  fun a ha rest => (h a (fewer a ha) rest).mono (more a)

theorem Answers.map (h : f.Answers domain refused) {forth : α → β} {back : β → α}
    (forth_back : ∀ b, forth (back b) = b) :
    (f.map forth back).Answers (fun b => domain (back b)) fun b => refused (back b) := by
  intro b hb rest
  have found : Yields (pure (forth (back b))) (refused (back b)) rest b rest := by
    rw [forth_back]
    exact yields_pure
  exact (h (back b) hb rest).bind found

theorem Answers.pair (hf : f.Answers domain refused) (hg : g.Answers codomain refusedToo) :
    (f.pair g).Answers (fun ab => domain ab.1 ∧ codomain ab.2)
      fun ab e => refused ab.1 e ∨ refusedToo ab.2 e := by
  intro ab hab rest
  have first := (hf ab.1 hab.1 (g.write ab.2 ++ rest)).mono fun e => Or.inl (b := refusedToo ab.2 e)
  have second := (hg ab.2 hab.2 rest).mono fun e => Or.inr (a := refused ab.1 e)
  rw [← List.append_assoc] at first
  exact first.bind (second.bind yields_pure)

theorem Answers.readMany (h : f.Answers domain refused) (as : List α) (all : ∀ a ∈ as, domain a)
    (found : Array α) (rest : List UInt8) :
    (f.readMany as.length found).Yields (fun e => ∃ a ∈ as, refused a e)
      (as.flatMap f.write ++ rest) (found ++ as) rest := by
  induction as generalizing found with
  | nil => exact .inl (by simp [Format.readMany])
  | cons a as ih =>
      rw [List.forall_mem_cons] at all
      rw [List.length_cons, readMany_succ, List.flatMap_cons, List.append_assoc]
      have others := ih all.2 (found.push a)
      rw [show found.push a ++ as = found ++ (a :: as) by simp] at others
      refine Yields.bind ((h a all.1 _).mono ?_) (others.mono ?_)
      · intro e he
        exact ⟨a, List.mem_cons_self, he⟩
      · intro e he
        obtain ⟨b, m, hb⟩ := he
        exact ⟨b, List.mem_cons_of_mem _ m, hb⟩

theorem Answers.array (h : f.Answers domain refused) (makeRoom : Nat → Except DecodeError Unit) :
    (f.array makeRoom).Answers (fun as => as.size < UInt64.size ∧ ∀ a ∈ as, domain a)
      fun as e => makeRoom as.size = .error e ∨ ∃ a ∈ as, refused a e := by
  rintro as ⟨short, all⟩ rest
  change Yields ((word 8).read >>= fun count => liftM (makeRoom count) >>= fun _ =>
    f.readMany count #[]) _ (((word 8).write as.size ++ as.toList.flatMap f.write) ++ rest) as rest
  have counted := (exact_word 8).answers as.size short (as.toList.flatMap f.write ++ rest)
  have items := h.readMany as.toList (by simpa using all) #[] rest
  rw [Array.length_toList, show #[] ++ as.toList = as by simp] at items
  rw [List.append_assoc]
  refine (counted.mono fun _ => False.elim).bind (.bind ((yields_lift _).mono fun _ => .inl) ?_)
  exact items.mono fun e he => .inr (by simpa using he)

theorem Answers.list (h : f.Answers domain refused) (makeRoom : Nat → Except DecodeError Unit) :
    (f.list makeRoom).Answers (fun as => as.length < UInt64.size ∧ ∀ a ∈ as, domain a)
      fun as e => makeRoom as.length = .error e ∨ ∃ a ∈ as, refused a e :=
  ((h.array makeRoom).map fun as => List.toList_toArray).mono (fun as => by simp)
    fun as e => by simp

end

section

variable (makeRoom : Nat → Except DecodeError Unit)

theorem answers_instr : (instr makeRoom).Answers Instr.Short fun instr e =>
    makeRoom instr.operands.length = .error e := by
  have parts := exact_opcode.answers.pair
    ((exact_operand.answers.list makeRoom).pair exact_exprId.answers)
  refine (parts.map fun _ => rfl).mono ?_ ?_
  · intro instr short
    exact ⟨trivial, short, trivial⟩
  · intro instr e refused
    simpa using refused

theorem answers_block : (block makeRoom).Answers Block.Short fun block e =>
    ∃ instr ∈ block.instrs, makeRoom instr.operands.length = .error e := by
  have parts := ((answers_instr makeRoom).list fun _ => .ok ()).pair exact_edge.answers
  refine (parts.map fun _ => rfl).mono ?_ ?_
  · intro block short
    exact ⟨short, trivial⟩
  · intro block e refused
    simpa using refused

theorem answers_graph : (graph makeRoom).Answers
    (fun graph => graph.size < UInt64.size ∧ ∀ block ∈ graph.blocks, block.Short) fun graph e =>
    ∃ block ∈ graph.blocks, ∃ instr ∈ block.instrs, makeRoom instr.operands.length = .error e := by
  have parts := (answers_block makeRoom).array fun _ => .ok ()
  refine (parts.map fun _ => rfl).mono (fun graph short => short) ?_
  intro graph e refused
  simpa using refused

theorem answers_program : (program makeRoom).Answers Program.Short fun p e =>
    ∃ block ∈ p.graph.blocks, ∃ instr ∈ block.instrs,
      makeRoom instr.operands.length = .error e := by
  have parts := (answers_graph makeRoom).pair
    (exact_fragment.answers.pair (exact_slot.answers.array fun _ => .ok ()))
  refine (parts.map fun _ => rfl).mono ?_ ?_
  · intro p short
    exact ⟨short.1, trivial, short.2, fun _ _ => trivial⟩
  · intro p e refused
    simpa using refused

end

/-- The end of what was written is missing: a local reader comes to the end of the bytes, or it has
refused the value before. -/
theorem Answers.read_of_isPrefix {domain : α → Prop} {refused : α → DecodeError → Prop}
    (h : f.Answers domain refused) (steady : f.read.Local) {a : α} (ha : domain a)
    {bytes : List UInt8} (cut : bytes <+: f.write a) (proper : bytes ≠ f.write a) :
    ∃ e, f.read bytes = .error e ∧ (e = .endOfInput ∨ refused a e) := by
  obtain ⟨missing, hwhole⟩ := cut
  have whole := h a ha []
  rw [List.append_nil, ← hwhole] at whole
  cases read : f.read bytes with
  | ok found =>
      obtain ⟨b, rest⟩ := found
      have longer := steady.ok_append _ _ _ read missing
      rcases whole with full | ⟨e, -, failed⟩
      · rw [longer, Except.ok.injEq, Prod.mk.injEq, List.append_eq_nil_iff] at full
        obtain ⟨-, -, rfl⟩ := full
        rw [List.append_nil] at hwhole
        exact absurd hwhole proper
      · rw [longer] at failed
        cases failed
  | error e =>
      refine ⟨e, rfl, ?_⟩
      by_cases other : e = .endOfInput
      · exact .inl other
      · have longer := steady.error_append _ _ read other missing
        rcases whole with full | ⟨e', he, failed⟩
        · rw [longer] at full
          cases full
        · rw [longer] at failed
          cases failed
          exact .inr he

end Format

namespace Program

theorem decode_eq_error_iff_read {memory : Memory} {bytes : List UInt8} {e : DecodeError} :
    decode memory bytes = .error e ↔
      (Format.program memory.makeRoom).read bytes = .error e := by
  unfold decode
  cases (Format.program memory.makeRoom).read bytes <;> simp [Functor.map, Except.map]

theorem exists_read_error {p : Program} (short : p.Short) {bytes : List UInt8}
    (cut : bytes <+: p.encode) (proper : bytes ≠ p.encode)
    (makeRoom : Nat → Except DecodeError Unit) :
    ∃ e, (Format.program makeRoom).read bytes = .error e ∧
      (e = .endOfInput ∨ ∃ block ∈ p.graph.blocks, ∃ instr ∈ block.instrs,
        makeRoom instr.operands.length = .error e) := by
  rw [← Format.write_program makeRoom] at cut proper
  exact (Format.answers_program makeRoom).read_of_isPrefix (Format.local_program makeRoom) short
    cut proper

/-- A failure other than the end of the input is the same failure whatever bytes follow. The
encoding of a program of which the end is missing fails to decode because the input ends, unless
the memory has no room for the operands of one of the instructions. -/
theorem decode_error_of_isPrefix :
    (∀ memory bytes e, decode memory bytes = .error e → e ≠ .endOfInput →
        ∀ more, decode memory (bytes ++ more) = .error e) ∧
      ∀ p : Program, p.Short → ∀ bytes, bytes <+: p.encode → bytes ≠ p.encode →
        Format.program.read bytes = .error .endOfInput ∧
          (∀ memory, p.RoomIn memory → decode memory bytes = .error .endOfInput) ∧
          ∀ memory, ∃ e, decode memory bytes = .error e ∧
            (e = .endOfInput ∨ ∃ block ∈ p.graph.blocks, ∃ instr ∈ block.instrs,
              memory.makeRoom instr.operands.length = .error e) := by
  constructor
  · intro memory bytes e failed other more
    rw [decode_eq_error_iff_read] at failed ⊢
    exact (Format.local_program memory.makeRoom).error_append _ _ failed other more
  · intro p short bytes cut proper
    refine ⟨?_, ?_, ?_⟩
    · obtain ⟨e, failed, rfl | ⟨_, _, _, _, refused⟩⟩ :=
        exists_read_error short cut proper fun _ => .ok ()
      · exact failed
      · cases refused
    · intro memory room
      obtain ⟨e, failed, rfl | ⟨block, inGraph, instr, inBlock, refused⟩⟩ :=
        exists_read_error short cut proper memory.makeRoom
      · exact decode_eq_error_iff_read.mpr failed
      · rw [room block inGraph instr inBlock] at refused
        cases refused
    · intro memory
      simp only [decode_eq_error_iff_read]
      exact exists_read_error short cut proper memory.makeRoom

theorem decode_error_of_isPrefix_one_slot :
    let p : Program := ⟨⟨#[⟨[⟨.byte, [.bytes [7]], ⟨4⟩⟩], .none⟩]⟩, ⟨⟨0⟩, ⟨0⟩⟩, #[⟨3, true⟩]⟩
    p.Short ∧ p.RoomIn (.upTo 0) ∧
      decode (.upTo 0) (p.encode.take 69) = .error .endOfInput ∧
      decode (.upTo 0) (p.encode.take 69 ++ [2, 5]) = .error (.invalidBool 2) := by
  intro p
  have short : p.Short := by decide
  have room : p.RoomIn (.upTo 0) := by decide +kernel
  have cut := (decode_error_of_isPrefix.2 p short _ (List.take_prefix 69 _) (by decide +kernel)).2.1
  have failed : decode (.upTo 0) (p.encode.take 69 ++ [2]) = .error (.invalidBool 2) := by
    decide +kernel
  have longer := decode_error_of_isPrefix.1 (.upTo 0) _ _ failed (by decide) [5]
  exact ⟨short, room, cut (.upTo 0) room, by simpa using longer⟩

end Program

end Flowgraph
