import Mathlib.Tactic
import Flowgraph.Format

/-! # Exact formats

A format is exact on a set of values when reading accepts what writing produces for them, followed
by any bytes, and nothing else. The ways of combining formats keep exactness. -/

namespace Flowgraph

variable {α β : Type}

/-- A reader of two parts succeeds when both do, each on what the one before it left. -/
theorem Reader.bind_eq_ok_iff {first : Reader α} {second : α → Reader β} {bytes rest : List UInt8}
    {b : β} :
    (first >>= second) bytes = .ok (b, rest) ↔
      ∃ a middle, first bytes = .ok (a, middle) ∧ second a middle = .ok (b, rest) := by
  change (first bytes >>= fun found => second found.1 found.2) = _ ↔ _
  cases h : first bytes with
  | error e => simp [bind, Except.bind]
  | ok found =>
      obtain ⟨a, middle⟩ := found
      simp [bind, Except.bind]

theorem Reader.pure_eq_ok_iff {a b : α} {bytes rest : List UInt8} :
    (pure a : Reader α) bytes = .ok (b, rest) ↔ a = b ∧ bytes = rest := by
  change Except.ok (a, bytes) = _ ↔ _
  simp

theorem Reader.throw_eq_ok_iff {e : DecodeError} {a : α} {bytes rest : List UInt8} :
    (throw e : Reader α) bytes = .ok (a, rest) ↔ False := by
  change Except.error e = _ ↔ _
  simp

theorem Reader.lift_eq_ok_iff {x : Except DecodeError α} {a : α} {bytes rest : List UInt8} :
    (liftM x : Reader α) bytes = .ok (a, rest) ↔ x = .ok a ∧ bytes = rest := by
  change (x >>= fun a => .ok (a, bytes)) = _ ↔ _
  cases x <;> simp [bind, Except.bind]

namespace Format

/-- Reading accepts exactly the written forms of the values in `domain`, each as its value, and
leaves what comes behind them. -/
def Exact (f : Format α) (domain : α → Prop) : Prop :=
  ∀ bytes a rest, f.read bytes = .ok (a, rest) ↔ domain a ∧ bytes = f.write a ++ rest

variable {f : Format α} {g : Format β} {domain : α → Prop} {codomain : β → Prop}

theorem Exact.congr {domain' : α → Prop} (h : f.Exact domain) (same : ∀ a, domain a ↔ domain' a) :
    f.Exact domain' := by
  intro bytes a rest
  rw [h, same]

/-- No value has a second written form, and no written form runs on into another. -/
theorem Exact.injective (h : f.Exact domain) {a b : α} {rest rest' : List UInt8} (ha : domain a)
    (hb : domain b) (same : f.write a ++ rest = f.write b ++ rest') : a = b ∧ rest = rest' := by
  have first := (h _ a rest).mpr ⟨ha, rfl⟩
  have second := (h _ b rest').mpr ⟨hb, rfl⟩
  rw [same, second] at first
  simpa [eq_comm] using first

/-! ## Numbers -/

theorem readLittleEndian_eq_ok_iff (width : Nat) (bytes : List UInt8) (n : Nat)
    (rest : List UInt8) :
    readLittleEndian width bytes = .ok (n, rest) ↔
      n < 256 ^ width ∧ bytes = littleEndian width n ++ rest := by
  induction width generalizing bytes n with
  | zero => simp [readLittleEndian, littleEndian, eq_comm]
  | succ width ih =>
      cases bytes with
      | nil => simp [readLittleEndian, littleEndian]
      | cons low bytes =>
          have hlow := low.toNat_lt
          have hread : readLittleEndian (width + 1) (low :: bytes) = .ok (n, rest) ↔
              ∃ high, readLittleEndian width bytes = .ok (high, rest) ∧
                low.toNat + 256 * high = n := by
            rw [readLittleEndian]
            cases h : readLittleEndian width bytes with
            | error e => simp [bind, Except.bind]
            | ok found =>
                obtain ⟨high, middle⟩ := found
                simp [bind, Except.bind, pure, Except.pure, and_comm]
          rw [hread]
          simp only [ih, littleEndian, List.cons_append, List.cons.injEq, pow_succ]
          constructor
          · intro accepted
            rcases accepted with ⟨high, ⟨hhigh, rfl⟩, rfl⟩
            have hdiv : (low.toNat + 256 * high) / 256 = high := by omega
            refine ⟨by omega, ?_, by rw [hdiv]⟩
            apply UInt8.toNat_inj.mp
            simp
          · intro written
            rcases written with ⟨hn, rfl, rfl⟩
            refine ⟨n / 256, ⟨by omega, rfl⟩, ?_⟩
            simp
            omega

theorem exact_word (width : Nat) : (word width).Exact (· < 256 ^ width) :=
  readLittleEndian_eq_ok_iff width

theorem Exact.map (h : f.Exact domain) {forth : α → β} {back : β → α}
    (forth_back : ∀ b, forth (back b) = b) (back_forth : ∀ a, domain a → back (forth a) = a) :
    (f.map forth back).Exact fun b => domain (back b) := by
  intro bytes b rest
  change (f.read >>= fun a => pure (forth a)) bytes = _ ↔ _ ∧ bytes = f.write (back b) ++ rest
  simp only [Reader.bind_eq_ok_iff, Reader.pure_eq_ok_iff, h bytes]
  constructor
  · intro accepted
    rcases accepted with ⟨a, middle, ⟨ha, rfl⟩, rfl, rfl⟩
    rw [back_forth a ha]
    exact ⟨ha, rfl⟩
  · intro written
    rcases written with ⟨hb, rfl⟩
    exact ⟨back b, rest, ⟨hb, rfl⟩, forth_back b, rfl⟩

theorem exact_uint8 : uint8.Exact fun _ => True :=
  ((exact_word 1).map (fun _ => UInt8.ofNat_toNat) (fun _ h => UInt8.toNat_ofNat_of_lt' h)).congr
    fun b => iff_true_intro b.toNat_lt

theorem exact_uint32 : uint32.Exact fun _ => True :=
  ((exact_word 4).map (fun _ => UInt32.ofNat_toNat) (fun _ h => UInt32.toNat_ofNat_of_lt' h)).congr
    fun b => iff_true_intro b.toNat_lt

theorem exact_uint64 : uint64.Exact fun _ => True :=
  ((exact_word 8).map (fun _ => UInt64.ofNat_toNat) (fun _ h => UInt64.toNat_ofNat_of_lt' h)).congr
    fun b => iff_true_intro b.toNat_lt

/-! ## Compound values -/

theorem Exact.pair (hf : f.Exact domain) (hg : g.Exact codomain) :
    (f.pair g).Exact fun ab => domain ab.1 ∧ codomain ab.2 := by
  intro bytes ab rest
  obtain ⟨a, b⟩ := ab
  change (f.read >>= fun a => g.read >>= fun b => pure (a, b)) bytes = _ ↔
    _ ∧ bytes = (f.write a ++ g.write b) ++ rest
  simp only [Reader.bind_eq_ok_iff, Reader.pure_eq_ok_iff, hf bytes, hg _, Prod.mk.injEq]
  constructor
  · intro accepted
    rcases accepted with ⟨_, _, ⟨ha, rfl⟩, _, _, ⟨hb, rfl⟩, ⟨rfl, rfl⟩, rfl⟩
    exact ⟨⟨ha, hb⟩, by simp⟩
  · intro written
    rcases written with ⟨⟨ha, hb⟩, rfl⟩
    exact ⟨a, g.write b ++ rest, ⟨ha, by simp⟩, b, rest, ⟨hb, rfl⟩, ⟨rfl, rfl⟩, rfl⟩

/-- A tag in front tells how to read the rest. -/
theorem exact_of_tag (tagOf : α → UInt32) (payload : α → List UInt8)
    {alternative : UInt32 → Reader α}
    (write : ∀ a, f.write a = tag.write (tagOf a) ++ payload a)
    (read : f.read = tag.read >>= alternative)
    (exact : ∀ t bytes a rest, alternative t bytes = .ok (a, rest) ↔
      t = tagOf a ∧ domain a ∧ bytes = payload a ++ rest) : f.Exact domain := by
  intro bytes a rest
  simp only [read, Reader.bind_eq_ok_iff, exact_uint32 bytes, tag, exact, write]
  constructor
  · intro accepted
    rcases accepted with ⟨_, _, ⟨-, rfl⟩, rfl, ha, rfl⟩
    exact ⟨ha, by simp⟩
  · intro written
    rcases written with ⟨ha, rfl⟩
    exact ⟨tagOf a, payload a ++ rest, ⟨trivial, by simp⟩, rfl, ha, rfl⟩

theorem readMany_succ (count : Nat) (found : Array α) :
    f.readMany (count + 1) found = f.read >>= fun a => f.readMany count (found.push a) := by
  funext bytes
  change _ = f.read bytes >>= fun read => f.readMany count (found.push read.1) read.2
  rw [readMany]
  cases f.read bytes <;> rfl

theorem readMany_eq_ok_iff (h : f.Exact domain) (count : Nat) (found as : Array α)
    (bytes rest : List UInt8) :
    f.readMany count found bytes = .ok (as, rest) ↔
      ∃ more : List α, more.length = count ∧ (∀ a ∈ more, domain a) ∧ as = found ++ more ∧
        bytes = more.flatMap f.write ++ rest := by
  induction count generalizing found bytes with
  | zero =>
      simp only [readMany, Except.ok.injEq, Prod.mk.injEq, List.length_eq_zero_iff]
      constructor
      · intro accepted
        rcases accepted with ⟨rfl, rfl⟩
        exact ⟨[], by simp⟩
      · intro written
        rcases written with ⟨_, rfl, -, rfl, rfl⟩
        simp
  | succ count ih =>
      simp only [readMany_succ, Reader.bind_eq_ok_iff, h bytes, ih]
      constructor
      · intro accepted
        rcases accepted with ⟨a, _, ⟨ha, rfl⟩, more, rfl, hmore, rfl, rfl⟩
        exact ⟨a :: more, by simp, by simpa using ⟨ha, hmore⟩, by simp, by simp⟩
      · intro written
        rcases written with ⟨more, hlength, hmore, rfl, rfl⟩
        obtain ⟨a, more, rfl⟩ := List.exists_cons_of_length_eq_add_one hlength
        simp only [List.mem_cons, forall_eq_or_imp] at hmore
        exact ⟨a, more.flatMap f.write ++ rest, ⟨hmore.1, by simp⟩, more, by simpa using hlength,
          hmore.2, by simp, rfl⟩

/-- Lists as long as a 64-bit count can say, if there is room for them. -/
theorem Exact.array (h : f.Exact domain) (makeRoom : Nat → Except DecodeError Unit) :
    (f.array makeRoom).Exact fun as =>
      (as.size < UInt64.size ∧ makeRoom as.size = .ok ()) ∧ ∀ a ∈ as, domain a := by
  intro bytes as rest
  rw [show UInt64.size = 256 ^ 8 by norm_num]
  change ((word 8).read >>= fun count => (liftM (makeRoom count) : Reader Unit) >>= fun _ =>
    f.readMany count #[]) bytes = _ ↔
      _ ∧ bytes = ((word 8).write as.size ++ as.toList.flatMap f.write) ++ rest
  simp only [Reader.bind_eq_ok_iff, Reader.lift_eq_ok_iff, exact_word 8 bytes,
    readMany_eq_ok_iff h]
  constructor
  · intro accepted
    rcases accepted with ⟨_, _, ⟨hcount, rfl⟩, ⟨⟩, _, ⟨hroom, rfl⟩, more, rfl, hmore, rfl, rfl⟩
    exact ⟨⟨⟨by simpa using hcount, by simpa using hroom⟩, by simpa using hmore⟩, by simp⟩
  · intro written
    rcases written with ⟨⟨⟨hcount, hroom⟩, has⟩, rfl⟩
    exact ⟨as.size, as.toList.flatMap f.write ++ rest, ⟨hcount, by simp⟩, (), _, ⟨hroom, rfl⟩,
      as.toList, by simp, by simpa using has, by simp, rfl⟩

theorem Exact.list (h : f.Exact domain) (makeRoom : Nat → Except DecodeError Unit) :
    (f.list makeRoom).Exact fun as =>
      (as.length < UInt64.size ∧ makeRoom as.length = .ok ()) ∧ ∀ a ∈ as, domain a :=
  ((h.array makeRoom).map (fun as => List.toList_toArray) fun _ _ => rfl).congr fun as => by simp

theorem exact_bool : bool.Exact fun _ => True := by
  intro bytes b rest
  change (uint8.read >>= fun found => _) bytes = _ ↔ _ ∧ bytes = uint8.write _ ++ rest
  rw [Reader.bind_eq_ok_iff]
  simp only [exact_uint8 bytes]
  constructor
  · intro accepted
    rcases accepted with ⟨found, middle, ⟨-, rfl⟩, hread⟩
    split at hread
    · obtain ⟨rfl, rfl⟩ := Reader.pure_eq_ok_iff.mp hread
      exact ⟨trivial, rfl⟩
    · obtain ⟨rfl, rfl⟩ := Reader.pure_eq_ok_iff.mp hread
      exact ⟨trivial, rfl⟩
    · cases hread
  · intro written
    rcases written with ⟨-, rfl⟩
    cases b <;> exact ⟨_, rest, ⟨trivial, rfl⟩, rfl⟩

end Format

end Flowgraph
