/-! Binary formats: a writer and a reader of one type of value, and ways to combine them.

A reader takes a value off the front of the bytes and leaves the rest. The parts of a value are read
one after another, and the first that cannot be read decides the error. -/

namespace Flowgraph

inductive DecodeError where
  | endOfInput
  | invalidBool (found : UInt8)
  /-- The tag of an alternative that does not exist, of `count` that do. -/
  | invalidTag (found : UInt32) (count : Nat)
  /-- A list is said to be so long that it would take `size` bytes, and there is no such room. -/
  | outOfMemory (size : Nat)
  /-- A list is said to be longer than any list can be. -/
  | capacityOverflow
  deriving DecidableEq

def DecodeError.message : DecodeError → String
  | endOfInput => "io error: unexpected end of file"
  | invalidBool found =>
      "invalid u8 while decoding bool, expected 0 or 1, found " ++ toString found.toNat
  | invalidTag found count =>
      "invalid value: integer `" ++ toString found.toNat ++
        "`, expected variant index 0 <= i < " ++ toString count
  | outOfMemory size =>
      "Allocation error: AllocErr \x7b layout: Layout \x7b size: " ++ toString size ++
        ", align: 8 (1 << 3) \x7d \x7d"
  | capacityOverflow => "Allocation error: CapacityOverflow"

abbrev Reader (α : Type) : Type :=
  StateT (List UInt8) (Except DecodeError) α

structure Format (α : Type) where
  write : α → List UInt8
  read : Reader α

namespace Format

variable {α β : Type}

/-! ## Numbers -/

/-- The lowest `width` bytes of a number, the lowest first. -/
def littleEndian : (width n : Nat) → List UInt8
  | 0, _ => []
  | width + 1, n => .ofNat n :: littleEndian width (n / 256)

def readLittleEndian : (width : Nat) → Reader Nat
  | 0, bytes => .ok (0, bytes)
  | _ + 1, [] => .error .endOfInput
  | width + 1, low :: bytes => do
      let (high, rest) ← readLittleEndian width bytes
      return (low.toNat + 256 * high, rest)

/-- Numbers below `256 ^ width`. -/
def word (width : Nat) : Format Nat :=
  ⟨littleEndian width, readLittleEndian width⟩

/-- Values that stand for values of another type, one for one. -/
def map (f : Format α) (forth : α → β) (back : β → α) : Format β where
  write b := f.write (back b)
  read := return forth (← f.read)

def uint8 : Format UInt8 :=
  (word 1).map .ofNat UInt8.toNat

def uint32 : Format UInt32 :=
  (word 4).map .ofNat UInt32.toNat

def uint64 : Format UInt64 :=
  (word 8).map .ofNat UInt64.toNat

/-- One byte, zero or one. -/
def bool : Format Bool where
  write b := uint8.write (if b then 1 else 0)
  read := do
    match ← uint8.read with
    | 0 => return false
    | 1 => return true
    | found => throw (.invalidBool found)

/-! ## Compound values -/

def pair (f : Format α) (g : Format β) : Format (α × β) where
  write := fun (a, b) => f.write a ++ g.write b
  read := do
    let a ← f.read
    let b ← g.read
    return (a, b)

/-- Reads `count` values, behind those already read. -/
def readMany (f : Format α) : (count : Nat) → Array α → Reader (Array α)
  | 0, found, bytes => .ok (found, bytes)
  | count + 1, found, bytes =>
    match f.read bytes with
    | .ok (a, rest) => readMany f count (found.push a) rest
    | .error e => .error e

/-- The number of values in eight bytes, then the values. The number is not checked against the
bytes that are there: a list that is too long ends where they do. Room for the values may have to be
made before the first of them is read. -/
def array (f : Format α) (makeRoom : (count : Nat) → Except DecodeError Unit := fun _ => .ok ()) :
    Format (Array α) where
  write as := (word 8).write as.size ++ as.toList.flatMap f.write
  read := do
    let count ← (word 8).read
    makeRoom count
    f.readMany count #[]

def list (f : Format α) (makeRoom : (count : Nat) → Except DecodeError Unit := fun _ => .ok ()) :
    Format (List α) :=
  (f.array makeRoom).map Array.toList List.toArray

/-- The number of an alternative, in front of what it holds. -/
def tag : Format UInt32 :=
  uint32

end Format

end Flowgraph
