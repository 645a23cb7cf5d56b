/-! Byte strings as text, two lowercase hexadecimal digits a byte. -/

namespace Flowgraph.Hex

def ofByte (b : UInt8) : List Char :=
  [Nat.digitChar (b.toNat / 16), Nat.digitChar (b.toNat % 16)]

def encode (bytes : List UInt8) : List Char :=
  bytes.flatMap ofByte

/-- The value of a digit in `encode`'s alphabet. -/
def digit? (c : Char) : Option Nat :=
  if '0' ≤ c ∧ c ≤ '9' then some (c.toNat - '0'.toNat)
  else if 'a' ≤ c ∧ c ≤ 'f' then some (c.toNat - 'a'.toNat + 10)
  else none

def decode? : List Char → Option (List UInt8)
  | [] => some []
  | [_] => none
  | high :: low :: rest => do
      let h ← digit? high
      let l ← digit? low
      let bytes ← decode? rest
      pure (.ofNat (16 * h + l) :: bytes)

theorem digit?_digitChar : ∀ n < 16, digit? (Nat.digitChar n) = some n := by
  decide

theorem decode?_encode (bytes : List UInt8) : decode? (encode bytes) = some bytes := by
  induction bytes with
  | nil => rfl
  | cons b rest ih =>
      have high : b.toNat / 16 < 16 := by have := b.toNat_lt; omega
      have low : b.toNat % 16 < 16 := Nat.mod_lt _ (by decide)
      have whole : 16 * (b.toNat / 16) + b.toNat % 16 = b.toNat := Nat.div_add_mod _ _
      simp only [encode] at ih
      simp [encode, ofByte, decode?, digit?_digitChar _ high, digit?_digitChar _ low, ih, whole,
        -UInt8.ofNat_add, -UInt8.ofNat_mul]

end Flowgraph.Hex
