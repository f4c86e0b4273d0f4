import TraceDispute.Bytes
import TraceDispute.Bytes.Hex
import TraceDispute.Keccak

/-!
# Words of thirty-two bytes

What the contract stores and compares: digests, accumulators, and counters
written as 256-bit numbers.
-/

namespace TraceDispute

/-- A string of thirty-two bytes. -/
structure Word where
  bytes : Bytes
  length_eq : bytes.length = 32
deriving DecidableEq

namespace Word

@[ext] theorem ext {u v : Word} (h : u.bytes = v.bytes) : u = v := by
  cases u; cases v; cases h; rfl

@[simp] theorem length_bytes (w : Word) : w.bytes.length = 32 := w.length_eq

/-- The word of thirty-two zero bytes, the value of an empty accumulator. -/
def zero : Word := ⟨List.replicate 32 0, rfl⟩

instance : Inhabited Word := ⟨zero⟩

/-- A counter as a 256-bit number, most significant byte first. -/
def ofUInt64 (x : UInt64) : Word :=
  ⟨List.replicate 24 0 ++ Bytes.ofUInt64 x, by simp⟩

/-- The word made of these bytes, if there are thirty-two. -/
def ofBytes? (bytes : Bytes) : Option Word :=
  if h : bytes.length = 32 then some ⟨bytes, h⟩ else none

@[simp] theorem ofBytes?_bytes (w : Word) : ofBytes? w.bytes = some w := by
  simp [ofBytes?]

/-- Two counters with the same word are equal. -/
theorem ofUInt64_inj {x y : UInt64} (h : ofUInt64 x = ofUInt64 y) : x = y := by
  have hb : Bytes.ofUInt64 x = Bytes.ofUInt64 y :=
    List.append_cancel_left (congrArg Word.bytes h)
  simpa using congrArg Bytes.toUInt64 hb

/-- The word as `0x` and sixty-four digits. -/
def toHex (w : Word) : String := "0x" ++ Hex.encode w.bytes

end Word

/-- The Keccak-256 digest of a byte string. -/
def keccak (message : Bytes) : Word := ⟨Keccak.hash256 message, Keccak.length_hash256 message⟩

/-- The digest of two words side by side. -/
def keccakPair (left right : Word) : Word := keccak (left.bytes ++ right.bytes)

end TraceDispute
