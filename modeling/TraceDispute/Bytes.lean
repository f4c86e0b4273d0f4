/-!
# Byte strings

Byte strings are lists of bytes.  Numbers are laid out in a fixed number of
bytes, least significant first (`littleEndian`) or last (`bigEndian`), and
`ofLittleEndian` and `ofBigEndian` read them back.
-/

namespace TraceDispute

/-- A string of bytes. -/
abbrev Bytes : Type := List UInt8

namespace Bytes

/-- The `width` low bytes of a number, least significant first. -/
def littleEndian : (width : Nat) → (value : Nat) → Bytes
  | 0, _ => []
  | width + 1, value => UInt8.ofNat value :: littleEndian width (value / 256)

/-- The number whose bytes are given, least significant first. -/
def ofLittleEndian : Bytes → Nat
  | [] => 0
  | b :: bs => b.toNat + 256 * ofLittleEndian bs

/-- The `width` low bytes of a number, most significant first. -/
def bigEndian (width value : Nat) : Bytes := (littleEndian width value).reverse

/-- The number whose bytes are given, most significant first. -/
def ofBigEndian (bytes : Bytes) : Nat := ofLittleEndian bytes.reverse

@[simp] theorem length_littleEndian (width value : Nat) :
    (littleEndian width value).length = width := by
  induction width generalizing value with
  | zero => rfl
  | succ width ih => simp [littleEndian, ih]

@[simp] theorem length_bigEndian (width value : Nat) : (bigEndian width value).length = width := by
  simp [bigEndian]

/-- Reading back `width` bytes gives the number modulo that power of 256. -/
theorem ofLittleEndian_littleEndian (width value : Nat) :
    ofLittleEndian (littleEndian width value) = value % Nat.pow 256 width := by
  induction width generalizing value with
  | zero => simp [littleEndian, ofLittleEndian, Nat.mod_one]
  | succ width ih =>
      have h : Nat.pow 256 (width + 1) = 256 * Nat.pow 256 width := Nat.mul_comm _ _
      rw [littleEndian, ofLittleEndian, ih, h, Nat.mod_mul]
      simp

theorem ofBigEndian_bigEndian (width value : Nat) :
    ofBigEndian (bigEndian width value) = value % Nat.pow 256 width := by
  simp [ofBigEndian, bigEndian, ofLittleEndian_littleEndian]

/-- The bytes of a counter, most significant first. -/
def ofUInt64 (x : UInt64) : Bytes := bigEndian 8 x.toNat

@[simp] theorem length_ofUInt64 (x : UInt64) : (ofUInt64 x).length = 8 := by
  simp [ofUInt64]

/-- The counter in eight bytes, most significant first. -/
def toUInt64 (bytes : Bytes) : UInt64 := UInt64.ofNat (ofBigEndian bytes)

@[simp] theorem toUInt64_ofUInt64 (x : UInt64) : toUInt64 (ofUInt64 x) = x := by
  apply UInt64.toNat_inj.mp
  simp [toUInt64, ofUInt64, ofBigEndian_bigEndian]

end Bytes

end TraceDispute
