/-!
# Keccak-256

The hash every commitment of a dispute is made of, over lists of bytes.

A state is five rows of five 64-bit lanes, so that the round functions are
written once per row.  The sponge absorbs seventeen lanes (136 bytes) at a time
and the digest is the first four lanes of the last state.

Everything is structural recursion over lists and numerals: a digest of a
concrete message can be computed by the kernel.
-/

namespace TraceDispute.Keccak

/-- Five lanes with the same `y` coordinate. -/
structure Row where
  a : UInt64
  b : UInt64
  c : UInt64
  d : UInt64
  e : UInt64
deriving DecidableEq

/-- The state of the permutation: rows `y = 0` to `y = 4`. -/
structure State where
  r0 : Row
  r1 : Row
  r2 : Row
  r3 : Row
  r4 : Row
deriving DecidableEq

/-- The row of five zero lanes. -/
def Row.zero : Row := ⟨0, 0, 0, 0, 0⟩

/-- The state before anything is absorbed. -/
def State.zero : State := ⟨.zero, .zero, .zero, .zero, .zero⟩

/-- Lane by lane exclusive or. -/
@[inline] def Row.xor (p q : Row) : Row :=
  ⟨p.a ^^^ q.a, p.b ^^^ q.b, p.c ^^^ q.c, p.d ^^^ q.d, p.e ^^^ q.e⟩

/-- Lane by lane exclusive or of two states. -/
@[inline] def State.xor (s t : State) : State :=
  ⟨s.r0.xor t.r0, s.r1.xor t.r1, s.r2.xor t.r2, s.r3.xor t.r3, s.r4.xor t.r4⟩

/-! ## The permutation -/

/-- Rotates a lane left by `n` bits, `n` between 1 and 63. -/
@[inline] def rotate (x : UInt64) (n : UInt64) : UInt64 :=
  (x <<< n) ||| (x >>> (64 - n))

/-- The mask that theta adds to each row, from the parities of the columns. -/
@[inline] def Row.spread (p : Row) : Row :=
  ⟨p.e ^^^ rotate p.b 1, p.a ^^^ rotate p.c 1, p.b ^^^ rotate p.d 1,
    p.c ^^^ rotate p.e 1, p.d ^^^ rotate p.a 1⟩

/-- Adds to each lane the parities of two neighbouring columns. -/
@[inline] def theta (s : State) : State :=
  let mask := (s.r0.xor (s.r1.xor (s.r2.xor (s.r3.xor s.r4)))).spread
  ⟨s.r0.xor mask, s.r1.xor mask, s.r2.xor mask, s.r3.xor mask, s.r4.xor mask⟩

/-- Rotates every lane by its own amount and moves it to its new place. -/
@[inline] def rhoPi (s : State) : State where
  r0 := ⟨s.r0.a, rotate s.r1.b 44, rotate s.r2.c 43, rotate s.r3.d 21, rotate s.r4.e 14⟩
  r1 := ⟨rotate s.r0.d 28, rotate s.r1.e 20, rotate s.r2.a 3, rotate s.r3.b 45, rotate s.r4.c 61⟩
  r2 := ⟨rotate s.r0.b 1, rotate s.r1.c 6, rotate s.r2.d 25, rotate s.r3.e 8, rotate s.r4.a 18⟩
  r3 := ⟨rotate s.r0.e 27, rotate s.r1.a 36, rotate s.r2.b 10, rotate s.r3.c 15, rotate s.r4.d 56⟩
  r4 := ⟨rotate s.r0.c 62, rotate s.r1.d 55, rotate s.r2.e 39, rotate s.r3.a 41, rotate s.r4.b 2⟩

/-- The one non-linear map, row by row. -/
@[inline] def Row.chi (p : Row) : Row :=
  ⟨p.a ^^^ (~~~p.b &&& p.c), p.b ^^^ (~~~p.c &&& p.d), p.c ^^^ (~~~p.d &&& p.e),
    p.d ^^^ (~~~p.e &&& p.a), p.e ^^^ (~~~p.a &&& p.b)⟩

/-- Adds a round constant to the first lane. -/
@[inline] def iota (s : State) (constant : UInt64) : State :=
  { s with r0 := { s.r0 with a := s.r0.a ^^^ constant } }

/-- One round. -/
def round (s : State) (constant : UInt64) : State :=
  let t := rhoPi (theta s)
  iota ⟨t.r0.chi, t.r1.chi, t.r2.chi, t.r3.chi, t.r4.chi⟩ constant

/-- The constants of the twenty-four rounds. -/
def roundConstants : List UInt64 :=
  [0x0000000000000001, 0x0000000000008082, 0x800000000000808a, 0x8000000080008000,
   0x000000000000808b, 0x0000000080000001, 0x8000000080008081, 0x8000000000008009,
   0x000000000000008a, 0x0000000000000088, 0x0000000080008009, 0x000000008000000a,
   0x000000008000808b, 0x800000000000008b, 0x8000000000008089, 0x8000000000008003,
   0x8000000000008002, 0x8000000000000080, 0x000000000000800a, 0x800000008000000a,
   0x8000000080008081, 0x8000000000008080, 0x0000000080000001, 0x8000000080008008]

/-- The permutation of the state. -/
def permute (s : State) : State :=
  roundConstants.foldl round s

/-! ## The sponge -/

/-- Bytes absorbed by one permutation. -/
def rate : Nat := 136

/-- A message filled up to a multiple of the rate: a one bit, zeros, a last one
bit.  When a single byte is missing it holds both bits. -/
def pad (message : List UInt8) : List UInt8 :=
  let missing := rate - message.length % rate
  if missing = 1 then message ++ [0x81]
  else message ++ 0x01 :: (List.replicate (missing - 2) 0x00 ++ [0x80])

/-- The lane of eight bytes, least significant first. -/
@[inline] def lane (b0 b1 b2 b3 b4 b5 b6 b7 : UInt8) : UInt64 :=
  b0.toUInt64 ||| (b1.toUInt64 <<< 8) ||| (b2.toUInt64 <<< 16) ||| (b3.toUInt64 <<< 24) |||
    (b4.toUInt64 <<< 32) ||| (b5.toUInt64 <<< 40) ||| (b6.toUInt64 <<< 48) ||| (b7.toUInt64 <<< 56)

/-- The lanes of a message whose length is a multiple of eight. -/
def lanes : List UInt8 → List UInt64
  | b0 :: b1 :: b2 :: b3 :: b4 :: b5 :: b6 :: b7 :: rest =>
    lane b0 b1 b2 b3 b4 b5 b6 b7 :: lanes rest
  | _ => []

/-- A block of seventeen lanes laid out as a state, the other eight lanes zero. -/
def block : List UInt64 → State
  | [a0, b0, c0, d0, e0, a1, b1, c1, d1, e1, a2, b2, c2, d2, e2, a3, b3] =>
    ⟨⟨a0, b0, c0, d0, e0⟩, ⟨a1, b1, c1, d1, e1⟩, ⟨a2, b2, c2, d2, e2⟩, ⟨a3, b3, 0, 0, 0⟩, .zero⟩
  | _ => .zero

/-- Absorbs `n` blocks of seventeen lanes. -/
def absorb : Nat → List UInt64 → State → State
  | 0, _, s => s
  | n + 1, ls, s => absorb n (ls.drop 17) (permute (s.xor (block (ls.take 17))))

/-- The eight bytes of a lane, least significant first. -/
def laneBytes (x : UInt64) : List UInt8 :=
  [x.toUInt8, (x >>> 8).toUInt8, (x >>> 16).toUInt8, (x >>> 24).toUInt8,
   (x >>> 32).toUInt8, (x >>> 40).toUInt8, (x >>> 48).toUInt8, (x >>> 56).toUInt8]

/-- The thirty-two bytes read off a final state. -/
def squeeze (s : State) : List UInt8 :=
  laneBytes s.r0.a ++ laneBytes s.r0.b ++ laneBytes s.r0.c ++ laneBytes s.r0.d

/-- The digest of a message, thirty-two bytes. -/
def hash256 (message : List UInt8) : List UInt8 :=
  squeeze (absorb (message.length / rate + 1) (lanes (pad message)) .zero)

@[simp] theorem length_hash256 (message : List UInt8) : (hash256 message).length = 32 := rfl

end TraceDispute.Keccak
