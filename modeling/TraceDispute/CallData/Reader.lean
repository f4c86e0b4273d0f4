import TraceDispute.CallData

/-!
# Reading call data

Reads arguments back by their types: a fixed-size argument in place in the head,
an argument of variable size at the byte position that its head names.
-/

namespace TraceDispute.CallData

/-- The type of an argument. -/
inductive Kind where
  | uint
  | word
  | fixedUints (length : Nat)
  | fixedWords (length : Nat)
  | words
  | bytes
deriving DecidableEq, Repr

/-- The type of an argument. -/
def Token.kind : Token → Kind
  | .uint _ => .uint
  | .word _ => .word
  | .fixedUints values => .fixedUints values.length
  | .fixedWords values => .fixedWords values.length
  | .words _ => .words
  | .bytes _ => .bytes

/-- The first word of some bytes, and what follows it. -/
def readWord? (data : Bytes) : Option (Word × Bytes) :=
  (Word.ofBytes? (data.take 32)).map fun w => (w, data.drop 32)

/-- The number in the first word of some bytes, and what follows it. -/
def readUint? (data : Bytes) : Option (UInt64 × Bytes) := do
  let (w, rest) ← readWord? data
  let n := Bytes.ofBigEndian w.bytes
  if n < UInt64.size then some (UInt64.ofNat n, rest) else none

/-- The first `n` words of some bytes, and what follows them. -/
def readWords? : Nat → Bytes → Option (List Word × Bytes)
  | 0, data => some ([], data)
  | n + 1, data => do
    let (w, rest) ← readWord? data
    let (ws, rest) ← readWords? n rest
    return (w :: ws, rest)

/-- The numbers in the first `n` words of some bytes, and what follows them. -/
def readUints? : Nat → Bytes → Option (List UInt64 × Bytes)
  | 0, data => some ([], data)
  | n + 1, data => do
    let (x, rest) ← readUint? data
    let (xs, rest) ← readUints? n rest
    return (x :: xs, rest)

/-- An array of words: its length, then the words. -/
def readArray? (data : Bytes) : Option (List Word) := do
  let (n, rest) ← readUint? data
  let (ws, _) ← readWords? n.toNat rest
  return ws

/-- A byte string: its length, then the bytes, filled up with zeros. -/
def readString? (data : Bytes) : Option Bytes := do
  let (n, rest) ← readUint? data
  let value := rest.take n.toNat
  let fill := (rest.drop n.toNat).take (padding n.toNat)
  if value.length = n.toNat ∧ fill = List.replicate (padding n.toNat) 0 then some value else none

/-- The argument of a type whose head stands first in `head`, and the head of
the arguments after it; `data` is all the arguments. -/
def readToken? (data head : Bytes) : Kind → Option (Token × Bytes)
  | .uint => (readUint? head).map fun (x, rest) => (.uint x, rest)
  | .word => (readWord? head).map fun (w, rest) => (.word w, rest)
  | .fixedUints n => (readUints? n head).map fun (xs, rest) => (.fixedUints xs, rest)
  | .fixedWords n => (readWords? n head).map fun (ws, rest) => (.fixedWords ws, rest)
  | .words => do
    let (position, rest) ← readUint? head
    let ws ← readArray? (data.drop position.toNat)
    return (.words ws, rest)
  | .bytes => do
    let (position, rest) ← readUint? head
    let value ← readString? (data.drop position.toNat)
    return (.bytes value, rest)

/-- The arguments of these types whose heads stand in `head`. -/
def readTokens? (data : Bytes) : (head : Bytes) → List Kind → Option (List Token)
  | _, [] => some []
  | head, k :: ks => do
    let (t, rest) ← readToken? data head k
    let ts ← readTokens? data rest ks
    return t :: ts

/-- The arguments of these types. -/
def decodeArguments? (kinds : List Kind) (data : Bytes) : Option (List Token) :=
  readTokens? data data kinds

end TraceDispute.CallData
