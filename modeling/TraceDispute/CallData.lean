import TraceDispute.Progress

/-!
# Call data

Calls to the contract are a four-byte selector followed by the arguments.  The
arguments are a head and a tail: fixed-size arguments stand in the head, and an
argument of variable size stands in the tail, with its byte position, counted
from the start of the arguments, in the head.  Everything is laid out in words
of thirty-two bytes.
-/

namespace TraceDispute

namespace CallData

/-- An argument of a call. -/
inductive Token where
  /-- A number. -/
  | uint (value : UInt64)
  /-- A word. -/
  | word (value : Word)
  /-- An array of numbers of fixed length. -/
  | fixedUints (values : List UInt64)
  /-- An array of words of fixed length. -/
  | fixedWords (values : List Word)
  /-- An array of words of variable length. -/
  | words (values : List Word)
  /-- A byte string of variable length. -/
  | bytes (value : Bytes)
deriving DecidableEq

/-- A size or a position as a word. -/
def sizeWord (n : Nat) : Bytes := (Word.ofUInt64 (UInt64.ofNat n)).bytes

/-- Words one after the other. -/
def concatWords (words : List Word) : Bytes := words.flatMap Word.bytes

/-- The number of zero bytes that fill up `n` bytes to whole words. -/
def padding (n : Nat) : Nat := (32 - n % 32) % 32

namespace Token

/-- The number of bytes that an argument takes in the head. -/
def headLength : Token → Nat
  | .fixedUints values => values.length * 32
  | .fixedWords values => values.length * 32
  | .uint _ | .word _ | .words _ | .bytes _ => 32

/-- What stands in the head; `position` is where the argument's tail starts. -/
def head (position : Nat) : Token → Bytes
  | .uint value => (Word.ofUInt64 value).bytes
  | .word value => value.bytes
  | .fixedUints values => concatWords (values.map Word.ofUInt64)
  | .fixedWords values => concatWords values
  | .words _ | .bytes _ => sizeWord position

/-- What stands in the tail. -/
def tail : Token → Bytes
  | .words values => sizeWord values.length ++ concatWords values
  | .bytes value => sizeWord value.length ++ value ++ List.replicate (padding value.length) 0
  | .uint _ | .word _ | .fixedUints _ | .fixedWords _ => []

end Token

/-- The heads of some arguments whose tails start at `position`. -/
def heads : (position : Nat) → List Token → Bytes
  | _, [] => []
  | position, t :: ts => t.head position ++ heads (position + t.tail.length) ts

/-- The length of the head of some arguments. -/
def headLength : List Token → Nat
  | [] => 0
  | t :: ts => t.headLength + headLength ts

/-- The arguments of a call. -/
def encodeArguments (tokens : List Token) : Bytes :=
  heads (headLength tokens) tokens ++ tokens.flatMap Token.tail

/-- The first four bytes of the hash of a signature. -/
def selector (signature : String) : Bytes :=
  (keccak signature.toUTF8.data.toList).bytes.take 4

/-- A whole call. -/
def encodeCall (signature : String) (tokens : List Token) : Bytes :=
  selector signature ++ encodeArguments tokens

/-! ## The calls of a dispute -/

/-- The signature of the call that divides a segment. -/
def bisectSignature : String := "bisectExecution(bytes32[],uint256,uint256,uint256,bytes32[])"

/-- The signature of the call that proves a step. -/
def proveSignature : String :=
  "oneStepProveExecution(bytes32[],uint256,uint256[4],bytes32[3],bytes32,bytes,bytes)"

/-- The call that divides part `index` of a bisection.  The first of the new
cuts is known to the contract and is not sent. -/
def bisect (previous : List Word) (index start length : UInt64) (cutHashes : List Word) : Bytes :=
  encodeCall bisectSignature
    [.words previous, .uint index, .uint start, .uint length, .words cutHashes.tail]

/-- The call that proves part `index` of a bisection. -/
def prove (previous : List Word) (index : UInt64) (p : Progress) (inboxDelta : Word)
    (machineProof bufferProof : Bytes) : Bytes :=
  encodeCall proveSignature
    [.words previous, .uint index,
      .fixedUints [p.gasUsed, p.messagesRead, p.sendCount, p.logCount],
      .fixedWords [p.sendAcc, p.logAcc, p.machineHash],
      .word inboxDelta, .bytes machineProof, .bytes bufferProof]

end CallData

end TraceDispute
