import TraceDispute.Bytes

/-!
# Hexadecimal text

Bytes are written as two lower-case digits each.  The reader works on the bytes
of a text, takes digits of either case, and names what is wrong: an odd number
of digits first, otherwise the first byte that is no digit.
-/

namespace TraceDispute.Hex

/-! ## Writing -/

/-- The digit of a number below sixteen. -/
def digit (n : Nat) : Char :=
  if n < 10 then Char.ofNat (48 + n) else Char.ofNat (87 + n)

/-- The two digits of each byte, in order. -/
def encodeChars : Bytes → List Char
  | [] => []
  | b :: bs => digit (b.toNat / 16) :: digit (b.toNat % 16) :: encodeChars bs

/-- The hexadecimal text of a byte string. -/
def encode (bytes : Bytes) : String := String.ofList (encodeChars bytes)

/-! ## Reading -/

/-- What is wrong with a hexadecimal text. -/
inductive Error where
  | oddLength
  | invalidByte (byte : UInt8) (position : Nat)
deriving DecidableEq, Repr

/-- The value of a digit. -/
def digitValue? (b : UInt8) : Option UInt8 :=
  if 48 ≤ b ∧ b ≤ 57 then some (b - 48)
  else if 97 ≤ b ∧ b ≤ 102 then some (b - 87)
  else if 65 ≤ b ∧ b ≤ 70 then some (b - 55)
  else none

/-- The value of the digit at `position`. -/
def digitAt (b : UInt8) (position : Nat) : Except Error UInt8 :=
  match digitValue? b with
  | some v => .ok v
  | none => .error (.invalidByte b position)

/-- Reads digits two at a time, the first of them at `position`. -/
def decodePairs (position : Nat) : Bytes → Except Error Bytes
  | high :: low :: rest => do
    let h ← digitAt high position
    let l ← digitAt low (position + 1)
    let bytes ← decodePairs (position + 2) rest
    return (16 * h + l) :: bytes
  | _ => .ok []

/-- The bytes that a hexadecimal text stands for. -/
def decode (text : Bytes) : Except Error Bytes :=
  if text.length % 2 = 1 then .error .oddLength else decodePairs 0 text

/-! ## Error texts -/

/-- A byte as a quoted Latin-1 character.  Blanks other than the space, the
control characters and the soft hyphen are written by their code. -/
def quoted (b : UInt8) : String :=
  let body :=
    match b.toNat with
    | 0 => "\\0"
    | 9 => "\\t"
    | 10 => "\\n"
    | 13 => "\\r"
    | 39 => "\\'"
    | 92 => "\\\\"
    | n =>
      if n < 32 ∨ (127 ≤ n ∧ n ≤ 160) ∨ n = 173 then
        "\\u\x7b" ++ String.ofList (Nat.toDigits 16 n) ++ "\x7d"
      else String.singleton (Char.ofNat n)
  "'" ++ body ++ "'"

/-- The text of a reading error. -/
def Error.message : Error → String
  | .oddLength => "Odd number of digits"
  | .invalidByte b position => s!"Invalid character {quoted b} at position {position}"

end TraceDispute.Hex
