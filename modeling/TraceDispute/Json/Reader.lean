import TraceDispute.Json.Basic

/-!
# Reading JSON

`Json.parse?` reads a text that holds one value and blanks around it.  Control
characters inside strings, lone surrogates, leading zeros and trailing commas
are not accepted, and arrays and objects nest at most 127 deep.

A whole number that fits in 64 bits is kept as it is.  Any other number is of
double precision: its digits are collected for as long as they fit in 64 bits,
the digits after that count only by their place, and the result is scaled by a
power of ten.
-/

namespace TraceDispute.Json

/-- The blanks allowed between tokens. -/
def isBlank (c : Char) : Bool := c = ' ' || c = '\n' || c = '\t' || c = '\r'

/-- Skips blanks. -/
def skipBlanks (cs : List Char) : List Char := cs.dropWhile isBlank

/-- A decimal digit. -/
def isDigit (c : Char) : Bool := '0' ≤ c && c ≤ '9'

/-- The value of a decimal digit. -/
def digitValue (c : Char) : Nat := c.toNat - 48

/-- Whether a digit comes next. -/
def startsWithDigit : List Char → Bool
  | c :: _ => isDigit c
  | [] => false

/-! ## Numbers -/

/-- Collects digits for as long as the value fits in 64 bits: the value, the
number of digits taken, and the rest. -/
def collect : (value taken : Nat) → List Char → Nat × Nat × List Char
  | value, taken, [] => (value, taken, [])
  | value, taken, c :: cs =>
    if isDigit c ∧ 10 * value + digitValue c < UInt64.size then
      collect (10 * value + digitValue c) (taken + 1) cs
    else (value, taken, c :: cs)

/-- The number of double precision with these parts. -/
def double? (negative : Bool) (significand : Nat) (exponent : Int) (rest : List Char) :
    Option (Number × List Char) :=
  (Binary64.ofDecimal? negative significand exponent).map fun x => (.double x, rest)

/-- The digits of an exponent, unless their value leaves 31 bits. -/
def exponentDigits? : (value : Nat) → List Char → Option Nat
  | value, [] => some value
  | value, c :: cs =>
    if isDigit c then
      if 10 * value + digitValue c < 0x80000000 then exponentDigits? (10 * value + digitValue c) cs
      else none
    else some value

/-- Reads an exponent, after its mark. -/
def readExponent? (negative : Bool) (significand : Nat) (exponent : Int) (cs : List Char) :
    Option (Number × List Char) :=
  let (down, cs) := match cs with
    | '+' :: rest => (false, rest)
    | '-' :: rest => (true, rest)
    | _ => (false, cs)
  if startsWithDigit cs then
    let rest := cs.dropWhile isDigit
    match exponentDigits? 0 cs with
    | some e =>
      double? negative significand (if down then exponent - e else exponent + e) rest
    | none =>
      -- Out of range upwards, or so small that only the sign is left.
      if significand ≠ 0 ∧ ¬down then none
      else some (.double (.zero negative), rest)
  else none

/-- Reads the exponent of a number, if it has one. -/
def readScale? (negative : Bool) (significand : Nat) (exponent : Int) (cs : List Char) :
    Option (Number × List Char) :=
  match cs with
  | 'e' :: rest => readExponent? negative significand exponent rest
  | 'E' :: rest => readExponent? negative significand exponent rest
  | _ => double? negative significand exponent cs

/-- Reads the digits after a decimal point and what follows them. -/
def readFraction? (negative : Bool) (significand : Nat) (exponent : Int) (cs : List Char) :
    Option (Number × List Char) :=
  if startsWithDigit cs then
    let (significand, taken, rest) := collect significand 0 cs
    readScale? negative significand (exponent - taken) (rest.dropWhile isDigit)
  else none

/-- A whole number, if nothing but its digits makes it up. -/
def whole (negative : Bool) (value : Nat) : Option Number :=
  if negative then
    if value = 0 ∨ UInt64.size / 2 < value then (Binary64.ofRatio? true value 1).map .double
    else some (.negated value)
  else some (.natural value)

/-- Reads what follows the digits before the decimal point; `dropped` of them
did not fit in the significand. -/
def readTail? (negative : Bool) (significand dropped : Nat) (cs : List Char) :
    Option (Number × List Char) :=
  match cs with
  | '.' :: rest => readFraction? negative significand dropped rest
  | 'e' :: rest => readExponent? negative significand dropped rest
  | 'E' :: rest => readExponent? negative significand dropped rest
  | _ =>
    if dropped = 0 then (whole negative significand).map fun n => (n, cs)
    else double? negative significand dropped cs

/-- Reads a number, after its sign. -/
def readNumber? (negative : Bool) (cs : List Char) : Option (Number × List Char) :=
  match cs with
  | '0' :: rest => if startsWithDigit rest then none else readTail? negative 0 0 rest
  | _ =>
    if startsWithDigit cs then
      let (significand, _, rest) := collect 0 0 cs
      readTail? negative significand (rest.takeWhile isDigit).length (rest.dropWhile isDigit)
    else none

/-! ## Strings -/

/-- The value of a hexadecimal digit. -/
def hexValue? (c : Char) : Option Nat :=
  if '0' ≤ c ∧ c ≤ '9' then some (c.toNat - 48)
  else if 'a' ≤ c ∧ c ≤ 'f' then some (c.toNat - 87)
  else if 'A' ≤ c ∧ c ≤ 'F' then some (c.toNat - 55)
  else none

/-- The value of four hexadecimal digits. -/
def hexFour? (a b c d : Char) : Option Nat := do
  return 4096 * (← hexValue? a) + 256 * (← hexValue? b) + 16 * (← hexValue? c) + (← hexValue? d)

/-- The character of an escape letter. -/
def unescape? (c : Char) : Option Char :=
  if c = '"' ∨ c = '\\' ∨ c = '/' then some c
  else if c = 'b' then some (Char.ofNat 8)
  else if c = 'f' then some (Char.ofNat 12)
  else if c = 'n' then some '\n'
  else if c = 'r' then some '\r'
  else if c = 't' then some '\t'
  else none

/-- Reads the characters of a string up to its closing quote. -/
def readString? : List Char → Option (List Char × List Char)
  | '"' :: rest => some ([], rest)
  | '\\' :: 'u' :: a :: b :: c :: d :: rest =>
    match hexFour? a b c d with
    | none => none
    | some code =>
      if 0xDC00 ≤ code ∧ code ≤ 0xDFFF then none
      else if 0xD800 ≤ code ∧ code ≤ 0xDBFF then
        -- The first half of a pair: the second half has to follow.
        match rest with
        | '\\' :: 'u' :: a' :: b' :: c' :: d' :: rest' =>
          match hexFour? a' b' c' d' with
          | none => none
          | some low =>
            if 0xDC00 ≤ low ∧ low ≤ 0xDFFF then
              (readString? rest').map fun (cs, r) =>
                (Char.ofNat (0x10000 + 0x400 * (code - 0xD800) + (low - 0xDC00)) :: cs, r)
            else none
        | _ => none
      else (readString? rest).map fun (cs, r) => (Char.ofNat code :: cs, r)
  | '\\' :: c :: rest =>
    match unescape? c with
    | some e => (readString? rest).map fun (cs, r) => (e :: cs, r)
    | none => none
  | c :: rest =>
    if c = '\\' ∨ c.toNat < 32 then none
    else (readString? rest).map fun (cs, r) => (c :: cs, r)
  | [] => none

/-! ## Values -/

/-- How deep arrays and objects may nest. -/
def maxDepth : Nat := 127

/-- What follows a fixed word. -/
def expect? : List Char → List Char → Option (List Char)
  | [], cs => some cs
  | w :: ws, c :: cs => if w = c then expect? ws cs else none
  | _ :: _, [] => none

mutual

/-- Reads a value, after blanks; `depth` more containers may be opened. -/
def readValue? : (fuel depth : Nat) → List Char → Option (Json × List Char)
  | 0, _, _ => none
  | fuel + 1, depth, cs =>
    match skipBlanks cs with
    | 'n' :: rest => (expect? ['u', 'l', 'l'] rest).map fun r => (.null, r)
    | 't' :: rest => (expect? ['r', 'u', 'e'] rest).map fun r => (.bool true, r)
    | 'f' :: rest => (expect? ['a', 'l', 's', 'e'] rest).map fun r => (.bool false, r)
    | '"' :: rest => (readString? rest).map fun (s, r) => (.string (String.ofList s), r)
    | '-' :: rest => (readNumber? true rest).map fun (n, r) => (.number n, r)
    | '[' :: rest =>
      match depth with
      | 0 => none
      | depth + 1 =>
        match skipBlanks rest with
        | ']' :: r => some (.array [], r)
        | cs => (readItems? fuel depth cs).map fun (items, r) => (.array items, r)
    | '{' :: rest =>
      match depth with
      | 0 => none
      | depth + 1 =>
        match skipBlanks rest with
        | '}' :: r => some (.object [], r)
        | cs => (readMembers? fuel depth cs).map fun (members, r) => (ofMembers members, r)
    | cs => (readNumber? false cs).map fun (n, r) => (.number n, r)

/-- Reads the items of an array up to its closing bracket. -/
def readItems? : (fuel depth : Nat) → List Char → Option (List Json × List Char)
  | 0, _, _ => none
  | fuel + 1, depth, cs =>
    match readValue? fuel depth cs with
    | none => none
    | some (item, rest) =>
      match skipBlanks rest with
      | ',' :: r => (readItems? fuel depth r).map fun (items, r) => (item :: items, r)
      | ']' :: r => some ([item], r)
      | _ => none

/-- Reads the members of an object up to its closing brace. -/
def readMembers? : (fuel depth : Nat) → List Char → Option (List (String × Json) × List Char)
  | 0, _, _ => none
  | fuel + 1, depth, cs =>
    match skipBlanks cs with
    | '"' :: rest =>
      match readString? rest with
      | none => none
      | some (name, rest) =>
        match skipBlanks rest with
        | ':' :: rest =>
          match readValue? fuel depth rest with
          | none => none
          | some (value, rest) =>
            let member := (String.ofList name, value)
            match skipBlanks rest with
            | ',' :: r => (readMembers? fuel depth r).map fun (ms, r) => (member :: ms, r)
            | '}' :: r => some ([member], r)
            | _ => none
        | _ => none
    | _ => none

end

/-- Reads a text that holds one value.  A value and each of its parts take at
least one character, so a fuel of twice the length suffices. -/
def parse? (s : String) : Option Json :=
  let cs := s.toList
  match readValue? (2 * cs.length + 1) maxDepth cs with
  | some (value, rest) => if (skipBlanks rest).isEmpty then some value else none
  | none => none

end TraceDispute.Json
