/-!
# Double-precision numbers

The finite numbers of the 64-bit binary format, as a sign, a mantissa below
`2 ^ 53` and an exponent, with exact arithmetic on naturals: `ofRatio?` rounds a
quotient to the nearest number, a half to the even mantissa.

A number is written with the fewest decimal digits that read back as the same
number (`shortest`): on the coarsest decimal grid that has a point close enough,
the nearest such point.
-/

namespace TraceDispute.Json

/-- A finite double-precision number, `mantissa * 2 ^ exponent` up to its sign. -/
structure Binary64 where
  negative : Bool
  mantissa : Nat
  exponent : Int
deriving DecidableEq, Repr

namespace Binary64

/-- The least exponent. -/
def minExponent : Int := -1074

/-- The greatest exponent of a mantissa with 53 bits. -/
def maxExponent : Int := 971

/-- The least mantissa with 53 bits. -/
def leastNormal : Nat := 1 <<< 52

/-- Zero with a sign. -/
def zero (negative : Bool) : Binary64 := ⟨negative, 0, minExponent⟩

/-! ## Rounding -/

/-- A quotient rounded to the nearest natural, a half to the even one. -/
def roundDiv (num den : Nat) : Nat :=
  let q := num / den
  let r := num % den
  if den < 2 * r ∨ (2 * r = den ∧ q % 2 = 1) then q + 1 else q

/-- A natural times a power of two, as a quotient. -/
def scaled (m : Nat) (exponent : Int) : Nat × Nat :=
  if exponent < 0 then (m, 1 <<< exponent.natAbs) else (m <<< exponent.natAbs, 1)

/-- The exponent at which a positive quotient has a mantissa of 53 bits, or the
least exponent if that is greater. -/
def exponentOf (num den : Nat) : Int :=
  -- The quotient lies strictly between `2 ^ (e - 1)` and `2 ^ (e + 1)`.
  let e : Int := (num.log2 : Int) - (den.log2 : Int)
  let (a, b) := scaled den e
  let q := if num * b < a then e - 53 else e - 52
  max minExponent q

/-- The number nearest to a quotient, unless it is too large. -/
def ofRatio? (negative : Bool) (num den : Nat) : Option Binary64 :=
  if num = 0 then some (zero negative)
  else
    let q := exponentOf num den
    let (a, b) := scaled den q
    let m := roundDiv (num * b) a
    let (m, q) := if m = 2 * leastNormal then (leastNormal, q + 1) else (m, q)
    if maxExponent < q then none else some ⟨negative, m, q⟩

/-- The product of two numbers, rounded. -/
def mul? (x y : Binary64) : Option Binary64 :=
  let (num, den) := scaled (x.mantissa * y.mantissa) (x.exponent + y.exponent)
  ofRatio? (x.negative != y.negative) num den

/-- The quotient of two numbers, the second not zero, rounded. -/
def div? (x y : Binary64) : Option Binary64 :=
  let (num, den) := scaled x.mantissa (x.exponent - y.exponent)
  ofRatio? (x.negative != y.negative) num (den * y.mantissa)

/-- The number nearest to a power of ten of at most 308. -/
def pow10 (k : Nat) : Binary64 := (ofRatio? false (Nat.pow 10 k) 1).getD (zero false)

/-- Multiplies a number by a power of ten, in steps of at most `10 ^ 308` whose
results are rounded; `steps` bounds their number. -/
def scaleTen? : (steps : Nat) → Binary64 → (exponent : Int) → Option Binary64
  | 0, x, _ => some x
  | steps + 1, x, exponent =>
    if exponent.natAbs ≤ 308 then
      if 0 ≤ exponent then x.mul? (pow10 exponent.natAbs) else x.div? (pow10 exponent.natAbs)
    else if x.mantissa = 0 then some x
    else if 0 ≤ exponent then none
    else (x.div? (pow10 308)).bind fun y => scaleTen? steps y (exponent + 308)

/-- The number that a significand and a power of ten are read as. -/
def ofDecimal? (negative : Bool) (significand : Nat) (exponent : Int) : Option Binary64 := do
  let x ← ofRatio? negative significand 1
  x.scaleTen? (exponent.natAbs / 308 + 1) exponent

/-! ## Shortest digits -/

/-- The point `c * 10 ^ p` of a decimal grid that reads back as a number and is
nearest to it, if the grid has one; a tie goes to the even point.

All lengths are in units of a quarter of the last place of the mantissa. -/
def gridPoint? (x : Binary64) (p : Int) : Option Nat :=
  let value := 4 * x.mantissa
  let below := if x.mantissa = leastNormal ∧ minExponent < x.exponent then 1 else 2
  let (tenNum, tenDen) := if p < 0 then (1, Nat.pow 10 p.natAbs) else (Nat.pow 10 p.natAbs, 1)
  let (twoNum, twoDen) := scaled 1 (x.exponent - 2)
  let grid := tenNum * twoDen
  let unit := twoNum * tenDen
  let readsBack (c : Nat) : Bool :=
    if x.mantissa % 2 = 0 then
      decide ((value - below) * unit ≤ c * grid ∧ c * grid ≤ (value + 2) * unit)
    else decide ((value - below) * unit < c * grid ∧ c * grid < (value + 2) * unit)
  let c := value * unit / grid
  match readsBack c, readsBack (c + 1) with
  | false, false => none
  | true, false => some c
  | false, true => some (c + 1)
  | true, true =>
    let down := value * unit - c * grid
    let up := (c + 1) * grid - value * unit
    if down < up ∨ (down = up ∧ c % 2 = 0) then some c else some (c + 1)

/-- Looks for a grid point on ever finer grids, from `10 ^ p` on. -/
def shortestFrom (x : Binary64) : (steps : Nat) → (p : Int) → Nat × Int
  | 0, p => (0, p)
  | steps + 1, p =>
    match x.gridPoint? p with
    | some c => (c, p)
    | none => shortestFrom x steps (p - 1)

/-- The shortest decimal `c * 10 ^ p` that reads back as a number, not zero. -/
def shortest (x : Binary64) : Nat × Int := shortestFrom x 660 310

/-! ## Text -/

/-- An exponent, always with its sign. -/
def exponentText (e : Int) : List Char :=
  'e' :: (if e < 0 then '-' else '+') :: Nat.toDigits 10 e.natAbs

/-- Digits with their decimal point: positional for values from `10 ^ -5` up to
`10 ^ 16`, otherwise with an exponent. -/
def layout (digits : List Char) (p : Int) : List Char :=
  let count : Int := digits.length
  let point := count + p
  if 0 ≤ p ∧ point ≤ 16 then digits ++ List.replicate p.toNat '0' ++ ['.', '0']
  else if 0 < point ∧ point ≤ 16 then
    digits.take point.toNat ++ '.' :: digits.drop point.toNat
  else if -5 < point ∧ point ≤ 0 then
    '0' :: '.' :: (List.replicate point.natAbs '0' ++ digits)
  else
    let exponent := exponentText (point - 1)
    match digits with
    | [d] => d :: exponent
    | d :: ds => d :: '.' :: (ds ++ exponent)
    | [] => exponent

/-- The text of a number. -/
def text (x : Binary64) : String :=
  let sign := if x.negative then ['-'] else []
  let body :=
    if x.mantissa = 0 then ['0', '.', '0']
    else
      let (c, p) := x.shortest
      layout (Nat.toDigits 10 c) p
  String.ofList (sign ++ body)

end Binary64

end TraceDispute.Json
