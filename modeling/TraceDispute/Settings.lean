/-!
# Settings

What a run is configured with, read from named variables.  A variable that is
missing, or that does not hold a value of its kind, leaves the default in place.
-/

namespace TraceDispute

/-- The settings of a run. -/
structure Settings where
  /-- Address of the node. -/
  nodeUrl : String := "http://localhost:8545"
  /-- Address of the contract. -/
  contract : String := "0x0000000000000000000000000000000000000000"
  /-- Account that moves are sent from. -/
  sender : String := "0x3C44CdDdB6a900fa2b585dd299e03d12FA4293BC"
  /-- Number of parts that a segment is divided into. -/
  degree : UInt64 := 20
  /-- Whether the instruction that crosses an offset is carried out. -/
  overshoot : Bool := true
  /-- Seconds between two looks at a receipt. -/
  pollSeconds : UInt64 := 2
  /-- Instructions of the simulated trace. -/
  traceSteps : UInt64 := 5000
  /-- The first instruction that the simulated asserter may get wrong. -/
  faultStep : UInt64 := 3217
deriving DecidableEq, Repr

/-- The value of decimal digits; nothing else is allowed. -/
def readDigits? : (value : Nat) → List Char → Option Nat
  | value, [] => some value
  | value, c :: cs =>
    if '0' ≤ c ∧ c ≤ '9' then readDigits? (10 * value + (c.toNat - 48)) cs else none

/-- Reads a counter: decimal digits after at most one plus sign. -/
def readCounter? (text : String) : Option UInt64 :=
  let digits := match text.toList with
    | '+' :: rest => rest
    | cs => cs
  match digits with
  | [] => none
  | c :: cs =>
    match readDigits? 0 (c :: cs) with
    | some n => if n < UInt64.size then some (UInt64.ofNat n) else none
    | none => none

namespace Settings

/-- The counter in a variable, or else a default. -/
def counter (text : Option String) (default : UInt64) : UInt64 :=
  (text.bind readCounter?).getD default

/-- The settings in a set of variables. -/
def ofVariables (lookup : String → Option String) : Settings :=
  let defaults : Settings := {}
  { nodeUrl := (lookup "L1_RPC").getD defaults.nodeUrl
    contract := (lookup "CHALLENGE_ADDRESS").getD defaults.contract
    sender := (lookup "CHALLENGER_ADDRESS").getD defaults.sender
    degree :=
      (((lookup "BISECTION_DEGREE").bind readCounter?).filter (2 ≤ ·)).getD defaults.degree
    overshoot :=
      match lookup "GO_OVER_GAS" with
      | some text => text = "true" ∨ text = "1"
      | none => defaults.overshoot
    pollSeconds := counter (lookup "RECEIPT_POLL_SECS") defaults.pollSeconds
    traceSteps := counter (lookup "SIM_TRACE_STEPS") defaults.traceSteps
    faultStep := counter (lookup "SIM_FAULT_STEP") defaults.faultStep }

end Settings

end TraceDispute
