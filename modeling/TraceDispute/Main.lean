import TraceDispute.Simulation

/-!
# The command line

Plays the simulated dispute with the settings in the environment.  The variable
`LOG_LEVEL` names the lowest level logged: `debug`, `info` or `warn`.
-/

open TraceDispute

/-- Plays one dispute and exits with its code. -/
def main : IO UInt32 := do
  let names :=
    ["L1_RPC", "CHALLENGE_ADDRESS", "CHALLENGER_ADDRESS", "BISECTION_DEGREE", "GO_OVER_GAS",
      "RECEIPT_POLL_SECS", "SIM_TRACE_STEPS", "SIM_FAULT_STEP"]
  let values ← names.mapM fun name => (IO.getEnv name : IO (Option String))
  let found := names.zip values
  let settings := Settings.ofVariables fun name => (found.lookup name).join
  let result := Simulation.run settings
  for line in Simulation.logLines (Level.ofName (← IO.getEnv "LOG_LEVEL")) result do
    IO.println line
  for line in Simulation.errorLines result do
    IO.eprintln line
  return Simulation.exitCode result
