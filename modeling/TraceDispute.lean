import TraceDispute.Bisection
import TraceDispute.Bytes
import TraceDispute.Bytes.Hex
import TraceDispute.CallData
import TraceDispute.CallData.Reader
import TraceDispute.Challenge.Basic
import TraceDispute.Challenge.Error
import TraceDispute.Challenge.Moves
import TraceDispute.Cut
import TraceDispute.Event
import TraceDispute.Game
import TraceDispute.Inbox
import TraceDispute.Json.Basic
import TraceDispute.Json.Binary64
import TraceDispute.Json.Reader
import TraceDispute.Keccak
import TraceDispute.Ledger
import TraceDispute.Machine.Basic
import TraceDispute.Machine.Execute
import TraceDispute.Machine.Instruction
import TraceDispute.Machine.Payload
import TraceDispute.Main
import TraceDispute.Node
import TraceDispute.Outcome
import TraceDispute.Party
import TraceDispute.Progress
import TraceDispute.Proofs.Answer.Atomicity
import TraceDispute.Proofs.Answer.Division
import TraceDispute.Proofs.Answer.Guard
import TraceDispute.Proofs.Answer.Hashes
import TraceDispute.Proofs.Answer.Opening
import TraceDispute.Proofs.Answer.Return
import TraceDispute.Proofs.Answer.Settlement
import TraceDispute.Proofs.Binding
import TraceDispute.Proofs.CallData
import TraceDispute.Proofs.Challenge.Cuts
import TraceDispute.Proofs.Challenge.Divergence
import TraceDispute.Proofs.Challenge.Independence
import TraceDispute.Proofs.Challenge.Moves
import TraceDispute.Proofs.Challenge.Search
import TraceDispute.Proofs.Challenge.Taken
import TraceDispute.Proofs.Challenge.Unread
import TraceDispute.Proofs.Commitment
import TraceDispute.Proofs.Game.Completeness
import TraceDispute.Proofs.Game.Convergence
import TraceDispute.Proofs.Game.Disagreement
import TraceDispute.Proofs.Game.Player
import TraceDispute.Proofs.Hex
import TraceDispute.Proofs.Ledger
import TraceDispute.Proofs.Machine.Boundary
import TraceDispute.Proofs.Machine.Buffer
import TraceDispute.Proofs.Machine.Canonical
import TraceDispute.Proofs.Machine.Completion
import TraceDispute.Proofs.Machine.Execution
import TraceDispute.Proofs.Machine.Fault
import TraceDispute.Proofs.Machine.Order
import TraceDispute.Proofs.Machine.Payload
import TraceDispute.Proofs.Machine.Recording
import TraceDispute.Proofs.Machine.Step
import TraceDispute.Proofs.Machine.Trace
import TraceDispute.Proofs.Machine.Twin
import TraceDispute.Proofs.Node
import TraceDispute.Proofs.Outcome
import TraceDispute.Proofs.Partition
import TraceDispute.Proofs.Party
import TraceDispute.Proofs.Replay.Checkpoints
import TraceDispute.Proofs.Replay.Coherence
import TraceDispute.Proofs.Replay.Extent
import TraceDispute.Proofs.Replay.History
import TraceDispute.Proofs.Replay.Monotone
import TraceDispute.Proofs.Replay.Position
import TraceDispute.Proofs.Replay.Resumption
import TraceDispute.Proofs.Segment
import TraceDispute.Proofs.Simulation.Exposure
import TraceDispute.Proofs.Simulation.Program
import TraceDispute.Proofs.Simulation.Selection
import TraceDispute.Replay.Checkpoints
import TraceDispute.Replay.Error
import TraceDispute.Replay.Session
import TraceDispute.Report
import TraceDispute.Segment
import TraceDispute.Settings
import TraceDispute.Simulation
import TraceDispute.Submission
import TraceDispute.Word
