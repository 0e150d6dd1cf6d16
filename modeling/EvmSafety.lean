import EvmSafety.Main
import EvmSafety.Report.Reading
import EvmSafety.Proofs.Effect
import EvmSafety.Proofs.Run
import EvmSafety.Proofs.Walks
import EvmSafety.Proofs.Contexts
import EvmSafety.Proofs.Once
import EvmSafety.Proofs.Calls
import EvmSafety.Proofs.Tally
import EvmSafety.Proofs.Chains
import EvmSafety.Proofs.Ceilings
import EvmSafety.Proofs.Cycles
import EvmSafety.Proofs.Machine
import EvmSafety.Proofs.Joins
import EvmSafety.Proofs.Appending
import EvmSafety.Proofs.Moments
import EvmSafety.Proofs.Queue
import EvmSafety.Proofs.Effort
import EvmSafety.Proofs.Waiting
import EvmSafety.Proofs.Faults
import EvmSafety.Proofs.Plain
import EvmSafety.Proofs.Replay
import EvmSafety.Proofs.Rejections
import EvmSafety.Proofs.Capacity
import EvmSafety.Proofs.Shortcuts
import EvmSafety.Proofs.Frames
import EvmSafety.Proofs.Blame
import EvmSafety.Proofs.Coverage
import EvmSafety.Proofs.Recursion
import EvmSafety.Proofs.Tightness
import EvmSafety.Proofs.Upgrading
import EvmSafety.Proofs.Loading
import EvmSafety.Proofs.Acceptance
import EvmSafety.Proofs.Returning
import EvmSafety.Proofs.Decoding
import EvmSafety.Proofs.Counting
import EvmSafety.Proofs.Provenance
import EvmSafety.Proofs.Isolation
import EvmSafety.Proofs.Reassembly
import EvmSafety.Proofs.Destinations
import EvmSafety.Proofs.Operands
import EvmSafety.Proofs.Replacing
import EvmSafety.Proofs.Bounds
import EvmSafety.Proofs.Ladders
import EvmSafety.Proofs.Reporting
