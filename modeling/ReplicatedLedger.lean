import ReplicatedLedger.Node
import ReplicatedLedger.Scripted
import ReplicatedLedger.Settings.Value
import ReplicatedLedger.Task
import ReplicatedLedger.Proofs.Codec.Fields
import ReplicatedLedger.Proofs.Codec.Transaction
import ReplicatedLedger.Proofs.Codec.Block
import ReplicatedLedger.Proofs.Codec.Message
import ReplicatedLedger.Proofs.Transaction.Identity
import ReplicatedLedger.Proofs.Block.Commitment
import ReplicatedLedger.Proofs.Ledger.Coherence
import ReplicatedLedger.Proofs.Ledger.Refinement
import ReplicatedLedger.Proofs.Replica.Session
import ReplicatedLedger.Proofs.Replica.Replay
import ReplicatedLedger.Proofs.Cluster.Agreement
import ReplicatedLedger.Proofs.Cluster.Atomicity
import ReplicatedLedger.Proofs.Cluster.Retention
import ReplicatedLedger.Proofs.Cluster.Candidates
import ReplicatedLedger.Proofs.Cluster.Lockstep
import ReplicatedLedger.Proofs.Cluster.Refusal
import ReplicatedLedger.Proofs.Cluster.Exclusion
import ReplicatedLedger.Proofs.Ledger.Window
import ReplicatedLedger.Proofs.Codec.Image
import ReplicatedLedger.Proofs.Sync.Fidelity
import ReplicatedLedger.Proofs.Ledger.Links
import ReplicatedLedger.Proofs.Cluster.Histories
import ReplicatedLedger.Proofs.Cluster.Asking
import ReplicatedLedger.Proofs.Cluster.Fetching
import ReplicatedLedger.Proofs.Cluster.Repair
import ReplicatedLedger.Proofs.Cluster.Snapshots
import ReplicatedLedger.Proofs.Cluster.Installation
import ReplicatedLedger.Proofs.Cluster.Submission
import ReplicatedLedger.Proofs.Block.Membership
import ReplicatedLedger.Proofs.Block.Parts
import ReplicatedLedger.Proofs.Merkle.Split
import ReplicatedLedger.Proofs.Block.Order
import ReplicatedLedger.Proofs.Pool.Histories
import ReplicatedLedger.Proofs.Pool.Requeue
import ReplicatedLedger.Proofs.Store.Spellings
import ReplicatedLedger.Proofs.Ledger.Loading
import ReplicatedLedger.Proofs.Ledger.Validity
import ReplicatedLedger.Proofs.Cluster.Majority
import ReplicatedLedger.Proofs.Cluster.Execution
import ReplicatedLedger.Proofs.Cluster.Sequencing
import ReplicatedLedger.Proofs.Ledger.Lookup
import ReplicatedLedger.Proofs.Codec.Stream
import ReplicatedLedger.Proofs.Codec.Locality
import ReplicatedLedger.Proofs.Codec.Sizes
