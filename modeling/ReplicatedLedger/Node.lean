import ReplicatedLedger.Client
import ReplicatedLedger.Cluster.Round

/-! # Nodes

A node runs a replica in a cluster. From its start to its stop it serves its blocks at an address, proposes
blocks, and checks its chain, the first time at once; at its start it may catch up with the leader. -/

namespace ReplicatedLedger

/-- A running or stopped node. -/
structure Node where
  id : ReplicaId
  /-- Where the node serves its blocks, until it is stopped. -/
  address : Option String
  deriving DecidableEq

namespace Node

/-- Starts a replica over a directory, and its work: a first check of the chain, and catching up if that is
set. -/
def start (c : Cluster) (id : ReplicaId) (settings : Settings) (dir : Directory) :
    Except StartError Node × Cluster :=
  match c.start id settings dir with
  | (.error e, c) => (.error e, c)
  | (.ok (), c) =>
    let address := settings.transfer.listen
    if Sync.isAddress address then
      let c := (c.check id).2
      (.ok ⟨id, some address⟩, if settings.transfer.atStart then c.catchUp id else c)
    else (.error (.sync (.connection .invalidInput)), c.stop id)

/-- Lets the replica propose, at most `n` times, as long as its blocks are committed. -/
def proposeWhile (node : Node) : Nat → Cluster → Cluster
  | 0, c => c
  | n + 1, c =>
    match c.propose node.id with
    | (.committed _ _, c) => node.proposeWhile n c
    | (_, c) => c

/-- Lets the replica propose as long as a full batch is pending and blocks are committed. Each block takes a
transaction at least. -/
def settle (node : Node) (c : Cluster) : Cluster :=
  node.proposeWhile (((c.replica? node.id).map (·.pool.size)).getD 0) c

/-- Stops the work of the node; its replica stays. -/
def stop (node : Node) : Node := { node with address := none }

end Node

end ReplicatedLedger
