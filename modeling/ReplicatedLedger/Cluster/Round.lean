import ReplicatedLedger.Cluster.Delivery

/-! # Rounds of a cluster

A proposal is begun by a replica, delivered to all members, and settled by the replica with the answer. A
check of a chain that finds it broken fetches all blocks up to the leader's tip and reloads the ledger. -/

namespace ReplicatedLedger.Cluster

/-- One attempt of a replica to propose a block. -/
def propose (c : Cluster) (host : ReplicaId) : ProposalOutcome × Cluster :=
  match c.openProposal host with
  | (.over outcome, c) => (outcome, c)
  | (.submit message, c) =>
    let (answer, c) := c.order message.encode
    c.updateReplica host (fun r => r.settleProposal answer) (.rejected 0)

/-- What a check of a chain found. -/
inductive CheckOutcome where
  /-- The chain is linked. -/
  | valid
  /-- The chain was broken and is linked after the repair. -/
  | repaired
  /-- The chain is broken. -/
  | broken
  deriving DecidableEq

/-- Whether a replica's chain is linked. -/
def isChainValid (c : Cluster) (host : ReplicaId) : Bool :=
  (c.replica? host).any fun r => r.ledger.isChainValid

/-- Checks a replica's chain, and repairs it if it is broken. -/
def check (c : Cluster) (host : ReplicaId) : CheckOutcome × Cluster :=
  if c.isChainValid host then (.valid, c)
  else
    match (c.syncFromLeader host 0).2.reload host with
    | (.error _, c) => (.broken, c)
    | (.ok (), c) => (if c.isChainValid host then .repaired else .broken, c)

end ReplicatedLedger.Cluster
