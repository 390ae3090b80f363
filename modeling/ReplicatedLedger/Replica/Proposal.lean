import ReplicatedLedger.Replica.Basic

/-! # Proposing a block

A replica that believes it leads takes a batch from its pool, keeps the block of it as its candidate, and
submits it for ordered delivery. When the replies are in it settles the candidate: if a majority accepted and
the replica's own copy came back stamped, the block goes on the ledger; otherwise the transactions go back
into the pool. -/

namespace ReplicatedLedger

/-- What came of an attempt to propose a block. -/
inductive ProposalOutcome where
  /-- The replica does not believe that it leads. -/
  | notLeader
  /-- There is a candidate already. -/
  | candidatePending
  /-- There are fewer transactions than a batch needs. -/
  | waiting (pending : Nat)
  /-- The block is on the ledger. -/
  | committed (height : UInt64) (count : UInt32)
  /-- The block was refused, and so many transactions went back into the pool. -/
  | rejected (requeued : Nat)
  deriving DecidableEq

namespace Replica

/-- How an attempt to propose a block begins. -/
inductive Opening where
  /-- It is over. -/
  | over (outcome : ProposalOutcome)
  /-- The message is to be submitted for ordered delivery. -/
  | submit (message : Message)
  deriving DecidableEq

/-- Begins an attempt to propose a block. -/
def openProposal (r : Replica) : Opening × Replica :=
  if !r.leads then (.over .notLeader, r)
  else if r.pending.isSome then (.over .candidatePending, r)
  else
    match r.assemble r.settings.proposals.batch with
    | (.error _, r) => (.over (.waiting r.pool.size), r)
    | (.ok none, r) => (.over (.rejected r.settings.proposals.batch), r)
    | (.ok (some b), r) => (.submit (.proposal r.id b), r)

/-- Whether the answer to a proposal accepts it. -/
def accepts (answer : Except SubstrateError Bytes) : Bool :=
  match answer with
  | .error _ => false
  | .ok raw =>
    match Reply.decode raw with
    | .error _ => false
    | .ok reply => reply.isAck

/-- Ends an attempt to propose a block, with the answer to the proposal. -/
def settleProposal (r : Replica) (answer : Except SubstrateError Bytes) : ProposalOutcome × Replica :=
  match r.pending with
  | none => (.rejected 0, r)
  | some c =>
    let r := { r with pending := none }
    let refused (r : Replica) : ProposalOutcome × Replica :=
      let (n, r) := r.requeue c.block.ordered
      (.rejected n, r)
    if accepts answer && c.stamped then
      match r.ledger.add c.block with
      | (true, ledger) => (.committed c.block.height c.block.count, { r with ledger })
      | (false, ledger) => refused { r with ledger }
    else refused r

end Replica

end ReplicatedLedger
