import ReplicatedLedger.Replica.Basic

/-! # Delivery of commands to a replica

Requests that leave a replica as it is are answered in either kind of delivery; transactions are queued, and
proposals considered, in ordered delivery alone. A proposal is refused unless its sender led when it was
ordered. A replica's own proposal becomes its candidate, stamped. Of another's proposal a replica makes sure
that it would have proposed the same: it assembles a candidate itself if it has none, and adds the proposed
block, stamped, to its ledger if height, parent and transactions agree. A proposal that is the tip already
was delivered before, and is accepted without effect. -/

namespace ReplicatedLedger.Replica

/-! ### Requests -/

/-- Where a transaction is. -/
def status (r : Replica) (hash : Digest) : TxStatus :=
  if (r.pending.any fun c => c.block.contains hash) || r.pool.contains hash then .inPool
  else
    match r.ledger.findTransaction hash with
    | some height => .inBlock height
    | none => .unknown

/-- Queues encoded transactions: none if one of them cannot be read, otherwise those not pending. -/
def addTransactions (r : Replica) (raws : List Bytes) : Reply × Replica :=
  match raws.mapM fun raw => Transaction.decode raw r.settings.maxSize with
  | .error _ => (.bool false, r)
  | .ok ts =>
    let (result, pool) := r.pool.addBatch ts
    (.bool result.isOk, { r with pool })

/-- The reply to a request that leaves the replica as it is, among `nodes` replicas. -/
def answer (r : Replica) (nodes : Nat) : Request → Reply
  | .tip => .block r.ledger.tip
  | .tipSummary => .summary r.ledger.tip.summary
  | .block height => ((r.ledger.block? height).map Reply.block).getD .notFound
  | .blockSummary height => ((r.ledger.block? height).map (Reply.summary ·.summary)).getD .notFound
  | .height => .height r.ledger.tipHeight
  | .add _ | .addBatch _ => .bool false
  | .chainValid => .bool r.ledger.isChainValid
  | .leader => .leader r.lastLeader
  | .status hash => .status (r.status hash)
  | .nodes => .count (min nodes (UInt32.size - 1)).toUInt32

/-- Serves a request in ordered delivery. -/
def serve (r : Replica) (nodes : Nat) : Request → Reply × Replica
  | .add raw => r.addTransactions [raw]
  | .addBatch raws => r.addTransactions raws
  | request => (r.answer nodes request, r)

/-! ### Proposals -/

/-- Whether two blocks have the same height, parent and transactions. -/
def agrees (a b : Block) : Bool :=
  a.height == b.height && a.header.previous == b.header.previous && a.sameTransactions b

/-- Sees to it that there is a candidate, if there are transactions for one. -/
def ensureCandidate (r : Replica) : Replica :=
  if r.pending.isSome then r
  else
    let n := min r.settings.proposals.batch r.pool.size
    if n = 0 then r else (r.assemble n).2

/-- Considers a block that another replica proposes, stamped as delivered. -/
def consider (r : Replica) (b : Block) : Reply × Replica :=
  let r := r.ensureCandidate
  match r.pending with
  | none => (.bool false, r)
  | some c =>
    let r := { r with pending := none }
    let refused (r : Replica) : Reply × Replica := (.bool false, (r.requeue c.block.ordered).2)
    if agrees c.block b then
      match r.ledger.add b with
      | (true, ledger) => (.bool true, { r with ledger })
      | (false, ledger) => refused { r with ledger }
    else refused r

/-- Votes on a proposed block. -/
def vote (r : Replica) (sender : ReplicaId) (b : Block) (stamp : Stamp) : Reply × Replica :=
  if sender ≠ stamp.leader then (.bool false, r)
  else if sender = r.id then
    (.bool true, { r with pending := some ⟨b.restamp stamp.timestamp stamp.nonce, true⟩ })
  else if agrees r.ledger.tip b then (.bool true, r)
  else r.consider (b.restamp stamp.timestamp stamp.nonce)

/-! ### Commands -/

/-- Takes in a message, among `nodes` replicas. -/
def handle (r : Replica) (delivery : Delivery) (stamp : Stamp) (nodes : Nat) : Message → Reply × Replica
  | .client request =>
    match delivery with
    | .ordered => r.serve nodes request
    | .unordered => (r.answer nodes request, r)
  | .proposal sender b =>
    match delivery with
    | .ordered => r.vote sender b stamp
    | .unordered => (.bool false, r)

/-- Takes in a command, among `nodes` replicas. -/
def deliver (r : Replica) (delivery : Delivery) (command : Bytes) (stamp : Stamp) (nodes : Nat) :
    Reply × Replica :=
  let r := r.observe stamp.leader
  match Message.decode command with
  | .error e => (.error e.message, r)
  | .ok message => r.handle delivery stamp nodes message

end ReplicatedLedger.Replica
