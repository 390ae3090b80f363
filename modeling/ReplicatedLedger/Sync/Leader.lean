import ReplicatedLedger.Message.Request
import ReplicatedLedger.Sync.Range

/-! # Catching up with the leader

A replica asks the leader for its id and the height of its tip, and fetches the blocks from a given height
up to there from the address that is configured for that id. It fetches nothing from itself, from a leader
that is not among the replicas, or from one without an address. -/

namespace ReplicatedLedger.Sync

variable {σ : Type} [Queryable σ]

/-- The leader's reply to a request. -/
def query (net : σ) (request : Request) : Except SyncError Reply × σ :=
  match Queryable.ask net (Message.client request).encode with
  | (.error e, net) => (.error (.substrate e), net)
  | (.ok raw, net) => ((Reply.decode raw).mapError fun e => .query (.undecodable e), net)

/-- The leader's id and the height of its tip. -/
def leaderTip (net : σ) : Except SyncError (ReplicaId × UInt64) × σ :=
  match query net .leader with
  | (.error e, net) => (.error e, net)
  | (.ok (.leader id), net) =>
    match query net .height with
    | (.error e, net) => (.error e, net)
    | (.ok (.height top), net) => (.ok (id, top), net)
    | (.ok other, net) => (.error (.query (.unexpected other.kind)), net)
  | (.ok other, net) => (.error (.query (.unexpected other.kind)), net)

/-- What a replica knows when it catches up. -/
structure Client where
  self : ReplicaId
  /-- The addresses of the replicas. -/
  peers : SortedMap ReplicaId String
  /-- How long to wait for a peer, in milliseconds. -/
  patience : Option Nat

/-- The leader's address. -/
def Client.address (c : Client) (view : List ReplicaId) (leader : ReplicaId) : Except SyncError String :=
  if leader ∉ view then .error (.leaderNotInView leader)
  else if leader = c.self then .error (.selfIsLeader leader)
  else
    match c.peers.get? leader with
    | none => .error (.unknownPeer leader)
    | some address => .ok address

/-- Fetches the blocks from height `bottom` up to the leader's tip into a store. -/
def Client.fromLeader (c : Client) (net : σ) (listener : σ → String → Except IoError Listener) (s : Store)
    (bottom : UInt64) : Fetched × σ :=
  match leaderTip net with
  | (.error e, net) => (⟨.error e, s, none⟩, net)
  | (.ok (leader, top), net) =>
    match c.address (Queryable.view net) leader with
    | .error e => (⟨.error e, s, none⟩, net)
    | .ok address =>
      if bottom > top then (⟨.ok 0, s, none⟩, net)
      else (fetch s (listener net address) c.patience bottom top, net)

end ReplicatedLedger.Sync
