import ReplicatedLedger.Pool
import ReplicatedLedger.Settings.Basic
import ReplicatedLedger.Sync.Leader

/-! # Replicas

A replica has a ledger, a pool of pending transactions, and possibly a candidate: a block that is being
proposed, by itself or by another. While it is pending its transactions are in no pool. The replica
remembers who led when the last command reached it, and believes that it leads if that was itself. -/

namespace ReplicatedLedger

/-- A block that is being proposed. -/
structure Candidate where
  block : Block
  /-- Whether the block carries the time and nonce of its delivery. -/
  stamped : Bool
  deriving DecidableEq

/-- A replica. -/
structure Replica where
  id : ReplicaId
  settings : Settings
  ledger : Ledger
  pool : Pool
  pending : Option Candidate
  lastLeader : ReplicaId

/-- Why a node cannot start. -/
inductive StartError where
  /-- A setting has to be positive. -/
  | settings (fault : Settings.Fault)
  /-- The ledger cannot be opened. -/
  | ledger (cause : LedgerError)
  /-- Blocks cannot be served. -/
  | sync (cause : SyncError)
  deriving DecidableEq

namespace Replica

/-- The replica with the given id and settings over a directory, on a substrate that `leader` leads. -/
def start (id : ReplicaId) (settings : Settings) (leader : ReplicaId) (dir : Directory) :
    Except StartError Replica × Directory :=
  match settings.fault? with
  | some fault => (.error (.settings fault), dir)
  | none =>
    match Ledger.openIn settings.storage.naming settings.storage.budget dir with
    | (.error e, dir) => (.error (.ledger e), dir)
    | (.ok ledger, dir) => (.ok ⟨id, settings, ledger, .empty, none, leader⟩, dir)

/-- Remembers who leads. -/
def observe (r : Replica) (leader : ReplicaId) : Replica := { r with lastLeader := leader }

/-- Whether the replica believes that it leads. -/
def leads (r : Replica) : Bool := r.lastLeader == r.id

/-- What the replica knows when it catches up. -/
def syncClient (r : Replica) : Sync.Client := ⟨r.id, r.settings.transfer.peers, r.settings.transfer.patience⟩

/-- The directory of the replica's blocks. -/
def dir (r : Replica) : Directory := r.ledger.store.dir

/-- The replica over another store. -/
def withStore (r : Replica) (store : Store) : Replica := { r with ledger := { r.ledger with store } }

/-- The replica with its directory changed. -/
def withDir (r : Replica) (dir : Directory) : Replica := r.withStore { r.ledger.store with dir }

/-- Puts transactions back into the pool, and tells how many. -/
def requeue (r : Replica) (ts : List Transaction) : Nat × Replica :=
  let (n, pool) := r.pool.requeue ts
  (n, { r with pool })

/-- The block of the given transactions above the tip, without a stamp. -/
def candidate (r : Replica) (ts : List Transaction) : Except DataError Block :=
  let tip := r.ledger.tip
  Block.ofList (some tip.hash) (tip.height + 1) ts 0 [] r.settings.version

/-- Takes the `n` oldest arrivals into a candidate; if they make no block they go back. -/
def assemble (r : Replica) (n : Nat) : Except PoolError (Option Block) × Replica :=
  match r.pool.take n with
  | (.error e, pool) => (.error e, { r with pool })
  | (.ok ts, pool) =>
    let r := { r with pool }
    match r.candidate ts with
    | .error _ => (.ok none, (r.requeue ts).2)
    | .ok b => (.ok (some b), { r with pending := some ⟨b, false⟩ })

end Replica

end ReplicatedLedger
