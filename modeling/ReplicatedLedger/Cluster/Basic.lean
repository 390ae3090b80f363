import ReplicatedLedger.Replica.Delivery
import ReplicatedLedger.Replica.Proposal
import ReplicatedLedger.Sync.Address

/-! # Clusters

A cluster is a set of hosts, each with a replica or, while none runs, with its settings and directory, and
the substrate between them: who is a member under which id, who leads, and the clock and the sequence number
of ordered delivery. Besides replicas a member may be a stand-in, which gives every command the same reply,
notes what reaches it, and may touch replicas while an ordered command is being delivered. A stopped replica
is no member any more. -/

namespace ReplicatedLedger

/-- A place for a replica. -/
inductive Host where
  | running (replica : Replica)
  | stopped (settings : Settings) (dir : Directory)

namespace Host

/-- The replica, if it runs. -/
def replica? : Host → Option Replica
  | running r => some r
  | stopped .. => none

/-- The settings. -/
def settings : Host → Settings
  | running r => r.settings
  | stopped settings _ => settings

/-- The directory of the blocks. -/
def dir : Host → Directory
  | running r => r.dir
  | stopped _ dir => dir

/-- The host with its directory changed. -/
def withDir (dir : Directory) : Host → Host
  | running r => running (r.withDir dir)
  | stopped settings _ => stopped settings dir

/-- The store of the blocks. -/
def store (h : Host) : Store := ⟨h.settings.storage.naming, h.dir⟩

end Host

/-! ### Stand-ins -/

/-- What a stand-in does to a replica while an ordered command is being delivered. -/
inductive Hook where
  /-- Makes it propose. -/
  | propose (host : ReplicaId)
  /-- Gives it a snapshot. -/
  | install (host : ReplicaId) (snapshot : Bytes)
  /-- Adds a block to its ledger. -/
  | addBlock (host : ReplicaId) (block : Block)
  /-- Gives it an unordered command. -/
  | ask (host : ReplicaId) (command : Bytes)
  deriving DecidableEq

/-- What came of a hook. -/
inductive Hook.Outcome where
  /-- How the proposal ended; `none` if it would have to wait for the delivery to end. -/
  | proposal (outcome : Option ProposalOutcome)
  | installed
  | added (done : Bool)
  | reply (raw : Bytes)
  deriving DecidableEq

/-- What a stand-in notes. -/
inductive Sighting where
  /-- A command was delivered with the stamp. -/
  | command (stamp : Stamp)
  /-- A snapshot was installed. -/
  | snapshot (data : Bytes)
  deriving DecidableEq

/-- A member with one reply for everything. -/
structure StandIn where
  reply : Bytes
  hooks : List Hook
  /-- What reached it, the last first. -/
  seen : List Sighting

/-- The stand-in after one more sighting. -/
def StandIn.note (s : StandIn) (x : Sighting) : StandIn := { s with seen := x :: s.seen }

/-! ### The cluster -/

/-- What a member's id stands for. -/
inductive Member where
  | replica (host : ReplicaId)
  | standIn (id : ReplicaId)
  deriving DecidableEq

/-- Hosts, stand-ins and the substrate between them. -/
structure Cluster where
  hosts : SortedMap ReplicaId Host
  standIns : SortedMap ReplicaId StandIn
  members : SortedMap ReplicaId Member
  /-- The hosts whose stores are served, by address. -/
  servers : SortedMap String ReplicaId
  leader : ReplicaId
  clock : Int64
  sequence : UInt64
  /-- What came of hooks, the last first. -/
  hookOutcomes : List Hook.Outcome

namespace Cluster

/-- The cluster without members, led by `leader`. -/
def empty (leader : ReplicaId) : Cluster :=
  ⟨.empty, .empty, .empty, .empty, leader, Block.genesisTimestamp, 0, []⟩

/-- The replica of a running host. -/
def replica? (c : Cluster) (host : ReplicaId) : Option Replica := (c.hosts.get? host).bind Host.replica?

/-- Puts a host in its place. -/
def setHost (c : Cluster) (id : ReplicaId) (h : Host) : Cluster := { c with hosts := c.hosts.insert id h }

/-- Puts a replica in its place. -/
def setReplica (c : Cluster) (host : ReplicaId) (r : Replica) : Cluster := c.setHost host (.running r)

/-- Replaces the replica of a running host by what becomes of it. -/
def updateReplica {α : Type} (c : Cluster) (host : ReplicaId) (f : Replica → α × Replica) (none : α) :
    α × Cluster :=
  match c.replica? host with
  | .none => (none, c)
  | some r =>
    let (a, r) := f r
    (a, c.setReplica host r)

/-- Whether a member is there. -/
def isLive (c : Cluster) : Member → Bool
  | .replica host => (c.replica? host).isSome
  | .standIn id => c.standIns.contains id

/-- The members that are there, by id. -/
def live (c : Cluster) : List (ReplicaId × Member) := c.members.entries.filter fun e => c.isLive e.2

/-- The ids of the members that are there. -/
def view (c : Cluster) : List ReplicaId := c.live.map Prod.fst

/-- The member with an id, if it is there. -/
def member? (c : Cluster) (id : ReplicaId) : Option Member := (c.members.get? id).filter c.isLive

/-- Who listens at an address. -/
def listener (c : Cluster) (address : String) : Except IoError Sync.Listener :=
  if Sync.isAddress address then
    match (c.servers.get? address).bind c.hosts.get? with
    | none => .error .connectionRefused
    | some h => .ok fun request => (Sync.serve h.store request).2
  else .error .invalidInput

/-! ### Members -/

/-- Makes a replica a member under an id. -/
def register (c : Cluster) (id host : ReplicaId) : Cluster :=
  { c with members := c.members.insert id (.replica host) }

/-- Makes a stand-in a member under its id. -/
def registerStandIn (c : Cluster) (id : ReplicaId) (s : StandIn) : Cluster :=
  { c with standIns := c.standIns.insert id s, members := c.members.insert id (.standIn id) }

/-- Takes an id out of the members. -/
def deregister (c : Cluster) (id : ReplicaId) : Cluster := { c with members := c.members.erase id }

/-- Makes another id lead. -/
def setLeader (c : Cluster) (id : ReplicaId) : Cluster := { c with leader := id }

/-- Stops a replica. It is no member any more under whatever id; its directory stays. -/
def stop (c : Cluster) (host : ReplicaId) : Cluster :=
  match c.hosts.get? host with
  | none => c
  | some h =>
    { c.setHost host (.stopped h.settings h.dir) with
      members := c.members.filter fun e => e.2 != .replica host }

/-- Starts a replica over a directory, without making it a member. -/
def start (c : Cluster) (id : ReplicaId) (settings : Settings) (dir : Directory) :
    Except StartError Unit × Cluster :=
  match Replica.start id settings c.leader dir with
  | (.error e, dir) => (.error e, c.setHost id (.stopped settings dir))
  | (.ok r, _) => (.ok (), c.setReplica id r)

/-- Stops a replica, starts it anew with changed settings over its directory, and makes it a member under
its id. -/
def restart (c : Cluster) (host : ReplicaId) (change : Settings → Settings) :
    Except StartError Unit × Cluster :=
  match c.hosts.get? host with
  | none => (.ok (), c)
  | some h =>
    match (c.stop host).start host (change h.settings) h.dir with
    | (.error e, c) => (.error e, c)
    | (.ok (), c) => (.ok (), c.register host host)

end Cluster

end ReplicatedLedger
