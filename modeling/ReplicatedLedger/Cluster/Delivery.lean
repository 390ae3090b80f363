import ReplicatedLedger.Cluster.Basic

/-! # Delivery in a cluster

An unordered command goes to the leader. An ordered command gets the next time and sequence number and goes
to every member that is there, by id; its reply is the one that more than half of them gave. A snapshot
replaces the pool of a replica, which then reloads its ledger and catches up with the leader. -/

namespace ReplicatedLedger.Cluster

/-- Gives a command to a member, hooks apart. -/
def tell (c : Cluster) (member : Member) (delivery : Delivery) (command : Bytes) (stamp : Stamp) :
    Bytes × Cluster :=
  match member with
  | .replica host =>
    c.updateReplica host
      (fun r =>
        let (reply, r) := r.deliver delivery command stamp c.view.length
        (reply.encode, r))
      []
  | .standIn id =>
    match c.standIns.get? id with
    | none => ([], c)
    | some s => (s.reply, { c with standIns := c.standIns.insert id (s.note (.command stamp)) })

/-! ### Unordered commands -/

/-- Gives a command to the leader. -/
def askLeader (c : Cluster) (command : Bytes) : Except SubstrateError Bytes × Cluster :=
  match c.member? c.leader with
  | none => (.error (.unavailable c.leader), c)
  | some member =>
    let (reply, c) := c.tell member .unordered command ⟨c.clock, [], c.leader⟩
    (.ok reply, c)

instance : Queryable Cluster := ⟨askLeader, view⟩

/-! ### Catching up -/

/-- Fetches the blocks from height `bottom` up to the leader's tip into a replica's store. -/
def syncFromLeader (c : Cluster) (host : ReplicaId) (bottom : UInt64) : Except SyncError Nat × Cluster :=
  match c.replica? host with
  | none => (.ok 0, c)
  | some r =>
    let (fetched, c) := r.syncClient.fromLeader c listener r.ledger.store bottom
    c.updateReplica host (fun r => (fetched.result, r.withStore fetched.store)) fetched.result

/-- Loads the window of a replica's ledger anew. -/
def reload (c : Cluster) (host : ReplicaId) : Except LedgerError Unit × Cluster :=
  c.updateReplica host
    (fun r =>
      let (result, ledger) := r.ledger.reload
      (result, { r with ledger }))
    (.ok ())

/-- Fetches the blocks above a replica's tip, and reloads its ledger if there were any. -/
def catchUp (c : Cluster) (host : ReplicaId) : Cluster :=
  match c.replica? host with
  | none => c
  | some r =>
    match c.syncFromLeader host (r.ledger.tipHeight + 1) with
    | (.error _, c) => c
    | (.ok n, c) => if n = 0 then c else (c.reload host).2

/-! ### Snapshots -/

/-- Replaces a replica's pool by that of a snapshot, and catches up; a snapshot that cannot be read has no
effect. -/
def installSnapshot (c : Cluster) (host : ReplicaId) (snapshot : Bytes) : Cluster :=
  match c.replica? host with
  | none => c
  | some r =>
    match Pool.ofSnapshot snapshot r.settings.maxSize with
    | .error _ => c
    | .ok pool => (((c.setReplica host { r with pool, pending := none }).reload host).2).catchUp host

/-- The snapshot of a member. -/
def snapshot (c : Cluster) : Member → Bytes
  | .replica host => ((c.replica? host).map (·.pool.snapshot)).getD []
  | .standIn id => ((c.standIns.get? id).map StandIn.reply).getD []

/-- Gives the snapshot of one member to another. -/
def transfer (c : Cluster) (source target : ReplicaId) : Except SubstrateError Unit × Cluster :=
  match c.member? source, c.member? target with
  | none, _ => (.error (.unavailable source), c)
  | some _, none => (.error (.unavailable target), c)
  | some m, some (.replica host) => (.ok (), c.installSnapshot host (c.snapshot m))
  | some m, some (.standIn id) =>
    let data := c.snapshot m
    (.ok (), { c with standIns := c.standIns.modify id fun s => s.note (.snapshot data) })

/-! ### Ordered commands -/

/-- Begins an attempt of a replica to propose a block. -/
def openProposal (c : Cluster) (host : ReplicaId) : Replica.Opening × Cluster :=
  c.updateReplica host Replica.openProposal (.over .notLeader)

/-- Does what a hook says. A proposal that gets as far as to be submitted would wait for the delivery to
end, which waits for the hook. -/
def runHook (c : Cluster) : Hook → Hook.Outcome × Cluster
  | .propose host =>
    match c.openProposal host with
    | (.over outcome, c) => (.proposal (some outcome), c)
    | (.submit _, c) => (.proposal none, c)
  | .install host snapshot => (.installed, c.installSnapshot host snapshot)
  | .addBlock host block =>
    c.updateReplica host
      (fun r =>
        let (done, ledger) := r.ledger.add block
        (.added done, { r with ledger }))
      (.added false)
  | .ask host command =>
    c.updateReplica host
      (fun r =>
        let (reply, r) := r.deliver .unordered command ⟨0, [], r.lastLeader⟩ c.view.length
        (.reply reply.encode, r))
      (.reply [])

/-- Does what the hooks of a member say. -/
def runHooks (c : Cluster) (member : Member) : Cluster :=
  let hooks := match member with
    | .replica _ => []
    | .standIn id => ((c.standIns.get? id).map StandIn.hooks).getD []
  hooks.foldl
    (fun c hook =>
      let (outcome, c) := c.runHook hook
      { c with hookOutcomes := outcome :: c.hookOutcomes })
    c

/-- Gives an ordered command to members one after another; their replies. -/
def tellAll (command : Bytes) (stamp : Stamp) : List Member → Cluster → List Bytes × Cluster
  | [], c => ([], c)
  | m :: ms, c =>
    let (reply, c) := c.tell m .ordered command stamp
    let (replies, c) := tellAll command stamp ms (c.runHooks m)
    (reply :: replies, c)

/-- The reply that more than half give. -/
def majority? (replies : List Bytes) : Option Bytes :=
  replies.find? fun r => 2 * replies.count r > replies.length

/-- Delivers a command to all members that are there. -/
def order (c : Cluster) (command : Bytes) : Except SubstrateError Bytes × Cluster :=
  let c := { c with clock := c.clock + 1, sequence := c.sequence + 1 }
  let stamp : Stamp := ⟨c.clock, Bytes.bigEndian 8 c.sequence.toNat, c.leader⟩
  let targets := c.live.map Prod.snd
  if targets = [] then (.error .noReplicas, c)
  else
    let (replies, c) := tellAll command stamp targets c
    match majority? replies with
    | none => (.error (.noQuorum targets.length), c)
    | some reply => (.ok reply, c)

instance : Substrate Cluster where
  order := order

end ReplicatedLedger.Cluster
