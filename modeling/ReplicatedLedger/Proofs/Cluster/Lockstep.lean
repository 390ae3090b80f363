import ReplicatedLedger.Proofs.Cluster.Retention
import ReplicatedLedger.Proofs.Cluster.Unanimity

/-! # Replicas in lockstep

What reaches all replicas in order keeps them alike: a request queues the same transactions everywhere
(`Alike.enqueue`), and a block that one of them would propose all of them commit (`Alike.commit`). So replicas that
start with the first block alone and are all members stay alike as long as only their leader proposes, and the leader
commits every full batch (`lockstep_stage`). -/

namespace ReplicatedLedger

/-! ### What a request queues -/

/-- The transactions of a client's command, if all of them can be read and none is larger than `max`. -/
def Message.queued (command : Bytes) (max : Nat) : List Transaction :=
  match Message.decode command with
  | .ok (.client request) => ((request.raws.mapM fun raw => Transaction.decode raw max).toOption).getD []
  | _ => []

namespace Replica

/-- The replica after it queued transactions. -/
def enqueue (r : Replica) (ts : List Transaction) : Replica := { r with pool := r.pool.pushAll ts }

variable {r s t : Replica} {b : Block} {ts : List Transaction}

theorem addTransactions_eq (r : Replica) (raws : List Bytes) : (r.addTransactions raws).2 =
    r.enqueue (((raws.mapM fun raw => Transaction.decode raw r.settings.maxSize).toOption).getD []) := by
  unfold addTransactions
  cases raws.mapM fun raw => Transaction.decode raw r.settings.maxSize <;> rfl

/-- **An ordered request** queues its transactions, and nothing else. -/
theorem deliver_genuine {command : Bytes} (hgenuine : ∀ sender b, Message.decode command ≠ .ok (.proposal sender b))
    (r : Replica) (stamp : Stamp) (nodes : Nat) : (r.deliver .ordered command stamp nodes).2 =
      (r.observe stamp.leader).enqueue (Message.queued command r.settings.maxSize) := by
  unfold deliver Message.queued
  cases hdecode : Message.decode command with
  | error e => rfl
  | ok message =>
    cases message with
    | proposal sender b => exact absurd hdecode (hgenuine sender b)
    | client request =>
      cases request with
      | add raw => exact addTransactions_eq _ [raw]
      | addBatch raws => exact addTransactions_eq _ raws
      | _ => rfl

/-! ### What keeps replicas alike -/

/-- **Queueing the same** keeps replicas alike. -/
theorem Alike.enqueue (h : r.Alike s) (hr : r.Quiet) (hs : s.Quiet) (ts : List Transaction) :
    (r.enqueue ts).Alike (s.enqueue ts) where
  batch := h.batch
  maxSize := h.maxSize
  version := h.version
  queue := Pool.queue_pushAll_congr hs.reachable.consistent hr.reachable.consistent h.queue ts
  chain := h.chain

theorem Quiet.enqueue (h : r.Quiet) (ts : List Transaction) : (r.enqueue ts).Quiet :=
  ⟨h.pending, h.reachable.addBatch ts, h.sound⟩

theorem Quiet.observe (h : r.Quiet) (leader : ReplicaId) : (r.observe leader).Quiet := ⟨h.pending, h.reachable, h.sound⟩

theorem Quiet.commit (h : r.Quiet) (hadds : (r.ledger.add b).1 = true)
    (hfits : Wire.FitsSize (1 + b.encode.length)) : (r.commit b).Quiet :=
  ⟨rfl, h.reachable.take _, h.sound.gains (Ledger.gains_of_add hadds) hfits⟩

/-- The blocks after a commit: the new one on top of those that were there. -/
theorem Quiet.block?_commit (h : r.Quiet) (hadds : (r.ledger.add b).1 = true) (hbuilt : b.BuiltOn r.ledger.tip)
    (hfits : Wire.FitsSize (1 + b.encode.length)) (height : UInt64) :
    (r.commit b).ledger.block? height = if height = b.height then some b else r.ledger.block? height :=
  h.sound.block?_gains (Ledger.gains_of_add hadds) ((Ledger.gains_of_add hadds).toNat_height hbuilt) hfits height

/-- **Committing the same block** keeps replicas alike. -/
theorem Alike.commit (h : r.Alike s) (hr : r.Quiet) (hs : s.Quiet)
    (hfullr : r.settings.proposals.batch ≤ r.pool.size) (hfulls : s.settings.proposals.batch ≤ s.pool.size)
    (haddsr : (r.ledger.add b).1 = true) (haddss : (s.ledger.add b).1 = true) (hbuilt : b.BuiltOn r.ledger.tip)
    (hfits : Wire.FitsSize (1 + b.encode.length)) : (r.commit b).Alike (s.commit b) where
  batch := h.batch
  maxSize := h.maxSize
  version := h.version
  queue := by
    have hdrop : ∀ {r : Replica}, r.settings.proposals.batch ≤ r.pool.size →
        (r.commit b).pool.queue = r.pool.queue.drop r.settings.proposals.batch := fun {r} hfull => by
      rw [Replica.commit, Pool.take_of_le hfull]
    rw [hdrop hfulls, hdrop hfullr, h.batch, h.queue]
  chain height := by
    rw [hs.block?_commit haddss (h.tip_eq ▸ hbuilt) hfits, hr.block?_commit haddsr hbuilt hfits, h.chain]

end Replica

namespace Cluster

variable {c d : Cluster} {op : Op} {ops : List Op} {k : ReplicaId} {i batch maxSize : Nat} {version : String}

/-! ### Clusters in lockstep -/

/-- The replicas are in unison, have sound ledgers, are all members, and know which of them leads. -/
structure Lockstep (c : Cluster) (batch : Nat) : Prop extends c.Unison batch where
  sound : ∀ k r, c.replica? k = some r → r.ledger.Sound
  present : ∀ k r, c.replica? k = some r → c.Present k
  leader : c.Present c.leader
  led : ∀ k r, c.replica? k = some r → r.lastLeader = c.leader

theorem Lockstep.quiet (h : c.Lockstep batch) : c.Quiet := fun k r hr =>
  ⟨(h.ready k r hr).1, (h.ready k r hr).2, h.sound k r hr⟩

/-- **A step in which all replicas do the same** keeps them in lockstep, if it keeps them alike. -/
theorem Lockstep.step (h : c.Lockstep batch) (hnet : c.SameNet d ∨ c.tick.SameNet d) (hd : d.Plain)
    (f : Replica → Replica) (hreplica : ∀ k r, c.replica? k = some r → d.replica? k = some (f r))
    (hkept : ∀ k r, c.replica? k = some r → (f r).Quiet ∧ (f r).lastLeader = c.leader ∧ (f r).settings = r.settings)
    (halike : ∀ k k' r r', c.replica? k = some r → c.replica? k' = some r' → (f r).Alike (f r')) :
    d.Lockstep batch := by
  have hleader : d.leader = c.leader := hnet.elim SameNet.leader SameNet.leader
  have hrunning : ∀ k, (d.replica? k).isSome = (c.replica? k).isSome := hnet.elim SameNet.running SameNet.running
  -- every replica came from one that was there
  have hfrom : ∀ k s, d.replica? k = some s → ∃ r, c.replica? k = some r ∧ s = f r := by
    intro k s hs
    obtain ⟨r, hr⟩ : ∃ r, c.replica? k = some r := by
      rw [← Option.isSome_iff_exists, ← hrunning, hs, Option.isSome_some]
    rw [hreplica k r hr] at hs
    exact ⟨r, hr, (Option.some.inj hs).symm⟩
  have hquiet : d.Quiet := by
    intro k s hs
    obtain ⟨r, hr, rfl⟩ := hfrom k s hs
    exact (hkept k r hr).1
  refine ⟨⟨hd, hquiet.ready, h.positive, fun k s hs => ?_, fun k k' s s' hs hs' => ?_⟩,
    fun k s hs => (hquiet k s hs).sound, fun k s hs => ?_, ?_, fun k s hs => ?_⟩
  · obtain ⟨r, hr, rfl⟩ := hfrom k s hs
    rw [(hkept k r hr).2.2]
    exact h.batch k r hr
  · obtain ⟨r, hr, rfl⟩ := hfrom k s hs
    obtain ⟨r', hr', rfl⟩ := hfrom k' s' hs'
    exact halike k k' r r' hr hr'
  · obtain ⟨r, hr, rfl⟩ := hfrom k s hs
    exact (present_congr hnet k).mpr (h.present k r hr)
  · rw [hleader]
    exact (present_congr hnet c.leader).mpr h.leader
  · obtain ⟨r, hr, rfl⟩ := hfrom k s hs
    exact (hkept k r hr).2.1.trans hleader.symm

/-- A step in which no replica changes. -/
theorem Lockstep.same (h : c.Lockstep batch) (hnet : c.SameNet d)
    (hreplica : ∀ k r, c.replica? k = some r → d.replica? k = some r) (hd : d.Plain) : d.Lockstep batch :=
  h.step (Or.inl hnet) hd id hreplica (fun k r hr => ⟨h.quiet k r hr, h.led k r hr, rfl⟩) h.alike

/-! ### Requests -/

/-- **A client's ordered request** queues the same everywhere. -/
theorem Lockstep.request (h : c.Lockstep batch) {command : Bytes} (hgenuine : (Op.request .ordered command).Genuine) :
    (c.perform (.request .ordered command)).Lockstep batch := by
  have hms := members_of_live h.plain.members
  have hdeliver : ∀ (r : Replica) nodes, (r.deliver .ordered command c.tick.stamp nodes).2 =
      (r.observe c.leader).enqueue (Message.queued command r.settings.maxSize) := fun r nodes =>
    r.deliver_genuine hgenuine c.tick.stamp nodes
  have hnet := sameNet_order h.plain.members command
  refine h.step (Or.inr hnet) (h.plain.perform _)
    (fun r => (r.observe c.leader).enqueue (Message.queued command r.settings.maxSize)) (fun k r hr => ?_)
    (fun k r hr => ⟨((h.quiet k r hr).observe _).enqueue _, rfl, rfl⟩) fun k k' r r' hr hr' => ?_
  · obtain ⟨s, hs⟩ : ∃ s, (c.order command).2.replica? k = some s := by
      rw [← Option.isSome_iff_exists, hnet.running]
      exact Option.isSome_iff_exists.mpr ⟨r, hr⟩
    have hmem := h.present k r hr
    rw [perform, hs]
    rw [order_of_mem hmem] at hs
    -- told a second time, the replica finds all transactions queued
    refine congrArg some (forall_tellAll_of_mem (c := c.tick) (P := fun s => s = r)
      (Q := fun s => s = (r.observe c.leader).enqueue (Message.queued command r.settings.maxSize)) hms ?_ ?_ hmem
      (fun s hs => Option.some.inj (hs.symm.trans hr)) s hs)
    · rintro s nodes rfl
      exact hdeliver s nodes
    · rintro s nodes rfl
      rw [hdeliver]
      simp only [Replica.enqueue, Replica.observe, Pool.pushAll_pushAll]
  · have halike := h.alike k k' r r' hr hr'
    rw [halike.maxSize]
    exact (halike.observe c.leader).enqueue ((h.quiet k r hr).observe _) ((h.quiet k' r' hr').observe _) _

/-- **An unordered command** changes nothing, since all know who leads. -/
theorem Lockstep.ask (h : c.Lockstep batch) (command : Bytes) :
    (c.perform (.request .unordered command)).Lockstep batch := by
  have hd := h.plain.perform (.request .unordered command)
  rcases askLeader_cases h.plain.members command with heq | ⟨host, stamp, hleader, heq⟩
  · simp only [perform, heq]
    exact h
  · simp only [perform, heq] at hd ⊢
    refine h.same (sameNet_updateReplica c host _ _) (fun k r hr => ?_) hd
    rw [replica?_updateReplica]
    split_ifs with hk
    · rw [← hk, hr, Option.map_some, told, Replica.deliver_unordered, hleader,
        Replica.observe_of_lastLeader (h.led k r hr)]
    · exact hr

/-! ### Proposals -/

/-- **The leader proposes a full batch**: all replicas commit the block. -/
theorem Proposes.lockstep (h : c.Lockstep batch) {r : Replica} (hr : c.replica? c.leader = some r) {b : Block}
    (hb : c.Proposes r b) : (c.perform (.propose c.leader)).Lockstep batch := by
  obtain ⟨-, hcommit, -⟩ := hb.unanimous.propose
  have hbuilds : ∀ k s, c.replica? k = some s → s.Builds b := fun k s hs =>
    hb.unanimous.builds k s (h.present k s hs) hs
  have hadds : ∀ k s, c.replica? k = some s → (s.ledger.add (c.stamped b)).1 = true := fun k s hs =>
    hb.unanimous.adds k s (h.present k s hs) hs
  refine h.step (sameNet_propose h.plain.members c.leader) (h.plain.perform _)
    (fun s => (s.commit (c.stamped b)).observe c.leader) (fun k s hs => hcommit k s (h.present k s hs) hs)
    (fun k s hs => ⟨((h.quiet k s hs).commit (hadds k s hs) hb.fits).observe _, rfl, rfl⟩)
    fun k k' s s' hs hs' => ?_
  have hbuilt : (c.stamped b).BuiltOn s.ledger.tip := by
    rw [(h.alike _ _ r s hr hs).tip_eq]
    exact hb.builtOn.restamp _ _
  exact ((h.alike k k' s s' hs hs').commit (h.quiet k s hs) (h.quiet k' s' hs') (hbuilds k s hs).full
    (hbuilds k' s' hs').full (hadds k s hs) (hadds k' s' hs') hbuilt hb.fits).observe _

/-- **An attempt to propose**: nothing happens, or the leader proposes a full batch. -/
theorem Lockstep.propose (h : c.Lockstep batch) (host : ReplicaId) (hwrites : (Op.propose host).Writes c) :
    (c.perform (.propose host)).Lockstep batch := by
  have hd := h.plain.perform (.propose host)
  have hidle : ∀ r outcome, c.replica? host = some r → r.openProposal = (.over outcome, r) →
      (c.perform (.propose host)).Lockstep batch := by
    intro r outcome hr hopen
    have hpropose : (c.propose host).2 = c.setReplica host r := by
      simp only [Cluster.propose, openProposal, updateReplica_of_some hr, hopen]
    rw [perform, hpropose] at hd ⊢
    refine h.same (sameNet_setReplica hr r) (fun k s hs => ?_) hd
    rw [replica?_setReplica]
    split_ifs with hk
    · rw [← hr, ← hk, hs]
    · exact hs
  cases hr : c.replica? host with
  | none =>
    have hpropose : (c.propose host).2 = c := by
      simp only [Cluster.propose, openProposal, updateReplica_of_none hr]
    rw [perform, hpropose]
    exact h
  | some r =>
    have hid : r.id = host := h.plain.ids host r hr
    by_cases hleader : host = c.leader
    · subst hleader
      rcases Nat.lt_or_ge r.pool.size r.settings.proposals.batch with hlt | hfull
      · refine hidle r (.waiting r.pool.size) hr ?_
        exact Replica.openProposal_of_lt ((h.led _ r hr).trans hid.symm) (h.quiet _ r hr).pending hlt
      · obtain ⟨b, hb⟩ := h.exists_proposes h.leader hr (h.led _ r hr) hfull hwrites
        exact hb.lockstep h hr
    · refine hidle r .notLeader hr ?_
      have hfollows : r.leads = false := by
        rw [Replica.leads, h.led host r hr, hid]
        exact beq_false_of_ne (Ne.symm hleader)
      simp [Replica.openProposal, hfollows]

/-! ### Runs -/

/-- A client's request that proposes nothing, or an attempt of a replica to propose. -/
def Op.Routine : Op → Prop
  | request .ordered command => (Op.request .ordered command).Genuine
  | request .unordered _ => True
  | propose _ => True
  | _ => False

/-- **A routine operation** keeps replicas in lockstep. -/
theorem Lockstep.perform (h : c.Lockstep batch) (hroutine : op.Routine) (hwrites : op.Writes c) :
    (c.perform op).Lockstep batch := by
  match op, hroutine with
  | .request .ordered command, hgenuine => exact h.request hgenuine
  | .request .unordered command, _ => exact h.ask command
  | .propose host, _ => exact h.propose host hwrites

/-- The leader stays if no operation changes it. -/
theorem leader_stage (hplain : c.Plain) (hfixed : ∀ op ∈ ops, ∀ id, op ≠ .setLeader id) (i : Nat) :
    (c.stage ops i).leader = c.leader := by
  induction i with
  | zero => rfl
  | succ i ih =>
    rcases Nat.lt_or_ge i ops.length with hi | hi
    · rw [stage_succ (List.getElem?_eq_getElem hi)]
      exact ((steady_perform (hplain.run _) _).1 (hfixed _ (List.getElem_mem hi))).trans ih
    · rw [stage_of_length_le (Nat.le_succ_of_le hi), ← stage_of_length_le hi]
      exact ih

/-- What is written in a run, if the leader proposes. -/
def RunWrites (c : Cluster) (ops : List Op) : Prop := ∀ i : Fin ops.length, (ops.get i).Writes (c.stage ops i)

instance (c : Cluster) (ops : List Op) : Decidable (c.RunWrites ops) :=
  inferInstanceAs (Decidable (∀ i : Fin ops.length, (ops.get i).Writes (c.stage ops i)))

/-- **Along a run** of routine operations replicas stay in lockstep. -/
theorem Lockstep.stage (h : c.Lockstep batch) (hroutine : ∀ op ∈ ops, op.Routine) (hwrites : c.RunWrites ops)
    (i : Nat) : (c.stage ops i).Lockstep batch := by
  induction i with
  | zero => exact h
  | succ i ih =>
    rcases Nat.lt_or_ge i ops.length with hi | hi
    · rw [stage_succ (List.getElem?_eq_getElem hi)]
      exact ih.perform (hroutine _ (List.getElem_mem hi)) (hwrites ⟨i, hi⟩)
    · rw [stage_of_length_le (Nat.le_succ_of_le hi), ← stage_of_length_le hi]
      exact ih

/-- Clusters made by starting replicas with the same size of batches, limit for transactions and version, each with
a ledger of the first block alone, in a lone directory or with names of files that lead on, and by registering
them. -/
inductive Uniform (batch maxSize : Nat) (version : String) : Cluster → Prop where
  | empty (leader : ReplicaId) : Uniform batch maxSize version (empty leader)
  | start {c : Cluster} (h : Uniform batch maxSize version c) (id : ReplicaId) (settings : Settings) (dir : Directory)
      (hbatch : settings.proposals.batch = batch) (hmaxSize : settings.maxSize = maxSize)
      (hversion : settings.version = version) (hdir : settings.storage.naming.LeadsOn ∨ dir.Lone)
      (hfresh : ∀ r dir', Replica.start id settings c.leader dir = (.ok r, dir') → r.ledger.tip = .genesis) :
      Uniform batch maxSize version (c.start id settings dir).2
  | register {c : Cluster} (h : Uniform batch maxSize version c) (id host : ReplicaId) :
      Uniform batch maxSize version (c.register id host)

/-- A replica as it starts with an empty pool and the first block. -/
structure New (batch maxSize : Nat) (version : String) (leader : ReplicaId) (r : Replica) : Prop where
  quiet : r.Quiet
  batch : r.settings.proposals.batch = batch
  positive : 0 < r.settings.proposals.batch
  maxSize : r.settings.maxSize = maxSize
  version : r.settings.version = version
  pool : r.pool = .empty
  tip : r.ledger.tip = .genesis
  led : r.lastLeader = leader

theorem New.alike {leader : ReplicaId} {r s : Replica} (hr : New batch maxSize version leader r)
    (hs : New batch maxSize version leader s) : r.Alike s where
  batch := hs.batch.trans hr.batch.symm
  maxSize := hs.maxSize.trans hr.maxSize.symm
  version := hs.version.trans hr.version.symm
  queue := by rw [hs.pool, hr.pool]
  chain height := by rw [Ledger.block?_of_tip_genesis hs.tip, Ledger.block?_of_tip_genesis hr.tip]

theorem Uniform.plain (h : c.Uniform batch maxSize version) : c.Plain := by
  induction h with
  | empty leader => exact plain_empty leader
  | start _ id settings dir _ _ _ _ _ ih => exact ih.start id settings dir
  | register _ id host ih => exact ih.perform (.register id host)

theorem Uniform.new (h : c.Uniform batch maxSize version) :
    ∀ k r, c.replica? k = some r → New batch maxSize version c.leader r := by
  induction h with
  | empty leader => exact fun _ _ h => by cases h
  | @start c _ id settings dir hbatch hmaxSize hversion hdir hfresh ih =>
    have hleader : (c.start id settings dir).2.leader = c.leader := by
      unfold Cluster.start
      split <;> rfl
    rw [hleader]
    refine forall_start ih id settings dir fun r dir' hstart => ?_
    obtain ⟨-, hpool, hpending⟩ := Replica.start_eq_ok hstart
    obtain ⟨hsettings, hled, hpositive⟩ := Replica.settings_of_start hstart
    exact ⟨⟨hpending, hpool ▸ .empty, Replica.sound_of_start hstart hdir⟩, hsettings ▸ hbatch,
      hsettings ▸ hpositive, hsettings ▸ hmaxSize, hsettings ▸ hversion, hpool, hfresh r dir' hstart, hled⟩
  | register _ id host ih => exact ih

/-- **New replicas** that are all members are in lockstep. -/
theorem Uniform.lockstep (h : c.Uniform batch maxSize version) (hpresent : ∀ k r, c.replica? k = some r → c.Present k)
    (hleader : c.Present c.leader) : c.Lockstep batch where
  plain := h.plain
  ready k r hr := ⟨(h.new k r hr).quiet.pending, (h.new k r hr).quiet.reachable⟩
  positive := by
    obtain ⟨r, hr⟩ := hleader.exists_replica
    have hnew := h.new _ r hr
    exact hnew.batch ▸ hnew.positive
  batch k r hr := (h.new k r hr).batch
  alike k k' r r' hr hr' := (h.new k r hr).alike (h.new k' r' hr')
  sound k r hr := (h.new k r hr).quiet.sound
  present := hpresent
  leader := hleader
  led k r hr := (h.new k r hr).led

/-- **Without faults all replicas stay the same.** Let replicas be started with the same size of batches, limit for
transactions and version, each with the first block alone, let all be members and one of them lead, and let them run
on clients' requests and attempts of any replica to propose, where all that the leader proposes can be written. After
every step all replicas have the same queue in the same order and the same blocks, and none has a candidate; and
whenever the leader attempts to propose with a full batch pending, it commits a block of the batch above its tip. -/
theorem lockstep_stage (huniform : c.Uniform batch maxSize version)
    (hpresent : ∀ k r, c.replica? k = some r → c.Present k) (hleader : c.Present c.leader)
    (hroutine : ∀ op ∈ ops, op.Routine) (hwrites : c.RunWrites ops) (i : Nat) :
    (∀ k k' r r', (c.stage ops i).replica? k = some r → (c.stage ops i).replica? k' = some r' →
        r'.pool.queue = r.pool.queue ∧ (∀ height, r'.ledger.block? height = r.ledger.block? height) ∧
          r.pending = none) ∧
      ∀ r, ops[i]? = some (.propose c.leader) → (c.stage ops i).replica? c.leader = some r → batch ≤ r.pool.size →
        ∃ height count, ((c.stage ops i).propose c.leader).1 = .committed height count ∧
          height.toNat = r.ledger.tip.height.toNat + 1 ∧ count.toNat = batch := by
  have hlockstep := (huniform.lockstep hpresent hleader).stage hroutine hwrites i
  refine ⟨fun k k' r r' hr hr' => ?_, fun r hop hr hfull => ?_⟩
  · have halike := hlockstep.alike k k' r r' hr hr'
    exact ⟨halike.queue, halike.chain, (hlockstep.quiet k r hr).pending⟩
  · have hfixed : ∀ op ∈ ops, ∀ id, op ≠ .setLeader id := by
      rintro op hop id rfl
      exact hroutine _ hop
    have hleads := leader_stage huniform.plain hfixed i
    rw [← hleads] at hop hr ⊢
    have hbatch := hlockstep.batch _ r hr
    obtain ⟨hi, hstep⟩ := List.getElem?_eq_some_iff.mp hop
    have hwritesAt := hwrites ⟨i, hi⟩
    rw [List.get_eq_getElem, hstep] at hwritesAt
    obtain ⟨b, hb⟩ := hlockstep.exists_proposes hlockstep.leader hr (hlockstep.led _ r hr) (hbatch ▸ hfull) hwritesAt
    exact ⟨b.height, b.count, hb.unanimous.propose.1, hb.height, hb.count.trans hbatch⟩

/-- A client submits a transaction and the leader of the pair proposes it. -/
def pairOps : List Op := [submission, .propose 0]

theorem uniform_pair : (pair [0, 1]).Uniform 1 Transaction.defaultMaxSize Transaction.currentVersion := by
  have hfresh : ∀ id leader r dir', Replica.start id { Settings.standard with proposals := ⟨1, 1⟩ } leader .fresh =
      (.ok r, dir') → r.ledger.tip = .genesis := by
    intro id leader r dir' hstart
    have hopened : (Ledger.openIn .standard Ledger.defaultBudget .fresh).1.toOption.map Ledger.tip =
        some .genesis := by decide +kernel
    have hledger : (Ledger.openIn .standard Ledger.defaultBudget .fresh).1 = .ok r.ledger :=
      Replica.ledger_of_start hstart
    rw [hledger] at hopened
    exact Option.some.inj hopened
  have hlone := Directory.lone_empty ["blocks"] (by decide)
  exact ((((Uniform.empty 0).start 0 _ .fresh rfl rfl rfl (Or.inr hlone) (hfresh 0 _)).start 1 _ .fresh rfl rfl rfl
    (Or.inr hlone) (hfresh 1 _)).register 0 0).register 1 1

theorem leader_pair : (pair [0, 1]).leader = 0 := by decide +kernel

theorem present_pair : ∀ k r, (pair [0, 1]).replica? k = some r → (pair [0, 1]).Present k := by
  intro k r hr
  obtain ⟨e, he, hre⟩ := exists_mem_hosts hr
  have hall : ∀ e ∈ (pair [0, 1]).hosts.entries, ∀ r ∈ e.2.replica?,
      Member.replica r.id ∈ (pair [0, 1]).live.map Prod.snd := by decide +kernel
  exact (plain_pair [0, 1]).ids k r hr ▸ hall e he r hre

theorem present_leader_pair : (pair [0, 1]).Present (pair [0, 1]).leader := by
  unfold Present
  decide +kernel

/-- The leader of a pair has a full batch after the first step and commits it; the other member has the same blocks
afterwards. -/
theorem lockstep_stage_pair : ∃ r s t, ((pair [0, 1]).stage pairOps 1).replica? 0 = some r ∧
    ((pair [0, 1]).stage pairOps 2).replica? 0 = some s ∧ ((pair [0, 1]).stage pairOps 2).replica? 1 = some t ∧
    (∃ height count, (((pair [0, 1]).stage pairOps 1).propose 0).1 = .committed height count ∧
      height.toNat = r.ledger.tip.height.toNat + 1 ∧ count.toNat = 1) ∧
    t.pool.queue = s.pool.queue ∧ ∀ height, t.ledger.block? height = s.ledger.block? height := by
  have hroutine : ∀ op ∈ pairOps, op.Routine := by
    simp only [pairOps, List.forall_mem_cons]
    exact ⟨genuine_submission, trivial, List.forall_mem_nil _⟩
  have hwrites : (pair [0, 1]).RunWrites pairOps := by decide +kernel
  have hfull : (((pair [0, 1]).stage pairOps 1).replica? 0).any (fun r => decide (1 ≤ r.pool.size)) = true := by
    decide +kernel
  have hrunning : (((pair [0, 1]).stage pairOps 2).replica? 0).isSome ∧
      (((pair [0, 1]).stage pairOps 2).replica? 1).isSome := by decide +kernel
  obtain ⟨r, hr, hsize⟩ := (Option.any_eq_true _ _).mp hfull
  obtain ⟨s, hs⟩ := Option.isSome_iff_exists.mp hrunning.1
  obtain ⟨t, ht⟩ := Option.isSome_iff_exists.mp hrunning.2
  obtain ⟨-, hcommits⟩ := lockstep_stage uniform_pair present_pair present_leader_pair hroutine hwrites 1
  obtain ⟨hsame, -⟩ := lockstep_stage uniform_pair present_pair present_leader_pair hroutine hwrites 2
  obtain ⟨hqueue, hchain, -⟩ := hsame 0 1 s t hs ht
  rw [leader_pair] at hcommits
  exact ⟨r, s, t, hr, hs, ht, hcommits r rfl hr (of_decide_eq_true hsize), hqueue, hchain⟩

end Cluster

end ReplicatedLedger
