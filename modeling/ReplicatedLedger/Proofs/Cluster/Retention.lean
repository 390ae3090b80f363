import ReplicatedLedger.Proofs.Cluster.Agreement
import ReplicatedLedger.Proofs.Cluster.Atomicity
import ReplicatedLedger.Proofs.Ledger.Search

/-! # No transaction is lost

A step of a cluster does one of two things to a replica: its pool may grow by what clients submit, and its ledger is
kept (`Queues`), or it commits a block, and the transactions of the block go from its pool to its ledger. Either way
a transaction that is pending or on the ledger stays one of the two, and one that is on the ledger alone stays
where it is until it is submitted anew (`Evolves.status`). So it is in all steps of a run, for clusters that
are started over empty directories, or over any with names of files that lead on (`status_stage`). -/

namespace ReplicatedLedger

/-! ### What a request submits -/

/-- The encoded transactions that are to be queued. -/
def Request.raws : Request → List Bytes
  | add raw => [raw]
  | addBatch raws => raws
  | _ => []

/-- A command by which a client submits a transaction with the hash. -/
def Message.Submits (command : Bytes) (hash : Digest) : Prop :=
  ∃ request, Message.decode command = .ok (.client request) ∧
    ∃ raw ∈ request.raws, ∃ max t, Transaction.decode raw max = .ok t ∧ t.hash = hash

/-- An operation by which a client submits a transaction with the hash. -/
def Cluster.Op.Submits : Op → Digest → Prop
  | request .ordered command, hash => Message.Submits command hash
  | _, _ => False

/-- All results are there, or none. -/
theorem mapM_eq_ok_iff {α β ε : Type} {f : α → Except ε β} {as : List α} {bs : List β} :
    as.mapM f = .ok bs ↔ as.map f = bs.map .ok := by
  induction as generalizing bs with
  | nil => cases bs <;> simp [pure, Except.pure]
  | cons a as ih =>
    rw [List.mapM_cons, List.map_cons]
    cases ha : f a with
    | error e => cases bs <;> simp [bind, Except.bind]
    | ok b =>
      cases has : as.mapM f with
      | error e =>
        have hno : ∀ bs : List β, as.map f ≠ bs.map .ok := fun bs heq => by
          rw [ih.mpr heq] at has
          cases has
        cases bs <;> simp [bind, Except.bind, hno]
      | ok bs' =>
        have hinj : Function.Injective (List.map (Except.ok : β → Except ε β)) :=
          List.map_injective_iff.mpr fun _ _ => Except.ok.inj
        cases bs <;> simp [bind, Except.bind, pure, Except.pure, ih.mp has, hinj.eq_iff]

theorem mem_of_mapM_eq_ok {α β ε : Type} {f : α → Except ε β} {as : List α} {bs : List β}
    (h : as.mapM f = .ok bs) : ∀ b ∈ bs, ∃ a ∈ as, f a = .ok b := fun _ hb =>
  List.mem_map.mp (mapM_eq_ok_iff.mp h ▸ List.mem_map_of_mem hb)

/-! ### What a step does to a replica -/

namespace Replica

/-- The replica has no candidate, a pool that can be reached, and a sound ledger. -/
structure Quiet (r : Replica) : Prop where
  pending : r.pending = none
  reachable : r.pool.Reachable
  sound : r.ledger.Sound

/-- The pool grows by what is submitted at most, and the ledger is kept. -/
structure Queues (r : Replica) (submitted : Digest → Prop) (s : Replica) : Prop where
  ledger : r.ledger.Keeps s.ledger
  pending : s.pending = r.pending
  reachable : r.pool.Reachable → s.pool.Reachable
  grows : ∀ hash, r.pool.contains hash = true → s.pool.contains hash = true
  fresh : ∀ hash, s.pool.contains hash = true → r.pool.contains hash = true ∨ submitted hash

/-- What a step does to a replica: it queues, or commits a block whose record fits. -/
def Evolves (r : Replica) (submitted : Digest → Prop) (s : Replica) : Prop :=
  r.Queues submitted s ∨ ∃ b, r.Commits b s ∧ Wire.FitsSize (1 + b.encode.length)

variable {r s t : Replica} {submitted : Digest → Prop} {b : Block} {hash : Digest}

theorem Queues.observe (r : Replica) (submitted : Digest → Prop) (leader : ReplicaId) :
    r.Queues submitted (r.observe leader) :=
  ⟨Ledger.Keeps.refl _, rfl, fun h => h, fun _ h => h, fun _ h => Or.inl h⟩

theorem Queues.refl (r : Replica) (submitted : Digest → Prop) : r.Queues submitted r := .observe r _ r.lastLeader

theorem Queues.trans (h : r.Queues submitted s) (h' : s.Queues submitted t) : r.Queues submitted t where
  ledger := h.ledger.trans h'.ledger
  pending := h'.pending.trans h.pending
  reachable hp := h'.reachable (h.reachable hp)
  grows hash hin := h'.grows hash (h.grows hash hin)
  fresh hash hin := (h'.fresh hash hin).elim (h.fresh hash) Or.inr

theorem Rests.evolves (h : r.Rests s) (hnone : r.pending = none) : r.Evolves submitted s :=
  Or.inl ⟨h.ledger, h.pending.trans hnone.symm, fun _ => h.reachable, fun hash hin => (h.pool hash).trans hin,
    fun hash hin => Or.inl ((h.pool hash).symm.trans hin)⟩

/-! ### Requests -/

theorem queues_addTransactions (r : Replica) (raws : List Bytes) :
    r.Queues (fun hash => ∃ raw ∈ raws, ∃ max t, Transaction.decode raw max = .ok t ∧ t.hash = hash)
      (r.addTransactions raws).2 := by
  unfold addTransactions
  split
  · exact .refl _ _
  · rename_i ts hts
    refine ⟨Ledger.Keeps.refl _, rfl, fun hp => hp.addBatch ts, fun hash hin => ?_, fun hash hin => ?_⟩
    · exact (Pool.contains_pushAll r.pool ts hash).mpr (Or.inl hin)
    · rcases (Pool.contains_pushAll r.pool ts hash).mp hin with hold | hnew
      · exact Or.inl hold
      · obtain ⟨t, ht, rfl⟩ := List.mem_map.mp hnew
        obtain ⟨raw, hraw, hdecode⟩ := mem_of_mapM_eq_ok hts t ht
        exact Or.inr ⟨raw, hraw, _, t, hdecode, rfl⟩

/-- **An ordered request** queues what it submits. -/
theorem queues_ordered {command : Bytes} (hgenuine : ∀ sender b, Message.decode command ≠ .ok (.proposal sender b))
    (r : Replica) (stamp : Stamp) (nodes : Nat) :
    r.Queues (Message.Submits command) (r.deliver .ordered command stamp nodes).2 := by
  have hobserve : r.Queues (Message.Submits command) (r.observe stamp.leader) := .observe r _ _
  unfold deliver
  cases hdecode : Message.decode command with
  | error e => exact hobserve
  | ok message =>
    cases message with
    | proposal sender b => exact absurd hdecode (hgenuine sender b)
    | client request =>
      have hserve : (r.observe stamp.leader).Queues (Message.Submits command)
          ((r.observe stamp.leader).serve nodes request).2 := by
        cases request with
        | add raw =>
          have h := (r.observe stamp.leader).queues_addTransactions [raw]
          exact ⟨h.ledger, h.pending, h.reachable, h.grows, fun hash hin =>
            (h.fresh hash hin).imp_right fun hnew => ⟨_, hdecode, hnew⟩⟩
        | addBatch raws =>
          have h := (r.observe stamp.leader).queues_addTransactions raws
          exact ⟨h.ledger, h.pending, h.reachable, h.grows, fun hash hin =>
            (h.fresh hash hin).imp_right fun hnew => ⟨_, hdecode, hnew⟩⟩
        | _ => exact .refl _ _
      exact hobserve.trans hserve

/-! ### Where a transaction is -/

/-- What a replica without a candidate tells of a transaction. -/
theorem status_eq (hnone : r.pending = none) (hash : Digest) : r.status hash =
    if r.pool.contains hash then .inPool
    else (r.ledger.findTransaction hash).elim .unknown .inBlock := by
  unfold status
  rw [hnone, Option.any_none, Bool.false_or]
  cases r.ledger.findTransaction hash <;> rfl

/-- A candidate has no nonce, so that no stamp makes it shorter. -/
theorem length_candidate_le {ts : List Transaction} (hok : r.candidate ts = .ok b) (timestamp : Int64)
    (nonce : Bytes) : b.encode.length ≤ (b.restamp timestamp nonce).encode.length := by
  have hnonce : b.header.nonce = [] := by
    unfold candidate Block.ofList Block.assemble at hok
    dsimp only at hok
    split_ifs at hok
    cases hok
    rfl
  have hlength := b.length_encode_restamp timestamp nonce
  rw [hnonce, List.length_nil] at hlength
  omega

/-- A replica that starts has a sound ledger. -/
theorem sound_of_start {id leader : ReplicaId} {settings : Settings} {dir dir' : Directory}
    (h : start id settings leader dir = (.ok r, dir')) (hdir : settings.storage.naming.LeadsOn ∨ dir.Lone) :
    r.ledger.Sound := by
  unfold start at h
  split at h
  · cases h
  · split at h
    · cases h
    · rename_i hopen
      cases h
      exact Ledger.sound_of_openIn hopen hdir

/-- A replica that is quiet stays so. -/
theorem Evolves.quiet (h : r.Evolves submitted s) (hr : r.Quiet) : s.Quiet := by
  rcases h with hqueues | ⟨b, hcommits, hfits⟩
  · exact ⟨hqueues.pending.trans hr.pending, hqueues.reachable hr.reachable, hr.sound.keeps hqueues.ledger⟩
  · exact ⟨hcommits.pending, hcommits.reachable, hr.sound.gains hcommits.ledger hfits⟩

/-- **In one step** a transaction that is pending or on the ledger does not become unknown, and one that is on the
ledger stays where it is, unless it is submitted. -/
theorem Evolves.status (h : r.Evolves submitted s) (hr : r.Quiet) (hash : Digest) :
    (r.status hash ≠ .unknown → s.status hash ≠ .unknown) ∧
      ∀ height, r.status hash = .inBlock height → ¬ submitted hash → s.status hash = .inBlock height := by
  rw [status_eq hr.pending, status_eq (h.quiet hr).pending]
  rcases h with hqueues | ⟨b, hcommits, hfits⟩
  · rw [hqueues.ledger.findTransaction_eq]
    cases hbefore : r.pool.contains hash with
    | true =>
      rw [hqueues.grows hash hbefore]
      exact ⟨fun h => h, fun _ h _ => h⟩
    | false =>
      cases hafter : s.pool.contains hash with
      | true =>
        have hnew : submitted hash := (hqueues.fresh hash hafter).resolve_left (by rw [hbefore]; decide)
        exact ⟨fun _ => TxStatus.noConfusion, fun _ _ hno => absurd hnew hno⟩
      | false => exact ⟨fun h => h, fun _ h _ => h⟩
  · rw [hr.sound.findTransaction_gains hcommits.ledger hcommits.height hfits, hcommits.pool]
    cases hin : b.contains hash with
    | true =>
      -- the transaction was pending, and is on the ledger now
      rw [hcommits.held hash hin]
      exact ⟨fun _ => TxStatus.noConfusion, fun _ h => TxStatus.noConfusion h⟩
    | false =>
      rw [Bool.not_false, Bool.and_true]
      exact ⟨fun h => h, fun _ h _ => h⟩

end Replica

namespace Cluster

/-! ### What a step does to all replicas -/

/-- All replicas are quiet. -/
def Quiet (c : Cluster) : Prop := ∀ k r, c.replica? k = some r → r.Quiet

/-- The block that a replica proposes if it is made to. -/
def proposal? (c : Cluster) (host : ReplicaId) : Option Block :=
  (c.replica? host).bind fun r =>
    match r.openProposal.1 with
    | .submit (.proposal _ b) => some b
    | _ => none

/-- A block that the operation proposes has a record whose length fits, with the stamp that it gets. -/
def Op.Fits (c : Cluster) : Op → Prop
  | propose host => ∀ b ∈ c.proposal? host,
      Wire.FitsSize (1 + (b.restamp c.tick.stamp.timestamp c.tick.stamp.nonce).encode.length)
  | _ => True

instance (c : Cluster) : DecidablePred (Op.Fits c)
  | .propose host => inferInstanceAs (Decidable (∀ b ∈ c.proposal? host, _))
  | .request .. | .register .. | .deregister _ | .setLeader _ | .observe .. => inferInstanceAs (Decidable True)

/-- Every replica of the first cluster has evolved to the one of the second. -/
def Evolves (c : Cluster) (submitted : Digest → Prop) (d : Cluster) : Prop :=
  ∀ k r, c.replica? k = some r → ∃ s, d.replica? k = some s ∧ r.Evolves submitted s

variable {c d : Cluster} {submitted : Digest → Prop} {host k : ReplicaId} {op : Op} {ops : List Op} {i j : Nat}

theorem Quiet.ready (h : c.Quiet) : c.Ready := fun k r hr => ⟨(h k r hr).pending, (h k r hr).reachable⟩

/-- The replica of a host was in the first cluster, and its pool has grown since. -/
def Queued (c : Cluster) (submitted : Digest → Prop) (k : ReplicaId) (s : Replica) : Prop :=
  ∃ r, c.replica? k = some r ∧ r.Queues submitted s

theorem Queued.trans {s t : Replica} (h : Queued c submitted k s) (h' : s.Queues submitted t) :
    Queued c submitted k t := by
  obtain ⟨r, hr, hqueues⟩ := h
  exact ⟨r, hr, hqueues.trans h'⟩

theorem queued_self (c : Cluster) (submitted : Digest → Prop) : ∀ k s, c.replica? k = some s → Queued c submitted k s :=
  fun _ s hs => ⟨s, hs, .refl s _⟩

/-- A step in which the pools grow at most. -/
theorem evolves_of_queued (hrunning : ∀ k, (d.replica? k).isSome = (c.replica? k).isSome)
    (h : ∀ k s, d.replica? k = some s → Queued c submitted k s) : c.Evolves submitted d := by
  intro k r hr
  obtain ⟨s, hs⟩ : ∃ s, d.replica? k = some s := by
    rw [← Option.isSome_iff_exists, hrunning, hr, Option.isSome_some]
  obtain ⟨r', hr', hqueues⟩ := h k s hs
  rw [hr] at hr'
  cases hr'
  exact ⟨s, hs, Or.inl hqueues⟩

/-- **An unordered command** keeps what remembering a leader keeps. -/
theorem askLeader_invariant {P : ReplicaId → Replica → Prop}
    (hplain : ∀ e ∈ c.members.entries, ∃ host, e.2 = .replica host)
    (hobserve : ∀ k r leader, P k r → P k (r.observe leader)) (h : ∀ k r, c.replica? k = some r → P k r)
    (command : Bytes) :
    c.SameNet (c.askLeader command).2 ∧ ∀ k r, (c.askLeader command).2.replica? k = some r → P k r := by
  rcases askLeader_cases hplain command with heq | ⟨host, stamp, -, heq⟩
  · rw [heq]
    exact ⟨.refl c, h⟩
  · rw [heq]
    refine ⟨sameNet_updateReplica c host _ _, ?_⟩
    refine forall_updateReplica h (c.told .unordered command stamp) (fun r hr => ?_) []
    rw [told, Replica.deliver_unordered]
    exact hobserve host r _ hr

theorem evolves_request (hplain : c.Plain) {delivery : Delivery} {command : Bytes}
    (hgenuine : (Op.request delivery command).Genuine) :
    c.Evolves (Op.request delivery command).Submits (c.perform (.request delivery command)) := by
  cases delivery with
  | ordered =>
    obtain ⟨hnet, hqueued⟩ := order_invariant (P := Queued c (Message.Submits command)) hplain.members
      (fun k s nodes hs => hs.trans (s.queues_ordered hgenuine c.tick.stamp nodes))
      (queued_self c _)
    exact evolves_of_queued hnet.running hqueued
  | unordered =>
    obtain ⟨hnet, hqueued⟩ := askLeader_invariant hplain.members
      (fun k s leader (hs : Queued c (Op.request .unordered command).Submits k s) => hs.trans (.observe s _ leader))
      (queued_self c _) command
    exact evolves_of_queued hnet.running hqueued

/-- **An attempt to propose**: every replica rests or commits the same block. -/
theorem evolves_propose (hplain : c.Plain) (hquiet : c.Quiet) (host : ReplicaId) (hfits : (Op.propose host).Fits c) :
    c.Evolves submitted (c.propose host).2 := by
  rcases rests_or_opens hplain hquiet.ready host with hrests | ⟨r, b, hr, hsubmit, hopen, hpropose⟩
  · intro k s hs
    obtain ⟨t, ht, hrests⟩ := hrests k s hs
    exact ⟨t, ht, hrests.evolves (hquiet k s hs).pending⟩
  · have hproposal : c.proposal? host = some b := by
      rw [proposal?, hr, Option.bind_some, hsubmit]
    obtain ⟨hrunning, hduring⟩ := hopen.order_proposal hplain
    rw [hpropose]
    intro k s hs
    obtain ⟨t, ht, hends⟩ := During.settle hrunning hduring _ k s hs
    exact ⟨t, ht, hends.elim (fun h => h.evolves (hquiet k s hs).pending) fun h => Or.inr ⟨_, h, hfits b hproposal⟩⟩

/-- Whatever is not an attempt to propose lets the pools grow at most. -/
theorem evolves_of_ne_propose (hplain : c.Plain) (hgenuine : op.Genuine) (hop : ∀ host, op ≠ .propose host) :
    c.Evolves op.Submits (c.perform op) := by
  have hsame : ∀ d : Cluster, d.hosts = c.hosts → c.Evolves op.Submits d := by
    intro d hhosts
    have hreplica : ∀ k, d.replica? k = c.replica? k := fun k => by rw [replica?, replica?, hhosts]
    exact evolves_of_queued (fun k => by rw [hreplica]) fun k s hs => queued_self c _ k s (hreplica k ▸ hs)
  cases op with
  | request delivery command => exact evolves_request hplain hgenuine
  | register id host => exact hsame _ rfl
  | deregister id => exact hsame _ rfl
  | setLeader id => exact hsame _ rfl
  | observe host leader =>
    refine evolves_of_queued (sameNet_updateReplica c host (fun r => ((), r.observe leader)) ()).running ?_
    exact forall_updateReplica (queued_self c _) (fun r => ((), r.observe leader))
      (fun s hs => hs.trans (.observe s _ leader)) ()
  | propose host => exact absurd rfl (hop host)

/-- **An operation**: every replica evolves. -/
theorem evolves_perform (hplain : c.Plain) (hquiet : c.Quiet) (hgenuine : op.Genuine) (hfits : op.Fits c) :
    c.Evolves op.Submits (c.perform op) := by
  by_cases hpropose : ∃ host, op = .propose host
  · obtain ⟨host, rfl⟩ := hpropose
    exact evolves_propose hplain hquiet host hfits
  · exact evolves_of_ne_propose hplain hgenuine fun host he => hpropose ⟨host, he⟩

/-! ### Runs -/

/-- Clusters that are made by starting replicas, in lone directories or with names of files that lead on. -/
inductive Started : Cluster → Prop where
  | empty (leader : ReplicaId) : Started (empty leader)
  | start {c : Cluster} (h : Started c) (id : ReplicaId) (settings : Settings) (dir : Directory)
      (hdir : settings.storage.naming.LeadsOn ∨ dir.Lone) : Started (c.start id settings dir).2

theorem Started.plain (h : c.Started) : c.Plain := by
  induction h with
  | empty leader => exact plain_empty leader
  | start _ id settings dir _ ih => exact ih.start id settings dir

theorem Started.quiet (h : c.Started) : c.Quiet := by
  induction h with
  | empty leader => exact fun _ _ h => by cases h
  | start _ id settings dir hdir ih =>
    refine forall_start ih id settings dir fun r dir' hstart => ?_
    obtain ⟨-, hpool, hpending⟩ := Replica.start_eq_ok hstart
    exact ⟨hpending, hpool ▸ .empty, Replica.sound_of_start hstart hdir⟩

theorem Started.startAll (h : c.Started) (settings : Settings) (hosts : List ReplicaId) :
    (c.startAll settings hosts).Started := by
  induction hosts generalizing c with
  | nil => exact h
  | cons k hosts ih => exact ih (h.start k settings _ (Or.inr (Directory.lone_empty _ _)))

/-- What a client submits in step `i` of the run. -/
def SubmitsAt (ops : List Op) (i : Nat) (hash : Digest) : Prop := ∃ op, ops[i]? = some op ∧ op.Submits hash

/-- Every block that is proposed in a run has a record whose length fits. -/
def RunFits (c : Cluster) (ops : List Op) : Prop := ∀ i : Fin ops.length, ops[i].Fits (c.stage ops i)

instance (c : Cluster) (ops : List Op) : Decidable (c.RunFits ops) :=
  inferInstanceAs (Decidable (∀ i : Fin ops.length, ops[i].Fits (c.stage ops i)))

section

variable (hstarted : c.Started) (hgenuine : ∀ op ∈ ops, op.Genuine) (hfits : c.RunFits ops)

include hstarted hgenuine hfits

/-- **One step of a run**: every replica evolves. -/
theorem evolves_stage (hquiet : (c.stage ops i).Quiet) :
    (c.stage ops i).Evolves (SubmitsAt ops i) (c.stage ops (i + 1)) := by
  cases hop : ops[i]? with
  | none =>
    have hlength : ops.length ≤ i := List.getElem?_eq_none_iff.mp hop
    rw [stage_of_length_le hlength, stage_of_length_le (Nat.le_succ_of_le hlength)]
    exact fun k r hr => ⟨r, hr, Or.inl (.refl r _)⟩
  | some op =>
    have hsubmits : SubmitsAt ops i = op.Submits := by
      funext hash
      simp [SubmitsAt, hop]
    rw [hsubmits, stage_succ hop]
    obtain ⟨hi, rfl⟩ := List.getElem?_eq_some_iff.mp hop
    exact evolves_perform (hstarted.plain.run _) hquiet (hgenuine _ (List.getElem_mem hi)) (hfits ⟨i, hi⟩)

/-- **Along a run** all replicas are quiet. -/
theorem quiet_stage (i : Nat) : (c.stage ops i).Quiet := by
  induction i with
  | zero => exact hstarted.quiet
  | succ i ih =>
    intro k s hs
    obtain ⟨r, hr⟩ : ∃ r, (c.stage ops i).replica? k = some r := by
      rw [← Option.isSome_iff_exists, ← (follows_stage hstarted.plain hgenuine i 1).running, hs, Option.isSome_some]
    obtain ⟨s', hs', hevolves⟩ := evolves_stage hstarted hgenuine hfits ih k r hr
    rw [hs] at hs'
    cases hs'
    exact hevolves.quiet (ih k r hr)

/-- **No transaction is lost.** Let replicas be started over empty directories, or over any directories with names
of files that lead on, and run on requests of clients and proposals of replicas whose records fit. A transaction
that a replica reports as pending or on its ledger is never unknown to it later, and one that it reports to be in
a block stays in the block of that height until it is submitted again. -/
theorem status_stage (hij : i ≤ j) {r : Replica} (hr : (c.stage ops i).replica? k = some r) (hash : Digest) :
    ∃ s, (c.stage ops j).replica? k = some s ∧ (r.status hash ≠ .unknown → s.status hash ≠ .unknown) ∧
      ∀ height, r.status hash = .inBlock height → (∀ n, i ≤ n → n < j → ¬ SubmitsAt ops n hash) →
        s.status hash = .inBlock height := by
  induction hij with
  | refl => exact ⟨r, hr, fun h => h, fun _ h _ => h⟩
  | @step j hij ih =>
    obtain ⟨s, hs, hknown, hstays⟩ := ih
    have hquiet := quiet_stage hstarted hgenuine hfits j
    obtain ⟨t, ht, hevolves⟩ := evolves_stage hstarted hgenuine hfits hquiet k s hs
    obtain ⟨hknown', hstays'⟩ := hevolves.status (hquiet k s hs) hash
    refine ⟨t, ht, fun h => hknown' (hknown h), fun height h hno => ?_⟩
    have hbefore := hstays height h fun n hi hn => hno n hi (Nat.lt_succ_of_lt hn)
    exact hstays' height hbefore (hno j hij (Nat.lt_succ_self j))

end

/-- Two replicas over empty directories that propose blocks of one transaction. -/
def newPair : Cluster := (empty 0).startAll { Settings.standard with proposals := ⟨1, 1⟩ } [0, 1]

/-- The replicas become members, a client submits a transaction, a member proposes it, and the other leads. -/
def newPairOps : List Op := [.register 0 0, .register 1 1, submission, .propose 0, .setLeader 1]

/-- The other member has the transaction pending after the third step, and after the fourth in a block, where it
stays. -/
theorem status_stage_newPair : ∃ r s t, (newPair.stage newPairOps 3).replica? 1 = some r ∧
    (newPair.stage newPairOps 4).replica? 1 = some s ∧ (newPair.stage newPairOps 5).replica? 1 = some t ∧
    r.status Block.genesisTransaction.hash = .inPool ∧ t.status Block.genesisTransaction.hash ≠ .unknown ∧
    s.status Block.genesisTransaction.hash = .inBlock 1 ∧ t.status Block.genesisTransaction.hash = .inBlock 1 := by
  have hstarted : newPair.Started := (Started.empty 0).startAll _ _
  have hgenuine : ∀ op ∈ newPairOps, op.Genuine := by
    simp only [newPairOps, List.forall_mem_cons]
    exact ⟨trivial, trivial, genuine_submission, trivial, trivial, List.forall_mem_nil _⟩
  have hfits : newPair.RunFits newPairOps := by decide +kernel
  have hpooled : ((newPair.stage newPairOps 3).replica? 1).map (·.status Block.genesisTransaction.hash) =
      some .inPool := by decide +kernel
  have hstored : ((newPair.stage newPairOps 4).replica? 1).map (·.status Block.genesisTransaction.hash) =
      some (.inBlock 1) := by decide +kernel
  obtain ⟨r, hr, hpool⟩ := Option.map_eq_some_iff.mp hpooled
  obtain ⟨s, hs, hblock⟩ := Option.map_eq_some_iff.mp hstored
  obtain ⟨t, ht, hknown, -⟩ :=
    status_stage hstarted hgenuine hfits (i := 3) (j := 5) (by decide) hr Block.genesisTransaction.hash
  obtain ⟨t', ht', -, hstays⟩ :=
    status_stage hstarted hgenuine hfits (i := 4) (j := 5) (by decide) hs Block.genesisTransaction.hash
  rw [ht] at ht'
  cases ht'
  refine ⟨r, s, t, hr, hs, ht, hpool, hknown (by rw [hpool]; decide), hblock, hstays 1 hblock fun n hle hlt => ?_⟩
  obtain rfl : n = 4 := by omega
  rintro ⟨op, hop, hsubmits⟩
  cases hop
  exact hsubmits

end Cluster

end ReplicatedLedger
