import ReplicatedLedger.Proofs.Cluster.Retention
import ReplicatedLedger.Proofs.Sync.Transfer

/-! # What a catch-up does to a cluster

A replica that catches up asks the leader, stores what the leader's server sends, and loads its ledger anew. Apart
from its ledger nothing changes, and the others keep theirs (`refills_catchUp`). Nor does a block come from
nowhere: as long as no client submits a transaction of which nothing is in any pool, ledger or directory of a cluster
(`Lacks`), nothing of it will be (`Lacks.perform`, `Lacks.catchUp`). -/

namespace ReplicatedLedger

namespace Replica

/-- Nothing differs but the ledger, and who is thought to lead. -/
structure Refills (r s : Replica) : Prop where
  id : s.id = r.id
  pool : s.pool = r.pool
  pending : s.pending = r.pending

/-- What an operation does to a replica, whatever the lengths of records: it queues, or commits a block. -/
def Moves (r : Replica) (submitted : Digest → Prop) (s : Replica) : Prop :=
  r.Queues submitted s ∨ ∃ b, r.Commits b s

/-- Neither the pool nor the ledger has anything of the transaction. -/
structure Lacks (hash : Digest) (r : Replica) : Prop where
  pool : r.pool.contains hash = false
  ledger : r.ledger.HoldsOnly fun b => b.contains hash = false

variable {r s : Replica} {submitted : Digest → Prop} {hash : Digest}

theorem Evolves.moves (h : r.Evolves submitted s) : r.Moves submitted s :=
  h.imp_right fun ⟨b, hcommits, _⟩ => ⟨b, hcommits⟩

/-- **A transaction that is nowhere** does not come to a replica unless it is submitted. -/
theorem Moves.lacks (h : r.Moves submitted s) (hr : r.Lacks hash) (hno : ¬ submitted hash) : s.Lacks hash := by
  rcases h with hqueues | ⟨b, hcommits⟩
  · refine ⟨Bool.eq_false_iff.mpr fun hin => ?_, hr.ledger.keeps hqueues.ledger⟩
    rcases hqueues.fresh hash hin with hold | hnew
    · rw [hr.pool] at hold
      cases hold
    · exact hno hnew
  · refine ⟨by rw [hcommits.pool, hr.pool, Bool.false_and], ?_⟩
    -- what is committed was pending
    refine hr.ledger.gains hcommits.ledger (Bool.eq_false_iff.mpr fun hin => ?_)
    have hheld := hcommits.held hash hin
    rw [hr.pool] at hheld
    cases hheld

end Replica

namespace Cluster

variable {c d : Cluster} {host k : ReplicaId} {op : Op} {hash : Digest}

/-! ### Catching up -/

/-- What a replica fetches from the leader when it catches up. -/
def fetched (c : Cluster) (r : Replica) : Sync.Fetched :=
  (r.syncClient.fromLeader c listener r.ledger.store (r.ledger.tipHeight + 1)).1

/-- The cluster after the replica of the host has stored what it fetched. -/
def refetched (c : Cluster) (host : ReplicaId) (r : Replica) : Cluster :=
  ((Sync.leaderTip c).2.updateReplica host
    (fun s => ((c.fetched r).result, s.withStore (c.fetched r).store)) (c.fetched r).result).2

theorem syncFromLeader_eq {r : Replica} (hr : c.replica? host = some r) :
    c.syncFromLeader host (r.ledger.tipHeight + 1) = ((c.fetched r).result, c.refetched host r) := by
  have hnet := r.syncClient.net_fromLeader c listener r.ledger.store (r.ledger.tipHeight + 1)
  have hsync : c.syncFromLeader host (r.ledger.tipHeight + 1) = (Sync.leaderTip c).2.updateReplica host
      (fun s => ((c.fetched r).result, s.withStore (c.fetched r).store)) (c.fetched r).result := by
    simp only [syncFromLeader, hr, hnet]
    rfl
  have hresult : ((Sync.leaderTip c).2.updateReplica host
      (fun s => ((c.fetched r).result, s.withStore (c.fetched r).store)) (c.fetched r).result).1 =
        (c.fetched r).result := by
    unfold updateReplica
    split <;> rfl
  rw [hsync]
  exact Prod.ext hresult rfl

/-- The replica stores what it fetches, and then loads its ledger anew if all came that it asked for. -/
theorem catchUp_eq {r : Replica} (hr : c.replica? host = some r) : c.catchUp host =
    match (c.fetched r).result with
    | .error _ => c.refetched host r
    | .ok n => if n = 0 then c.refetched host r else ((c.refetched host r).reload host).2 := by
  simp only [catchUp, hr, syncFromLeader_eq hr]
  cases (c.fetched r).result <;> rfl

/-- **A catch-up** keeps what asking the leader keeps, if it is kept when the replica stores what it fetched and when it
loads its ledger anew. -/
theorem catchUp_keeps {I : Cluster → Prop} (hask : ∀ d command, I d → I (d.askLeader command).2)
    (hstore : ∀ r, c.replica? host = some r → I (Sync.leaderTip c).2 → I (c.refetched host r))
    (hreload : ∀ d, I d → I (d.reload host).2) (h : I c) : I (c.catchUp host) := by
  cases hr : c.replica? host with
  | none =>
    have heq : c.catchUp host = c := by simp only [catchUp, hr]
    rwa [heq]
  | some r =>
    have hrefetched : I (c.refetched host r) := hstore r hr (Sync.leaderTip_invariant hask h)
    rw [catchUp_eq hr]
    split
    · exact hrefetched
    · split_ifs
      · exact hrefetched
      · exact hreload _ hrefetched

section

variable {P : ReplicaId → Replica → Prop} (hplain : ∀ e ∈ c.members.entries, ∃ host, e.2 = .replica host)
  (hobserve : ∀ k r leader, P k r → P k (r.observe leader))
  (h : ∀ k r, c.replica? k = some r → P k r)

include hplain hobserve

/-- To ask the leader for a command is one more step that keeps it. -/
theorem askLeader_step (d : Cluster) (command : Bytes)
    (hd : c.SameNet d ∧ ∀ k r, d.replica? k = some r → P k r) :
    c.SameNet (d.askLeader command).2 ∧ ∀ k r, (d.askLeader command).2.replica? k = some r → P k r := by
  obtain ⟨hnet, hreplicas⟩ := hd
  obtain ⟨hnet', hreplicas'⟩ := askLeader_invariant (hnet.members ▸ hplain) hobserve hreplicas command
  exact ⟨hnet.trans hnet', hreplicas'⟩

include h in
theorem leaderTip_invariant :
    c.SameNet (Sync.leaderTip c).2 ∧ ∀ k r, (Sync.leaderTip c).2.replica? k = some r → P k r :=
  Sync.leaderTip_invariant (I := fun d : Cluster => c.SameNet d ∧ ∀ k r, d.replica? k = some r → P k r)
    (askLeader_step hplain hobserve) ⟨.refl c, h⟩

include h in
/-- **A catch-up** keeps what the three things keep that it does to replicas: they remember a leader, and the one that
catches up gets another store and loads its ledger anew. -/
theorem catchUp_invariant
    (hstore : ∀ r s, c.replica? host = some r → P host s → P host (s.withStore (c.fetched r).store))
    (hreload : ∀ s, P host s → P host { s with ledger := s.ledger.reload.2 }) :
    c.SameNet (c.catchUp host) ∧ ∀ k r, (c.catchUp host).replica? k = some r → P k r := by
  refine catchUp_keeps (I := fun d : Cluster => c.SameNet d ∧ ∀ k r, d.replica? k = some r → P k r)
    (askLeader_step hplain hobserve) (fun r hr hd => ?_) (fun d hd => ?_) ⟨.refl c, h⟩
  · exact ⟨hd.1.trans (sameNet_updateReplica _ _ _ _),
      forall_updateReplica hd.2 _ (fun s hs => hstore r s hr hs) _⟩
  · exact ⟨hd.1.trans (sameNet_updateReplica _ _ _ _), forall_updateReplica hd.2 _ (fun s hs => hreload s hs) _⟩

end

/-- **A catch-up** changes the ledger of the replica that catches up, and no pool. -/
theorem refills_catchUp (hplain : ∀ e ∈ c.members.entries, ∃ host, e.2 = .replica host) (host : ReplicaId) :
    c.SameNet (c.catchUp host) ∧ ∀ k s, (c.catchUp host).replica? k = some s →
      ∃ r, c.replica? k = some r ∧ r.Refills s ∧ (k ≠ host → s.ledger = r.ledger) := by
  refine catchUp_invariant hplain ?_ (fun k r hr => ⟨r, hr, ⟨rfl, rfl, rfl⟩, fun _ => rfl⟩) ?_ ?_
  · rintro k s leader ⟨r, hr, hrefills, hledger⟩
    exact ⟨r, hr, ⟨hrefills.id, hrefills.pool, hrefills.pending⟩, hledger⟩
  · rintro - s - ⟨r, hr, hrefills, -⟩
    exact ⟨r, hr, ⟨hrefills.id, hrefills.pool, hrefills.pending⟩, fun hne => absurd rfl hne⟩
  · rintro s ⟨r, hr, hrefills, -⟩
    exact ⟨r, hr, ⟨hrefills.id, hrefills.pool, hrefills.pending⟩, fun hne => absurd rfl hne⟩

theorem Plain.catchUp (h : c.Plain) (host : ReplicaId) : (c.catchUp host).Plain := by
  obtain ⟨hnet, hreplicas⟩ := refills_catchUp h.members host
  refine ⟨hnet.members ▸ h.members, fun k s hs => ?_⟩
  obtain ⟨r, hr, hrefills, -⟩ := hreplicas k s hs
  exact hrefills.id.trans (h.ids k r hr)

theorem Ready.catchUp (h : c.Ready) (hplain : c.Plain) (host : ReplicaId) : (c.catchUp host).Ready := by
  intro k s hs
  obtain ⟨r, hr, hrefills, -⟩ := (refills_catchUp hplain.members host).2 k s hs
  rw [hrefills.pool, hrefills.pending]
  exact h k r hr

/-! ### Operations -/

/-- **An operation**: every replica queues, or commits a block. -/
theorem moves_perform (hplain : c.Plain) (hready : c.Ready) (hgenuine : op.Genuine) :
    ∀ k s, (c.perform op).replica? k = some s → ∃ r, c.replica? k = some r ∧ r.Moves op.Submits s := by
  have hforward : ∀ k r, c.replica? k = some r →
      ∃ s, (c.perform op).replica? k = some s ∧ r.Moves op.Submits s := by
    intro k r hr
    by_cases hpropose : ∃ host, op = .propose host
    · obtain ⟨host, rfl⟩ := hpropose
      obtain ⟨b, hends⟩ := ends_propose hplain hready host
      obtain ⟨s, hs, hrests | hcommits⟩ := hends k r hr
      · exact ⟨s, hs, (hrests.evolves (hready k r hr).1).moves⟩
      · exact ⟨s, hs, Or.inr ⟨b, hcommits⟩⟩
    · obtain ⟨s, hs, hevolves⟩ := evolves_of_ne_propose hplain hgenuine (fun host he => hpropose ⟨host, he⟩) k r hr
      exact ⟨s, hs, hevolves.moves⟩
  intro k s hs
  obtain ⟨r, hr⟩ : ∃ r, c.replica? k = some r := by
    rw [← Option.isSome_iff_exists, ← (steady_perform hplain op).2.1, hs, Option.isSome_some]
  obtain ⟨s', hs', hmoves⟩ := hforward k r hr
  rw [hs] at hs'
  cases hs'
  exact ⟨r, hr, hmoves⟩

theorem Ready.perform (h : c.Ready) (hplain : c.Plain) (hgenuine : op.Genuine) : (c.perform op).Ready := by
  intro k s hs
  obtain ⟨r, hr, hqueues | ⟨b, hcommits⟩⟩ := moves_perform hplain h hgenuine k s hs
  · exact ⟨hqueues.pending.trans (h k r hr).1, hqueues.reachable (h k r hr).2⟩
  · exact ⟨hcommits.pending, hcommits.reachable⟩

/-! ### Transactions that are nowhere -/

/-- No pool, ledger or directory has anything of the transaction, those of hosts without a replica included. -/
structure Lacks (hash : Digest) (c : Cluster) : Prop where
  replicas : ∀ k r, c.replica? k = some r → r.Lacks hash
  stopped : ∀ k settings dir, c.hosts.get? k = some (.stopped settings dir) →
    dir.HoldsOnly fun b => b.contains hash = false

theorem lacks_empty (hash : Digest) (leader : ReplicaId) : (empty leader).Lacks hash :=
  ⟨fun _ _ h => (by cases h), fun _ _ _ h => (by cases h)⟩

theorem Lacks.congr (h : c.Lacks hash) (hrunning : ∀ k, (d.replica? k).isSome = (c.replica? k).isSome)
    (hstopped : ∀ k, c.replica? k = none → d.hosts.get? k = c.hosts.get? k)
    (hreplicas : ∀ k s, d.replica? k = some s → s.Lacks hash) : d.Lacks hash := by
  refine ⟨hreplicas, fun k settings dir hget => ?_⟩
  have hnone : c.replica? k = none := by
    rw [← Option.not_isSome_iff_eq_none, ← hrunning, replica?, hget]
    exact Bool.false_ne_true
  exact h.stopped k settings dir (hstopped k hnone ▸ hget)

/-- What is served has nothing of the transaction either. -/
theorem Lacks.servesOnly (h : c.Lacks hash) {address : String} {answer : Sync.Listener}
    (hanswer : c.listener address = .ok answer) : answer.ServesOnly fun b => b.contains hash = false := by
  unfold listener at hanswer
  split at hanswer
  · split at hanswer
    · cases hanswer
    · rename_i x hx
      obtain ⟨k, -, hget⟩ := Option.bind_eq_some_iff.mp hx
      cases hanswer
      refine fun request => ⟨x.store, ?_, rfl⟩
      cases x with
      | running r => exact (h.replicas k r (by rw [replica?, hget]; rfl)).ledger.stored
      | stopped settings dir => exact h.stopped k settings dir hget
  · cases hanswer

/-- **An operation** that does not submit the transaction. -/
theorem Lacks.perform (h : c.Lacks hash) (hplain : c.Plain) (hready : c.Ready) (hgenuine : op.Genuine)
    (hno : ¬ op.Submits hash) : (c.perform op).Lacks hash := by
  obtain ⟨-, hrunning, hstopped⟩ := steady_perform hplain op
  refine h.congr hrunning hstopped fun k s hs => ?_
  obtain ⟨r, hr, hmoves⟩ := moves_perform hplain hready hgenuine k s hs
  exact hmoves.lacks (h.replicas k r hr) hno

/-- **A catch-up** brings no more than what is served. -/
theorem Lacks.catchUp (h : c.Lacks hash) (hplain : c.Plain) (hgenesis : Block.genesis.contains hash = false)
    (host : ReplicaId) : (c.catchUp host).Lacks hash := by
  have hobserve : ∀ (k : ReplicaId) (r : Replica) leader, r.Lacks hash → (r.observe leader).Lacks hash :=
    fun _ _ _ hr => ⟨hr.pool, hr.ledger⟩
  obtain ⟨hasked, hserved⟩ := leaderTip_invariant hplain.members hobserve h.replicas
  have hleader : (Sync.leaderTip c).2.Lacks hash := h.congr hasked.running hasked.stopped hserved
  have hfetched : ∀ r, c.replica? host = some r → (c.fetched r).store.dir.HoldsOnly fun b => b.contains hash = false :=
    fun r hr => Sync.Client.holdsOnly_fromLeader _ c listener (h.replicas host r hr).ledger.stored
      (fun _ _ hanswer => hleader.servesOnly hanswer) _
  obtain ⟨hnet, hreplicas⟩ := catchUp_invariant hplain.members hobserve h.replicas
    (fun r s hr hs => ⟨hs.pool, hfetched r hr, hs.ledger.window⟩) fun s hs => ⟨hs.pool, hs.ledger.reload hgenesis⟩
  exact h.congr hnet.running hnet.stopped hreplicas

/-- **A replica that starts** over a directory without the transaction. -/
theorem Lacks.start (h : c.Lacks hash) (hgenesis : Block.genesis.contains hash = false) (id : ReplicaId)
    (settings : Settings) {dir : Directory} (hdir : dir.HoldsOnly fun b => b.contains hash = false) :
    (c.start id settings dir).2.Lacks hash := by
  obtain ⟨hleft, hopened⟩ :=
    Ledger.holdsOnly_openIn hdir hgenesis settings.storage.naming settings.storage.budget
  refine ⟨forall_start h.replicas id settings dir fun r dir' hstart => ?_, fun k settings' dir' hget => ?_⟩
  · obtain ⟨-, hpool, -⟩ := Replica.start_eq_ok hstart
    exact ⟨hpool ▸ rfl, hopened r.ledger (Replica.ledger_of_start hstart)⟩
  · -- a replica that could not start leaves the directory behind
    have hstart : (Replica.start id settings c.leader dir).2.HoldsOnly fun b => b.contains hash = false := by
      unfold Replica.start
      cases settings.fault? with
      | some fault => exact hdir
      | none =>
        dsimp only
        cases hopen : Ledger.openIn settings.storage.naming settings.storage.budget dir with
        | mk result left =>
          rw [hopen] at hleft
          cases result <;> exact hleft
    unfold Cluster.start at hget
    split at hget
    · rename_i hfailed
      rw [setHost, SortedMap.get?_insert] at hget
      split_ifs at hget
      · cases hget
        rw [hfailed] at hstart
        exact hstart
      · exact h.stopped k settings' dir' hget
    · rw [setReplica, setHost, SortedMap.get?_insert] at hget
      split_ifs at hget
      · cases hget
      · exact h.stopped k settings' dir' hget

end Cluster

end ReplicatedLedger
