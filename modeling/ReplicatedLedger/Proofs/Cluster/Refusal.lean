import ReplicatedLedger.Proofs.Cluster.Lockstep
import ReplicatedLedger.Proofs.Pool.Order

/-! # Refused proposals

The proposal of a replica that wrongly believes that it leads is refused by all, whatever its block is
(`deliver_stale`), and the replica puts its batch back (`Returns`). This sorts its queue by timestamp, while the
other replicas keep theirs in the order of arrival (`Refused`). If the queue was in the order of its timestamps all
replicas are as before, and the leader's next proposal is committed by all (`queue_refused`). -/

namespace ReplicatedLedger

namespace Replica

variable {r s t : Replica} {b : Block} {sender : ReplicaId} {stamp : Stamp}

/-! ### What becomes of a replica -/

/-- **A proposal of a replica that does not lead** says no more than who leads, even if its block cannot be read. -/
theorem deliver_stale (hstale : sender ≠ stamp.leader) (r : Replica) (b : Block) (nodes : Nat) :
    (r.deliver .ordered (Message.proposal sender b).encode stamp nodes).2 = r.observe stamp.leader := by
  unfold deliver
  cases hdecode : Message.decode (Message.proposal sender b).encode with
  | error e => rfl
  | ok message =>
    obtain rfl := (Message.eq_of_decode_proposal hdecode).1
    dsimp only [handle, vote]
    rw [if_pos hstale]

/-- The replica as it was, but for the order of its pool and for who leads: it took a full batch and put it back. -/
structure Returns (r s : Replica) : Prop where
  id : s.id = r.id
  settings : s.settings = r.settings
  ledger : s.ledger = r.ledger
  pending : s.pending = none
  full : r.settings.proposals.batch ≤ r.pool.size
  pool : ∃ ts : List Transaction, ts.Perm (r.pool.queue.take r.settings.proposals.batch) ∧
    s.pool = (r.putBack ts).pool

section

variable (h : r.Returns s) (hr : r.pool.Reachable)

include h hr

theorem Returns.reachable : s.pool.Reachable := by
  obtain ⟨ts, -, hpool⟩ := h.pool
  exact hpool ▸ (hr.take _).requeue ts

theorem Returns.perm : s.pool.queue.Perm r.pool.queue := by
  obtain ⟨ts, hts, hpool⟩ := h.pool
  rw [hpool]
  exact Pool.requeue_take_perm hr.consistent h.full hts

theorem Returns.queue (hunshared : r.pool.Unshared r.settings.proposals.batch) :
    s.pool.queue = r.pool.sort.queue := by
  obtain ⟨ts, hts, hpool⟩ := h.pool
  rw [hpool]
  exact Pool.queue_requeue_take hr.consistent h.full hts hunshared

end

theorem Returns.inOrder (h : r.Returns s) : Pool.InOrder s.pool.queue := by
  obtain ⟨ts, -, hpool⟩ := h.pool
  rw [hpool]
  exact Pool.inOrder_sort _

theorem Returns.alike (h : r.Returns s) (hqueue : s.pool.queue = r.pool.queue) : r.Alike s where
  batch := by rw [h.settings]
  maxSize := by rw [h.settings]
  version := by rw [h.settings]
  queue := hqueue
  chain height := by rw [h.ledger]

theorem Hears.alike (h : r.Hears s) : r.Alike s := by
  obtain ⟨_, rfl⟩ := h
  exact ⟨rfl, rfl, rfl, rfl, fun _ => rfl⟩

/-- A replica puts back the batch of an unstamped candidate, whatever the answer is. -/
theorem returns_settleProposal (hr : r.pool.Reachable) (hb : r.Builds b) (hs : (r.withhold b).Hears s)
    (answer : Except SubstrateError Bytes) : r.Returns (s.settleProposal answer).2 := by
  obtain ⟨leader, rfl⟩ := hs
  have hunstamped : (accepts answer && false) ≠ true := by rw [Bool.and_false]; exact Bool.false_ne_true
  have hperm : b.ordered.Perm (r.pool.queue.take r.settings.proposals.batch) :=
    ordered_candidate_perm (Pool.nodup_map_hash_take hr.consistent _) hb.eq_ok
  have hsettle : (((r.withhold b).observe leader).settleProposal answer).2 =
      ((r.withhold b).observe leader).giveBack ⟨b, false⟩ r.ledger := by
    unfold settleProposal withhold
    dsimp only [Replica.observe]
    rw [if_neg hunstamped]
    rfl
  rw [hsettle]
  exact ⟨rfl, rfl, rfl, rfl, hb.full, b.ordered, hperm, rfl⟩

end Replica

namespace Cluster

variable {c d : Cluster} {host k : ReplicaId} {r : Replica} {batch : Nat}

/-! ### What becomes of a cluster -/

/-- The cluster after the proposal of a replica that does not lead was refused: the replica has put its batch back,
and the others have heard who leads, if there was a block to propose. -/
structure Refused (c : Cluster) (host : ReplicaId) (r : Replica) (d : Cluster) : Prop where
  net : c.SameNet d ∨ c.tick.SameNet d
  proposer : ∃ s, d.replica? host = some s ∧ r.Returns s
  others : ∀ k s, k ≠ host → d.replica? k = some s → ∃ s₀, c.replica? k = some s₀ ∧ s₀.Hears s
  told : ∀ b, r.candidate (r.pool.queue.take r.settings.proposals.batch) = .ok b →
    ∀ k s, k ≠ host → c.Present k → d.replica? k = some s → s.lastLeader = c.leader

theorem refused_conclude (hplain : c.Plain) (hhost : host ≠ c.leader) (hr : c.replica? host = some r)
    (hreachable : r.pool.Reachable) {b : Block} (hb : r.Builds b) : c.Refused host r
      ((c.setReplica host (r.withhold b)).conclude host (Message.proposal host b).encode).2 := by
  have hnet := sameNet_setReplica hr (r.withhold b)
  have hother : ∀ k, k ≠ host → (c.setReplica host (r.withhold b)).replica? k = c.replica? k := fun k hk => by
    rw [replica?_setReplica, if_neg hk]
  have hown : (c.setReplica host (r.withhold b)).replica? host = some (r.withhold b) := by
    rw [replica?_setReplica, if_pos rfl]
  have hstale : host ≠ (c.setReplica host (r.withhold b)).tick.stamp.leader := hhost
  have hleader : (c.setReplica host (r.withhold b)).tick.stamp.leader = c.leader := rfl
  generalize c.setReplica host (r.withhold b) = d at hnet hother hown hstale hleader
  have hmembers : ∀ e ∈ d.members.entries, ∃ host, e.2 = .replica host := hnet.members ▸ hplain.members
  have hstep : ∀ k s nodes, (∃ s₀, d.replica? k = some s₀ ∧ s₀.Hears s) → ∃ s₀, d.replica? k = some s₀ ∧
      s₀.Hears (s.deliver .ordered (Message.proposal host b).encode d.tick.stamp nodes).2 :=
    fun k s nodes ⟨s₀, hs₀, hhears⟩ => ⟨s₀, hs₀, Replica.deliver_stale hstale s b nodes ▸ hhears.observe _⟩
  obtain ⟨hordered, hheard⟩ := order_invariant hmembers hstep fun k s hs => ⟨s, hs, .refl s⟩
  obtain ⟨s, hs⟩ : ∃ s, (d.order (Message.proposal host b).encode).2.replica? host = some s := by
    rw [← Option.isSome_iff_exists, hordered.running]
    exact Option.isSome_iff_exists.mpr ⟨_, hown⟩
  obtain ⟨s₀, hs₀, hhears⟩ := hheard host s hs
  rw [hown] at hs₀
  cases hs₀
  rw [conclude, updateReplica_of_some hs]
  refine ⟨Or.inr (hnet.tick.trans (hordered.trans (sameNet_setReplica hs _))),
    ⟨_, ?_, Replica.returns_settleProposal hreachable hb hhears (d.order (Message.proposal host b).encode).1⟩, ?_, ?_⟩
  · rw [replica?_setReplica, if_pos rfl]
  · intro k s hk hs
    rw [replica?_setReplica, if_neg hk] at hs
    obtain ⟨s₀, hs₀, hhears⟩ := hheard k s hs
    exact ⟨s₀, hother k hk ▸ hs₀, hhears⟩
  · -- all that are there were told
    intro _ _ k s hk hpresent hs
    rw [replica?_setReplica, if_neg hk] at hs
    have hlive : .replica k ∈ d.live.map Prod.snd := (present_congr (Or.inl hnet) k).mpr hpresent
    rw [order_of_mem hlive, tellLive] at hs
    have htold : ∀ s : Replica, ∀ nodes, (s.deliver .ordered (Message.proposal host b).encode
        d.tick.stamp nodes).2.lastLeader = c.leader := fun s nodes => by
      rw [Replica.deliver_stale hstale, ← hleader]
      rfl
    exact forall_tellAll_of_mem (P := fun _ => True) (Q := fun s => s.lastLeader = c.leader)
      (members_of_live hmembers) (fun s nodes _ => htold s nodes) (fun s nodes _ => htold s nodes) hlive
      (fun _ _ => trivial) s hs

/-- **A refused proposal** of a replica that does not lead. -/
theorem refused_propose (hplain : c.Plain) (hready : c.Ready) (hhost : host ≠ c.leader)
    (hr : c.replica? host = some r) (hpositive : 0 < r.settings.proposals.batch) (hleads : r.lastLeader = host)
    {n : Nat} (hrefused : (c.propose host).1 = .rejected n) : c.Refused host r (c.propose host).2 := by
  have hid : r.id = host := hplain.ids host r hr
  obtain ⟨hnone, hreachable⟩ := hready host r hr
  rcases Nat.lt_or_ge r.pool.size r.settings.proposals.batch with hlt | hfull
  · have hopen := Replica.openProposal_of_lt (hleads.trans hid.symm) hnone hlt
    simp only [propose, openProposal, updateReplica_of_some hr, hopen] at hrefused
    cases hrefused
  · cases hok : r.candidate (r.pool.queue.take r.settings.proposals.batch) with
    | error e =>
      have hopen := Replica.openProposal_of_error (hleads.trans hid.symm) hnone hfull hok
      simp only [propose, openProposal, updateReplica_of_some hr, hopen]
      refine ⟨Or.inl (sameNet_setReplica hr _), ⟨_, by rw [replica?_setReplica, if_pos rfl], ?_⟩, ?_, ?_⟩
      · exact ⟨rfl, rfl, rfl, hnone, hfull, _, List.Perm.refl _, rfl⟩
      · intro k s hk hs
        rw [replica?_setReplica, if_neg hk] at hs
        exact ⟨s, hs, .refl s⟩
      · intro b hb
        rw [hok] at hb
        cases hb
    | ok b =>
      have hbuilds : r.Builds b := ⟨hnone, hpositive, hfull, hok⟩
      have hopen := hbuilds.openProposal (hleads.trans hid.symm)
      have hpropose : c.propose host =
          (c.setReplica host (r.withhold b)).conclude host (Message.proposal host b).encode := by
        simp only [propose, openProposal, updateReplica_of_some hr, hopen, conclude, hid]
      rw [hpropose]
      exact refused_conclude hplain hhost hr hreachable hbuilds

/-- If the replica has its queue again then all are in unison, as before. -/
theorem Refused.unison (h : c.Unison batch) (hr : c.replica? host = some r) (hd : c.Refused host r d)
    (hplain : d.Plain) (hrestored : ∀ s, d.replica? host = some s → s.pool.queue = r.pool.queue) : d.Unison batch := by
  obtain ⟨s, hs, hreturns⟩ := hd.proposer
  obtain ⟨-, hreachable⟩ := h.ready host r hr
  refine h.of_alike hplain fun k t ht => ?_
  by_cases hk : k = host
  · rw [hk, hs] at ht
    cases ht
    exact ⟨hreturns.pending, hreturns.reachable hreachable, host, r, hr, hreturns.alike (hrestored s hs)⟩
  · obtain ⟨t₀, ht₀, hhears⟩ := hd.others k t hk ht
    have halike := hhears.alike
    obtain ⟨_, rfl⟩ := hhears
    exact ⟨(h.ready k t₀ ht₀).1, (h.ready k t₀ ht₀).2, k, t₀, ht₀, halike⟩

/-- **The leader's next proposal**: if the replica has its queue again then all that are there commit a full batch. -/
theorem Refused.propose (h : c.Unison batch) (hhost : host ≠ c.leader) (hr : c.replica? host = some r)
    (hd : c.Refused host r d) (hunison : d.Unison batch) (hleader : c.Present c.leader) (hfull : batch ≤ r.pool.size)
    (hwrites : (Op.propose c.leader).Writes d) :
    ∃ b : Block, (d.propose c.leader).1 = .committed b.height b.count ∧
      b.height.toNat = r.ledger.tip.height.toNat + 1 ∧ b.count.toNat = batch ∧
      ∀ k t, c.Present k → (d.propose c.leader).2.replica? k = some t → t.ledger.tip = b := by
  have hsame : d.leader = c.leader := hd.net.elim SameNet.leader SameNet.leader
  have hpresent : d.Present d.leader := hsame ▸ (present_congr hd.net c.leader).mpr hleader
  obtain ⟨t, ht⟩ := hpresent.exists_replica
  have htalike : r.Alike t := by
    obtain ⟨t₀, ht₀, hhears⟩ := hd.others d.leader t (hsame ▸ hhost.symm) ht
    exact (h.alike _ _ r t₀ hr ht₀).trans hhears.alike
  have htbatch : t.settings.proposals.batch = batch := hunison.batch _ t ht
  have htfull : t.settings.proposals.batch ≤ t.pool.size := by
    rw [htbatch, Pool.size, htalike.queue]
    exact hfull
  rw [← hsame] at hwrites
  -- the replica had a block to propose, since the leader has one
  have hblock : ∃ b, r.candidate (r.pool.queue.take r.settings.proposals.batch) = .ok b := by
    have hlength := Replica.length_lt_of_recordLength (hwrites rfl t ht htfull).1
    rw [htalike.queue, htalike.batch] at hlength
    exact Replica.exists_candidate (Pool.nodup_map_hash_take (h.ready host r hr).2.consistent _) hlength r
  obtain ⟨b₀, hb₀⟩ := hblock
  have hleads : t.lastLeader = d.leader :=
    (hd.told b₀ hb₀ d.leader t (hsame ▸ hhost.symm) (hsame ▸ hleader) ht).trans hsame.symm
  obtain ⟨b, hb⟩ := hunison.exists_proposes hpresent ht hleads htfull hwrites
  obtain ⟨houtcome, hcommits, -⟩ := hb.unanimous.propose
  rw [← hsame]
  refine ⟨d.stamped b, houtcome, htalike.tip_eq ▸ hb.height, hb.count.trans htbatch, fun k u hk hu => ?_⟩
  have hkd : d.Present k := (present_congr hd.net k).mpr hk
  obtain ⟨s, hs⟩ := hkd.exists_replica
  rw [hcommits k s hkd hs] at hu
  cases hu
  exact (Ledger.gains_of_add (hb.unanimous.adds k s hkd hs)).tip_eq

/-- **A refused proposal does no harm to a queue in order.** In a cluster of replicas that are alike let one that
wrongly believes that it leads propose, and be refused. Then all have the same transactions pending as before, the
others in the same order, and the one in the order of their timestamps. If no timestamp of its batch is shared then its
queue is the old one, sorted, and so as before just if that was in order; and then the leader's next full batch is
committed by all that are there. -/
theorem queue_refused (h : c.Unison batch) (hhost : host ≠ c.leader) (hr : c.replica? host = some r)
    (hleads : r.lastLeader = host) {n : Nat} (hrefused : (c.propose host).1 = .rejected n) :
    ∃ s, (c.propose host).2.replica? host = some s ∧ s.pool.queue.Perm r.pool.queue ∧ Pool.InOrder s.pool.queue ∧
      (∀ k t, k ≠ host → (c.propose host).2.replica? k = some t → t.pool.queue = r.pool.queue) ∧
      (r.pool.Unshared batch → s.pool.queue = r.pool.sort.queue ∧
        (s.pool.queue = r.pool.queue ↔ Pool.InOrder r.pool.queue) ∧
        (Pool.InOrder r.pool.queue → c.Present c.leader → batch ≤ r.pool.size →
          (Op.propose c.leader).Writes (c.propose host).2 →
          ∃ b : Block, ((c.propose host).2.propose c.leader).1 = .committed b.height b.count ∧
            b.height.toNat = r.ledger.tip.height.toNat + 1 ∧ b.count.toNat = batch ∧
            ∀ k t, c.Present k → ((c.propose host).2.propose c.leader).2.replica? k = some t →
              t.ledger.tip = b)) := by
  have hbatch := h.batch host r hr
  obtain ⟨-, hreachable⟩ := h.ready host r hr
  have hd := refused_propose h.plain h.ready hhost hr (hbatch ▸ h.positive) hleads hrefused
  have hplain : (c.propose host).2.Plain := h.plain.perform (.propose host)
  obtain ⟨s, hs, hreturns⟩ := hd.proposer
  refine ⟨s, hs, hreturns.perm hreachable, hreturns.inOrder, fun k t hk ht => ?_, fun hunshared => ?_⟩
  · obtain ⟨t₀, ht₀, hhears⟩ := hd.others k t hk ht
    exact ((h.alike _ _ r t₀ hr ht₀).trans hhears.alike).queue
  · have hsorted : s.pool.queue = r.pool.sort.queue := hreturns.queue hreachable (hbatch ▸ hunshared)
    have hrestored : Pool.InOrder r.pool.queue → s.pool.queue = r.pool.queue := fun hinOrder =>
      hsorted.trans (Pool.queue_sort_of_inOrder hinOrder)
    refine ⟨hsorted, ⟨fun heq => heq ▸ hreturns.inOrder, hrestored⟩, fun hinOrder hleader hfull hwrites => ?_⟩
    have hunison := hd.unison h hr hplain fun s' hs' => by
      rw [hs] at hs'
      cases hs'
      exact hrestored hinOrder
    exact hd.propose h hhost hr hunison hleader hfull hwrites

/-! ### A pair of replicas -/

/-- Replicas stay in unison whoever is thought to lead. -/
theorem Unison.observe (h : c.Unison batch) (host leader : ReplicaId) :
    (c.perform (.observe host leader)).Unison batch := by
  have hd := h.plain.perform (.observe host leader)
  refine h.of_alike hd fun k s hs => ?_
  simp only [perform, replica?_updateReplica] at hs
  split_ifs at hs with hk
  · obtain ⟨r, hr, rfl⟩ := Option.map_eq_some_iff.mp hs
    exact ⟨(h.ready host r hr).1, (h.ready host r hr).2, host, r, hr, Replica.Hears.alike ⟨leader, rfl⟩⟩
  · exact ⟨(h.ready k s hs).1, (h.ready k s hs).2, k, s, hs, (Replica.Hears.refl s).alike⟩

/-- A client submits a transaction with the timestamp. -/
def submissionAt (timestamp : Int64) : Op := .submit (Transaction.ofContent ⟨"1.0", timestamp, [], none⟩)

/-- Two replicas in unison, each with a transaction of the one and one of the other timestamp pending, of which the
second believes that it leads, and the first leads. -/
def rivals (first second : Int64) : Cluster :=
  ((pair [0, 1]).run [submissionAt first, submissionAt second]).perform (.observe 1 1)

theorem unison_rivals (first second : Int64) : (rivals first second).Unison 1 := by
  have hgenuine : ∀ timestamp, (submissionAt timestamp).Routine := fun timestamp => genuine_add (by
    rw [Transaction.length_encode]
    exact (by decide : Wire.FitsSize (4 + "1.0".utf8ByteSize + 8 + 4 + 0 + 1 + 0)))
  have hroutine : ∀ op ∈ [submissionAt first, submissionAt second], op.Routine := by
    simp only [List.forall_mem_cons]
    exact ⟨hgenuine first, hgenuine second, List.forall_mem_nil _⟩
  have hwrites : (pair [0, 1]).RunWrites [submissionAt first, submissionAt second] := by
    have hall : ∀ op ∈ [submissionAt first, submissionAt second], ∀ d, op.Writes d := by
      simp only [List.forall_mem_cons]
      exact ⟨fun _ => trivial, fun _ => trivial, List.forall_mem_nil _⟩
    exact fun i => hall _ (List.get_mem _ i) _
  have hlockstep := (uniform_pair.lockstep present_pair present_leader_pair).stage hroutine hwrites 2
  rw [stage_of_length_le (Nat.le_refl 2)] at hlockstep
  exact hlockstep.toUnison.observe 1 1

/-- With the earlier transaction first the refused replica has its queue again, and the leader's next proposal is
committed by both. -/
theorem queue_refused_rivals : ∃ r s, (rivals 1 5).replica? 1 = some r ∧ r.lastLeader = 1 ∧
    ((rivals 1 5).propose 1).1 = .rejected 1 ∧ ((rivals 1 5).propose 1).2.replica? 1 = some s ∧
    r.pool.queue.map (·.timestamp) = [1, 5] ∧ s.pool.queue = r.pool.queue ∧
    ∃ b : Block, (((rivals 1 5).propose 1).2.propose 0).1 = .committed b.height b.count ∧ b.count.toNat = 1 ∧
      ∀ k t, (rivals 1 5).Present k → (((rivals 1 5).propose 1).2.propose 0).2.replica? k = some t →
        t.ledger.tip = b := by
  have hleader : (rivals 1 5).leader = 0 := by decide +kernel
  have hpresent : (rivals 1 5).Present (rivals 1 5).leader := by
    unfold Present
    decide +kernel
  have hrefused : ((rivals 1 5).propose 1).1 = .rejected 1 := by decide +kernel
  have hchecked : ((rivals 1 5).replica? 1).any (fun r => decide (r.lastLeader = 1 ∧
      r.pool.queue.map (·.timestamp) = [1, 5] ∧ r.pool.Unshared 1 ∧ Pool.InOrder r.pool.queue ∧
      1 ≤ r.pool.size)) = true := by decide +kernel
  have hwrites : (Op.propose (rivals 1 5).leader).Writes ((rivals 1 5).propose 1).2 := by decide +kernel
  obtain ⟨r, hr, hchecks⟩ := (Option.any_eq_true _ _).mp hchecked
  obtain ⟨hleads, htimes, hunshared, hinOrder, hfull⟩ := of_decide_eq_true hchecks
  obtain ⟨s, hs, -, -, -, hsorted⟩ :=
    queue_refused (unison_rivals 1 5) (by rw [hleader]; decide) hr hleads hrefused
  obtain ⟨-, hrestored, hcommits⟩ := hsorted hunshared
  obtain ⟨b, houtcome, -, hcount, hall⟩ := hcommits hinOrder hpresent hfull hwrites
  rw [hleader] at houtcome hall
  exact ⟨r, s, hr, hleads, hrefused, hs, htimes, hrestored.mpr hinOrder, b, houtcome, hcount, hall⟩

/-- **A refused proposal may reorder a queue**: with the later transaction first the refused replica sorts its queue,
and the leader keeps the order of arrival, so that they have other batches to propose. -/
theorem exists_reordered : (rivals 5 1).Unison 1 ∧ (rivals 5 1).leader = 0 ∧
    ((rivals 5 1).replica? 1).map (·.lastLeader) = some 1 ∧ ((rivals 5 1).propose 1).1 = .rejected 1 ∧
    (((rivals 5 1).propose 1).2.replica? 0).map (·.pool.queue.map (·.timestamp)) = some [5, 1] ∧
    (((rivals 5 1).propose 1).2.replica? 1).map (·.pool.queue.map (·.timestamp)) = some [1, 5] := by
  have hunison := unison_rivals 5 1
  have hleader : (rivals 5 1).leader = 0 := by decide +kernel
  have hrefused : ((rivals 5 1).propose 1).1 = .rejected 1 := by decide +kernel
  have hchecked : ((rivals 5 1).replica? 1).any (fun r => decide (r.lastLeader = 1 ∧
      r.pool.queue.map (·.timestamp) = [5, 1])) = true := by decide +kernel
  obtain ⟨r, hr, hchecks⟩ := (Option.any_eq_true _ _).mp hchecked
  obtain ⟨hleads, htimes⟩ := of_decide_eq_true hchecks
  have hpositive : 0 < r.settings.proposals.batch := hunison.batch 1 r hr ▸ Nat.one_pos
  have hother : (1 : ReplicaId) ≠ (rivals 5 1).leader := by
    rw [hleader]
    decide
  obtain ⟨s, hs, hreturns⟩ :=
    (refused_propose hunison.plain hunison.ready hother hr hpositive hleads hrefused).proposer
  -- the order of two timestamps is determined
  have hsorted : s.pool.queue.map (·.timestamp) = [1, 5] := by
    have hperm : (s.pool.queue.map (·.timestamp)).Perm [1, 5] := by
      have hsame := (hreturns.perm (hunison.ready 1 r hr).2).map (·.timestamp)
      rw [htimes] at hsame
      exact hsame.trans (List.Perm.swap 1 5 [])
    exact List.Perm.eq_of_pairwise (fun _ _ _ _ => Int64.le_antisymm) (List.pairwise_map.mpr hreturns.inOrder)
      (by decide) hperm
  refine ⟨hunison, hleader, ?_, hrefused, by decide +kernel, ?_⟩
  · rw [hr, Option.map_some, hleads]
  · rw [hs, Option.map_some, hsorted]

end Cluster

end ReplicatedLedger
