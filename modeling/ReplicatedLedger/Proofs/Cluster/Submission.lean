import ReplicatedLedger.Proofs.Cluster.Asking
import ReplicatedLedger.Proofs.Cluster.Lockstep
import ReplicatedLedger.Proofs.Codec.Image
import ReplicatedLedger.Proofs.Codec.Limits
import ReplicatedLedger.Proofs.Pool.Firsts

/-! # Submitting transactions

A replica takes an ordered submission as a whole, or not at all: if one of the encoded transactions cannot be read, or
is too large, nothing is queued (`Takes.refused`); otherwise those that are not pending are, and the reply tells whether
that were all of them (`Takes.taken`). Replicas may answer differently, since other transactions may be pending in
each. But if they read transactions up to the same size, then one of them that answers yes has read the batch, and
with it all the others: so if a client is told that its batch was queued, every replica that is there has all of it
pending (`holds_of_addBatch`). -/

namespace ReplicatedLedger

open Wire
open Transaction (firsts)

namespace Replica

/-- What a replica is after it took a batch of transactions, and what it replies. -/
structure Gathers (r : Replica) (ts : List Transaction) (reply : Reply) (s : Replica) : Prop where
  /-- Nothing differs but the pool. -/
  state : s = { r with pool := s.pool }
  /-- Behind what was queued stand the first ones of those that were not pending. -/
  queue : s.pool.queue = r.pool.queue ++ firsts (r.pool.fresh ts)
  contains_iff : ∀ h, s.pool.contains h = true ↔ r.pool.contains h = true ∨ h ∈ ts.map (·.hash)
  /-- The reply tells whether all of them were queued. -/
  reply_eq : reply = .bool (decide ((ts.map (·.hash)).Nodup ∧ ∀ t ∈ ts, r.pool.contains t.hash = false))

/-- What comes of submitting encoded transactions. -/
structure Takes (r : Replica) (raws : List Bytes) (reply : Reply) (s : Replica) : Prop where
  /-- If one of them cannot be read, or is too large, nothing happens. -/
  refused : (∃ raw ∈ raws, ∃ e, Transaction.decode raw r.settings.maxSize = .error e) → reply = .bool false ∧ s = r
  taken : ∀ ts, (raws.map fun raw => Transaction.decode raw r.settings.maxSize) = ts.map .ok → r.Gathers ts reply s

variable {r s : Replica} {command : Bytes} {stamp : Stamp} {nodes max : Nat} {request : Request} {raws : List Bytes}
  {ts : List Transaction}

theorem gathers (r : Replica) (ts : List Transaction) :
    r.Gathers ts (.bool (r.pool.addBatch ts).1.isOk) (r.enqueue ts) where
  state := rfl
  queue := r.pool.queue_pushAll ts
  contains_iff := Pool.contains_pushAll r.pool ts
  reply_eq := by
    rw [Reply.bool.injEq, Bool.eq_iff_iff, Pool.addBatch_isOk_iff, decide_eq_true_iff]

theorem takes_addTransactions (r : Replica) (raws : List Bytes) :
    r.Takes raws (r.addTransactions raws).1 (r.addTransactions raws).2 := by
  unfold addTransactions
  cases hread : raws.mapM fun raw => Transaction.decode raw r.settings.maxSize with
  | error e =>
    refine ⟨fun _ => ⟨rfl, rfl⟩, fun ts hts => ?_⟩
    rw [mapM_eq_ok_iff.mpr hts] at hread
    cases hread
  | ok ts =>
    have hmap := mapM_eq_ok_iff.mp hread
    refine ⟨?_, fun us hus => ?_⟩
    · rintro ⟨raw, hraw, e, he⟩
      have hmem : Except.error e ∈ ts.map Except.ok := hmap ▸ he ▸ List.mem_map_of_mem hraw
      simp at hmem
    · obtain rfl : ts = us := List.map_injective_iff.mpr (fun _ _ => Except.ok.inj) (hmap.symm.trans hus)
      exact r.gathers ts

/-- **An ordered submission** goes to the pool. -/
theorem deliver_submission (hcommand : Message.decode command = .ok (.client request))
    (hwrites : request.isReadOnly = false) (r : Replica) (stamp : Stamp) (nodes : Nat) :
    r.deliver .ordered command stamp nodes = (r.observe stamp.leader).addTransactions request.raws := by
  simp only [deliver, hcommand, handle]
  cases request with
  | add raw | addBatch raws => rfl
  | _ => cases hwrites

/-- **A submission that can be read** is queued. -/
theorem deliver_of_read (hcommand : Message.decode command = .ok (.client request))
    (hwrites : request.isReadOnly = false)
    (hread : (request.raws.map fun raw => Transaction.decode raw r.settings.maxSize) = ts.map .ok)
    (stamp : Stamp) (nodes : Nat) :
    (r.deliver .ordered command stamp nodes).2 = (r.observe stamp.leader).enqueue ts := by
  have hmapM : (request.raws.mapM fun raw => Transaction.decode raw (r.observe stamp.leader).settings.maxSize) =
      .ok ts := mapM_eq_ok_iff.mpr hread
  rw [deliver_submission hcommand hwrites, addTransactions_eq, hmapM]
  rfl

/-- Encoded transactions that can be read are read as what they encode. -/
theorem eq_of_map_decode_encode (hfits : ∀ t ∈ ts, FitsSize t.encode.length) {us : List Transaction}
    (h : ((ts.map Transaction.encode).map fun raw => Transaction.decode raw max) = us.map .ok) : us = ts := by
  have hsame : ((ts.map Transaction.encode).map fun raw => Transaction.decode raw max) = ts.map .ok := by
    rw [List.map_map]
    refine List.map_congr_left fun t ht => ?_
    have hmem : Transaction.decode t.encode max ∈ us.map Except.ok :=
      h ▸ List.mem_map_of_mem (List.mem_map_of_mem ht)
    obtain ⟨u, -, hu⟩ := List.mem_map.mp hmem
    rw [Function.comp_apply, ← hu, Transaction.eq_of_decode_encode (hfits t ht) hu.symm]
  exact List.map_injective_iff.mpr (fun _ _ => Except.ok.inj) (h.symm.trans hsame)

/-- **A replica that answers yes** has read the whole batch, and none of it twice. -/
theorem read_of_ack (hfits : ∀ t ∈ ts, FitsSize t.encode.length)
    (hack : (r.addTransactions (ts.map Transaction.encode)).1 = .bool true) :
    ((ts.map Transaction.encode).map fun raw => Transaction.decode raw r.settings.maxSize) = ts.map .ok ∧
      (ts.map (·.hash)).Nodup := by
  have htakes := r.takes_addTransactions (ts.map Transaction.encode)
  cases hread : (ts.map Transaction.encode).mapM fun raw => Transaction.decode raw r.settings.maxSize with
  | error e =>
    simp [addTransactions, hread] at hack
  | ok us =>
    have hmap := mapM_eq_ok_iff.mp hread
    obtain rfl := eq_of_map_decode_encode hfits hmap
    have hreply := (htakes.taken _ hmap).reply_eq
    rw [hack, Reply.bool.injEq, eq_comm, decide_eq_true_iff] at hreply
    exact ⟨hmap, hreply.1⟩

end Replica

namespace Cluster

variable {c d : Cluster} {host : ReplicaId} {max : Nat} {ts : List Transaction} {request : Request}

/-! ### What a client is told -/

/-- All members that are there are replicas, which take transactions up to the same size. -/
def ShareLimit (c : Cluster) (max : Nat) : Prop :=
  ∀ m ∈ c.live.map Prod.snd, ∃ host r, m = .replica host ∧ c.replica? host = some r ∧ r.settings.maxSize = max

/-- A client that is told yes got the reply from the majority. -/
theorem order_of_returned_true (h : (Client.call c .ordered request Client.bool?).1 = .ok true) :
    (c.order (Message.client request).encode).1 = .ok (Reply.bool true).encode ∧
      (Client.call c .ordered request Client.bool?).2 = (c.order (Message.client request).encode).2 := by
  simp only [Client.call, Client.request, Substrate.submit, Substrate.order] at h ⊢
  cases horder : c.order (Message.client request).encode with
  | mk result d =>
    cases result with
    | error e => simp [horder] at h
    | ok raw =>
      cases hdecode : Reply.decode raw with
      | error e => simp [horder, hdecode] at h
      | ok reply =>
        cases reply with
        | bool v =>
          simp only [horder, hdecode, Client.bool?, Except.ok.injEq] at h ⊢
          rw [Reply.takes_reply.exactly hdecode Reply.Kind.noConfusion, h]
          exact ⟨rfl, trivial⟩
        | _ => simp [horder, hdecode, Client.bool?] at h

section

variable {command : Bytes} (hlimit : c.ShareLimit max) (hcommand : Message.decode command = .ok (.client request))
  (hwrites : request.isReadOnly = false) (hraws : request.raws = ts.map Transaction.encode)
  (hfits : ∀ t ∈ ts, FitsSize t.encode.length)

include hlimit in
theorem ShareLimit.members : ∀ m ∈ c.live.map Prod.snd, ∃ host, m = .replica host := fun m hm =>
  (hlimit m hm).imp fun _ ⟨_, heq, _⟩ => heq

include hlimit in
theorem ShareLimit.maxSize_eq (k : ReplicaId) (r : Replica) (hr : c.replica? k = some r) (hk : c.Present k) :
    r.settings.maxSize = max := by
  obtain ⟨k', r', hkk', hr', hmax⟩ := hlimit _ hk
  cases hkk'
  cases hr.symm.trans hr'
  exact hmax

include hlimit in
/-- **Only a command that can be read** is answered yes. -/
theorem decodes_of_order (hack : (c.order command).1 = .ok (Reply.bool true).encode) :
    ∃ message, Message.decode command = .ok message := by
  refine forall_mem_tellAll (c := c.tick) (P := fun _ _ => True)
    (R := fun raw => raw = (Reply.bool true).encode → ∃ message, Message.decode command = .ok message)
    hlimit.members (fun _ _ _ _ => trivial) (fun _ _ _ => trivial) (fun hyes => absurd hyes (by decide))
    (fun _ r nodes _ hyes => ?_) _ (order_eq_ok hack).2.1 rfl
  cases hdecode : Message.decode command with
  | ok message => exact ⟨message, rfl⟩
  | error e =>
    simp only [Replica.deliver, hdecode] at hyes
    cases hyes

include hcommand hwrites in
/-- The limit for transactions stays. -/
theorem maxSize_submission (k : ReplicaId) (r : Replica) (nodes : Nat)
    (hr : c.Present k → r.settings.maxSize = max) :
    c.Present k → (r.deliver .ordered command c.tick.stamp nodes).2.settings.maxSize = max := by
  rw [Replica.deliver_submission hcommand hwrites, Replica.addTransactions_eq]
  exact hr

include hlimit hcommand hwrites

include hraws hfits in
/-- **If the answer is yes**, then the batch can be read with the limit of all, and no hash is in it twice. -/
theorem read_of_order (hack : (c.order command).1 = .ok (Reply.bool true).encode) :
    ((ts.map Transaction.encode).map fun raw => Transaction.decode raw max) = ts.map .ok ∧
      (ts.map (·.hash)).Nodup := by
  refine forall_mem_tellAll_of_running (c := c.tick) (P := fun k r => c.Present k → r.settings.maxSize = max)
    (R := fun raw => raw = (Reply.bool true).encode →
      ((ts.map Transaction.encode).map fun raw => Transaction.decode raw max) = ts.map .ok ∧ (ts.map (·.hash)).Nodup)
    hlimit.members (fun host hhost => ?_) (maxSize_submission hcommand hwrites) hlimit.maxSize_eq
    (fun k r nodes hk hr hyes => ?_) _ (order_eq_ok hack).2.1 rfl
  · obtain ⟨r, hr⟩ := Present.exists_replica hhost
    exact Option.isSome_of_eq_some hr
  · rw [Replica.deliver_submission hcommand hwrites, hraws] at hyes
    have hreply : ((r.observe c.tick.stamp.leader).addTransactions (ts.map Transaction.encode)).1 = .bool true := by
      obtain ⟨v, hv⟩ := (r.observe c.tick.stamp.leader).exists_bool_addTransactions (ts.map Transaction.encode)
      rw [hv] at hyes ⊢
      cases v with
      | true => rfl
      | false => exact absurd hyes (by decide)
    have hread := Replica.read_of_ack hfits hreply
    rwa [show (r.observe c.tick.stamp.leader).settings.maxSize = max from hr hk] at hread

/-- **Every replica that is there** queues a batch that can be read with the limit of all, whatever it answers. -/
theorem pool_order (hread : (request.raws.map fun raw => Transaction.decode raw max) = ts.map .ok)
    (hhost : c.Present host) : ∃ r s, c.replica? host = some r ∧ (c.order command).2.replica? host = some s ∧
      s.pool = r.pool.pushAll ts := by
  obtain ⟨r, hr⟩ := hhost.exists_replica
  have hnet : c.tick.SameNet (c.tellLive command).2 :=
    (tellAll_invariant (c := c.tick) (P := fun k r => c.Present k → r.settings.maxSize = max) hlimit.members
      (maxSize_submission hcommand hwrites) hlimit.maxSize_eq).1
  rw [order_of_mem hhost]
  obtain ⟨s, hs⟩ : ∃ s, (c.tellLive command).2.replica? host = some s := by
    rw [← Option.isSome_iff_exists, hnet.running]
    exact Option.isSome_of_eq_some hr
  have hdeliver : ∀ (s : Replica) nodes, s.settings = r.settings →
      (s.deliver .ordered command c.tick.stamp nodes).2 = (s.observe c.tick.stamp.leader).enqueue ts := by
    intro s nodes hsettings
    have hsame : s.settings.maxSize = max :=
      (congrArg Settings.maxSize hsettings).trans (hlimit.maxSize_eq host r hr hhost)
    exact Replica.deliver_of_read hcommand hwrites (hsame.symm ▸ hread) _ nodes
  have hfirst : ∀ (s : Replica) nodes, s = r →
      (s.deliver .ordered command c.tick.stamp nodes).2.settings = r.settings ∧
        (s.deliver .ordered command c.tick.stamp nodes).2.pool = r.pool.pushAll ts := by
    rintro s nodes rfl
    rw [hdeliver s nodes rfl]
    exact ⟨rfl, rfl⟩
  -- told a second time, it finds all of them pending
  have hagain : ∀ (s : Replica) nodes, s.settings = r.settings ∧ s.pool = r.pool.pushAll ts →
      (s.deliver .ordered command c.tick.stamp nodes).2.settings = r.settings ∧
        (s.deliver .ordered command c.tick.stamp nodes).2.pool = r.pool.pushAll ts := by
    rintro s nodes ⟨hsettings, hpool⟩
    rw [hdeliver s nodes hsettings, Replica.enqueue, Replica.observe, hpool, Pool.pushAll_pushAll]
    exact ⟨hsettings, rfl⟩
  exact ⟨r, s, hr, hs, (forall_tellAll_of_mem (c := c.tick) (P := fun s => s = r)
    (Q := fun s => s.settings = r.settings ∧ s.pool = r.pool.pushAll ts) hlimit.members hfirst hagain hhost
    (fun s hs => Option.some.inj (hs.symm.trans hr)) s hs).2⟩

end

/-- The replica holds a transaction now: its hash is pending, and if it was not pending before then the transaction is
queued. -/
structure Holds (r s : Replica) (t : Transaction) : Prop where
  pending : s.pool.contains t.hash = true
  queued : r.pool.contains t.hash = false → t ∈ s.pool.queue

theorem holds_of_pushAll {r s : Replica} (h : s.pool = r.pool.pushAll ts) (hnodup : (ts.map (·.hash)).Nodup) :
    ∀ t ∈ ts, Holds r s t := by
  intro t ht
  refine ⟨?_, fun hnew => ?_⟩
  · rw [h, Pool.contains_pushAll]
    exact Or.inr (List.mem_map_of_mem ht)
  · have hfresh : t ∈ r.pool.fresh ts := List.mem_filter.mpr ⟨ht, by rw [hnew, Bool.not_false]⟩
    have hdistinct : ((r.pool.fresh ts).map (·.hash)).Nodup := hnodup.sublist (List.filter_sublist.map _)
    rw [h, Pool.queue_pushAll, Pool.firsts_eq_self_iff.mpr hdistinct]
    exact List.mem_append_right _ hfresh

/-- **A batch that was queued** by the majority is held by all. -/
theorem holds_of_addBatch (hlimit : c.ShareLimit max) (hfits : ∀ t ∈ ts, FitsSize t.encode.length)
    (hok : (Client.addBatch c (ts.map Transaction.encode)).1 = .ok true) (hhost : c.Present host) :
    ∃ r s, c.replica? host = some r ∧
      (Client.addBatch c (ts.map Transaction.encode)).2.replica? host = some s ∧ ∀ t ∈ ts, Holds r s t := by
  obtain ⟨hack, hcluster⟩ := order_of_returned_true hok
  obtain ⟨message, hmessage⟩ := decodes_of_order hlimit hack
  have hraws : ∀ raw ∈ ts.map Transaction.encode, FitsSize raw.length := List.forall_mem_map.mpr hfits
  have hfitting : (Message.client (.addBatch (ts.map Transaction.encode))).Fits :=
    ⟨Message.fits_of_decode_submission hraws hmessage, hraws⟩
  have hcommand := Message.decode_encode hfitting
  obtain ⟨hread, hnodup⟩ := read_of_order hlimit hcommand rfl rfl hfits hack
  obtain ⟨r, s, hr, hs, hpool⟩ := pool_order hlimit hcommand rfl hread hhost
  rw [Client.addBatch, hcluster]
  exact ⟨r, s, hr, hs, holds_of_pushAll hpool hnodup⟩

/-- **Submissions.** Any replica takes an ordered submission as a whole or not at all. And if the members that are there
are replicas with one limit for transactions, and a client is told that the batch that it submitted was queued, however
many transactions it has, each no longer than its length field can say, then every member holds every transaction of the
batch, whatever it answered itself. -/
theorem submission_held_by_all :
    (∀ (r : Replica) (command : Bytes) (request : Request) (stamp : Stamp) (nodes : Nat),
      Message.decode command = .ok (.client request) → request.isReadOnly = false →
        (r.observe stamp.leader).Takes request.raws (r.deliver .ordered command stamp nodes).1
          (r.deliver .ordered command stamp nodes).2) ∧
    ∀ (c : Cluster) (max : Nat) (ts : List Transaction), c.ShareLimit max →
      (∀ t ∈ ts, FitsSize t.encode.length) → (Client.addBatch c (ts.map Transaction.encode)).1 = .ok true →
        ∀ host, c.Present host → ∃ r s, c.replica? host = some r ∧
          (Client.addBatch c (ts.map Transaction.encode)).2.replica? host = some s ∧ ∀ t ∈ ts, Holds r s t := by
  refine ⟨fun r command request stamp nodes hcommand hwrites => ?_,
    fun c max ts hlimit hfits hok host hhost => holds_of_addBatch hlimit hfits hok hhost⟩
  rw [Replica.deliver_submission hcommand hwrites]
  exact (r.observe stamp.leader).takes_addTransactions request.raws

/-- Three members, one of which has a transaction pending that the others have not. -/
def uneven : Cluster :=
  (((((empty 0).startAll .standard [0, 1, 2]).register 2 2).perform (.submit slim)).register 0 0).register 1 1

/-- The two transactions as they are submitted. -/
def batch : List Bytes := [slim, wide].map Transaction.encode

theorem decode_batch : Message.decode (Message.client (.addBatch batch)).encode = .ok (.client (.addBatch batch)) := by
  have hfits : (Message.client (.addBatch batch)).Fits := ⟨by decide, by decide⟩
  exact Message.decode_encode hfits

theorem live_uneven : uneven.live.map Prod.snd = [.replica 0, .replica 1, .replica 2] := by decide +kernel

theorem shareLimit_uneven : uneven.ShareLimit Transaction.defaultMaxSize := by
  have hmax : ([0, 1, 2].all fun host => (uneven.replica? host).any fun r =>
      decide (r.settings.maxSize = Transaction.defaultMaxSize)) = true := by decide +kernel
  have hone : ∀ host ∈ [0, 1, 2], ∃ host' r, Member.replica host = .replica host' ∧ uneven.replica? host' = some r ∧
      r.settings.maxSize = Transaction.defaultMaxSize := by
    intro host hhost
    obtain ⟨r, hr, hsettings⟩ := (Option.any_eq_true _ _).mp (List.all_eq_true.mp hmax host hhost)
    exact ⟨host, r, rfl, hr, of_decide_eq_true hsettings⟩
  rw [ShareLimit, live_uneven]
  simp only [List.forall_mem_cons] at hone ⊢
  exact ⟨hone.1, hone.2.1, hone.2.2.1, List.forall_mem_nil _⟩

/-- The majority queues both transactions of the batch; the third member, which had one of them, answers no, and has
both. -/
theorem submission_held_by_all_uneven : (Client.addBatch uneven batch).1 = .ok true ∧
    ∃ r s, uneven.replica? 2 = some r ∧ (Client.addBatch uneven batch).2.replica? 2 = some s ∧
      (∀ stamp nodes,
        (r.deliver .ordered (Message.client (.addBatch batch)).encode stamp nodes).1 = .bool false) ∧
      s.pool.contains slim.hash = true ∧ s.pool.contains wide.hash = true := by
  have hok : (Client.addBatch uneven batch).1 = .ok true := by decide +kernel
  have hpresent : uneven.Present 2 := by
    rw [Present, live_uneven]
    decide
  have hbefore : (uneven.replica? 2).any (fun r => r.pool.contains slim.hash &&
      decide (r.settings.maxSize = Transaction.defaultMaxSize)) = true := by decide +kernel
  obtain ⟨r', hr', hchecked⟩ := (Option.any_eq_true _ _).mp hbefore
  obtain ⟨hpending, hmax⟩ := Bool.and_eq_true_iff.mp hchecked
  obtain ⟨htakes, hheld⟩ := submission_held_by_all
  obtain ⟨r, s, hr, hs, hholds⟩ :=
    hheld uneven _ [slim, wide] shareLimit_uneven (by decide) hok 2 hpresent
  obtain rfl : r' = r := Option.some.inj (hr'.symm.trans hr)
  refine ⟨hok, r', s, hr, hs, fun stamp nodes => ?_, (hholds slim (by simp)).pending, (hholds wide (by simp)).pending⟩
  have hread : (batch.map fun raw => Transaction.decode raw (r'.observe stamp.leader).settings.maxSize) =
      [slim, wide].map .ok := by
    rw [show (r'.observe stamp.leader).settings.maxSize = _ from of_decide_eq_true hmax]
    decide +kernel
  have hreply := ((htakes r' _ _ stamp nodes decode_batch rfl).taken _ hread).reply_eq
  rw [hreply, Reply.bool.injEq, decide_eq_false_iff_not]
  rintro ⟨-, hnew⟩
  have hfresh : r'.pool.contains slim.hash = false := hnew slim (by simp)
  rw [hpending] at hfresh
  cases hfresh

end Cluster

end ReplicatedLedger
