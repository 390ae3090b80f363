import ReplicatedLedger.Proofs.Codec.Message
import ReplicatedLedger.Proofs.Replica.Arrivals

/-! # Proposals that come again

A follower that committed a proposed block finds it at the tip when the same proposal comes again, whatever stamp it
carries then: height, parent and transactions are compared before the block is stamped. So the proposal is accepted,
without effect (`deliver_replay`). What comes in between may queue transactions; as long as it proposes nothing in the
name of the leader at that time (`Arrival.Idle`) the ledger stays as it is, and with it the tip
(`collects_receiveAll`). -/

namespace ReplicatedLedger

/-- A command that proposes nothing in the name of who leads: it is unordered, a client's, no message at all, or the
proposal of another. -/
def Arrival.Idle (a : Arrival) : Prop :=
  a.delivery = .ordered → ∀ b, Message.decode a.command ≠ .ok (.proposal a.stamp.leader b)

namespace Replica

variable {r s t : Replica} {a : Arrival} {as : List Arrival} {command : Bytes} {stamp : Stamp} {b : Block}

/-- Nothing differs but the pool, and who is thought to lead. -/
structure Collects (r s : Replica) : Prop where
  id : s.id = r.id
  settings : s.settings = r.settings
  ledger : s.ledger = r.ledger
  pending : s.pending = r.pending

theorem Collects.refl (r : Replica) : r.Collects r := ⟨rfl, rfl, rfl, rfl⟩

theorem Collects.trans (h : r.Collects s) (h' : s.Collects t) : r.Collects t :=
  ⟨h'.id.trans h.id, h'.settings.trans h.settings, h'.ledger.trans h.ledger, h'.pending.trans h.pending⟩

theorem Collects.observe (h : r.Collects s) (leader : ReplicaId) : r.Collects (s.observe leader) :=
  ⟨h.id, h.settings, h.ledger, h.pending⟩

/-- **What proposes nothing** queues transactions at most. -/
theorem collects_receive (h : a.Idle) (r : Replica) : r.Collects (r.receive a).2 := by
  have hdelivered := r.delivered a.delivery a.command a.stamp a.nodes
  rw [receive]
  generalize r.deliver a.delivery a.command a.stamp a.nodes = x at hdelivered
  cases hdelivered with
  | idle | queued => exact ⟨rfl, rfl, rfl, rfl⟩
  | own b hok hleads hordered => exact absurd (hleads ▸ hok) (h hordered b)
  | known b hok _ _ hordered | considered b hok _ _ hordered => exact absurd hok (h hordered b)

/-- **A proposal that comes again**, while the block is the tip. -/
theorem deliver_replay (hcommand : Message.decode command = .ok (.proposal stamp.leader b))
    (hother : stamp.leader ≠ t.id) (htip : agrees t.ledger.tip b = true) (nodes : Nat) :
    t.deliver .ordered command stamp nodes = (.bool true, t.observe stamp.leader) := by
  rw [deliver_other hcommand hother, if_pos htip]

section

variable {sender : ReplicaId} (hcommand : Message.decode command = .ok (.proposal sender b)) (hother : sender ≠ s.id)
  (htip : agrees s.ledger.tip b = true)

include hcommand hother htip

/-- The same command, in whatever delivery and with whatever stamp, or one that proposes nothing. -/
theorem collects_receive_of_replay (ha : a.Idle ∨ a.command = command) : s.Collects (s.receive a).2 := by
  by_cases hidle : a.Idle
  · exact collects_receive hidle s
  · -- it is ordered, and says that the sender leads
    obtain rfl := ha.resolve_left hidle
    simp only [Arrival.Idle, not_forall, not_not] at hidle
    obtain ⟨hordered, b', hdecode⟩ := hidle
    obtain ⟨hleader, rfl⟩ := Message.proposal.inj (Except.ok.inj (hcommand.symm.trans hdecode))
    rw [receive, hordered, deliver_replay hdecode (hleader ▸ hother) htip]
    exact (Collects.refl s).observe _

/-- **Along a run** of such commands the ledger and the candidate stay as they are. -/
theorem collects_receiveAll (has : ∀ a ∈ as, a.Idle ∨ a.command = command) : s.Collects (s.receiveAll as) := by
  induction as generalizing s with
  | nil => exact .refl s
  | cons a as ih =>
    obtain ⟨ha, has⟩ := List.forall_mem_cons.mp has
    have hstep := collects_receive_of_replay hcommand hother htip ha
    rw [receiveAll_cons]
    exact hstep.trans (ih (hstep.id ▸ hother) (hstep.ledger ▸ htip) has)

end

/-- **Replays are idempotent.** Let a follower commit the block that a leader proposes, stamped. As long as that block
is its tip the same proposal is accepted again, with whatever time and nonce, and leaves the follower as it is but for
who leads. And the block is its tip, and its ledger and its candidate are as they were, after any number of replays and
of commands that propose nothing in the name of who leads. -/
theorem replay_without_effect {nodes : Nat} (hcommand : Message.decode command = .ok (.proposal stamp.leader b))
    (hother : stamp.leader ≠ r.id)
    (hcommitted : r.ledger.Gains (b.restamp stamp.timestamp stamp.nonce)
      (r.deliver .ordered command stamp nodes).2.ledger) :
    (∀ t : Replica, t.id = r.id → t.ledger.tip = (r.deliver .ordered command stamp nodes).2.ledger.tip →
      ∀ (again : Stamp) (nodes' : Nat), again.leader = stamp.leader →
        t.deliver .ordered command again nodes' = (.bool true, t.observe stamp.leader)) ∧
    ∀ as : List Arrival, (∀ a ∈ as, a.Idle ∨ a.command = command) →
      (r.deliver .ordered command stamp nodes).2.Collects ((r.deliver .ordered command stamp nodes).2.receiveAll as) := by
  have htip : agrees (r.deliver .ordered command stamp nodes).2.ledger.tip b = true := by
    rw [hcommitted.tip_eq]
    exact agrees_restamp b _ _
  have hid := id_deliver r .ordered command stamp nodes
  refine ⟨fun t ht hsame again nodes' hleader => ?_, fun as has => ?_⟩
  · rw [← hleader] at hcommand hother ⊢
    exact deliver_replay hcommand (ht ▸ hother) (hsame ▸ htip) nodes'
  · exact collects_receiveAll hcommand (hid ▸ hother) htip has

/-- A follower over an empty directory, to which a transaction was submitted. -/
def follower? : Option Replica :=
  (start 1 { Settings.standard with proposals := ⟨1, 1⟩ } 0 .fresh).1.toOption.map fun r =>
    (r.deliver .ordered (Message.client (.add Block.genesisTransaction.encode)).encode ⟨0, [], 0⟩ 2).2

/-- A stamp that says that the replica 0 leads. -/
def stampAt (time : Int64) : Stamp := ⟨time, [], 0⟩

/-- The follower commits the block of its transaction, and finds it at its tip when the proposal comes again. -/
theorem replay_without_effect_follower : ∃ r b s, follower? = some r ∧ r.ledger.tipHeight = 0 ∧
    r.deliver .ordered (Message.proposal 0 b).encode (stampAt 5) 2 = (.bool true, s) ∧ s.ledger.tipHeight = 1 ∧
    s.deliver .ordered (Message.proposal 0 b).encode (stampAt 9) 2 = (.bool true, s.observe 0) := by
  have htest : follower?.any (fun r => (r.candidate r.pool.queue).toOption.any fun b =>
      decide (r.id = 1 ∧ r.ledger.tipHeight = 0 ∧
        Message.decode (Message.proposal 0 b).encode = .ok (.proposal (stampAt 5).leader b) ∧
        (r.deliver .ordered (Message.proposal 0 b).encode (stampAt 5) 2).1 = .bool true ∧
        (r.deliver .ordered (Message.proposal 0 b).encode (stampAt 5) 2).2.ledger.tipHeight = 1)) = true := by
    decide +kernel
  obtain ⟨r, hr, hcandidate⟩ := (Option.any_eq_true _ _).mp htest
  obtain ⟨b, -, hchecked⟩ := (Option.any_eq_true _ _).mp hcandidate
  obtain ⟨hid, hbefore, hdecode, hreply, hafter⟩ := of_decide_eq_true hchecked
  have hother : (stampAt 5).leader ≠ r.id := by
    rw [hid]
    decide
  -- the ledger grew, so that it gained the block
  have hgained : r.ledger.Gains (b.restamp (stampAt 5).timestamp (stampAt 5).nonce)
      (r.deliver .ordered (Message.proposal 0 b).encode (stampAt 5) 2).2.ledger := by
    have hgrown : (r.deliver .ordered (Message.proposal 0 b).encode (stampAt 5) 2).2.ledger.tip ≠ r.ledger.tip := by
      intro hsame
      have hheight : (1 : UInt64) = 0 := hafter.symm.trans ((congrArg Block.height hsame).trans hbefore)
      cases hheight
    rcases ledger_deliver r .ordered (Message.proposal 0 b).encode (stampAt 5) 2 with heq | ⟨b', -, hok, -, -, hends⟩
    · exact absurd (congrArg Ledger.tip heq) hgrown
    · cases hdecode.symm.trans hok
      exact hends.resolve_left fun hkeeps => hgrown hkeeps.tip_eq
  obtain ⟨hreplay, -⟩ := replay_without_effect hdecode hother hgained
  refine ⟨r, b, _, hr, hbefore, ?_, hafter, hreplay _ (id_deliver ..) rfl (stampAt 9) 2 rfl⟩
  rw [← hreply]

end Replica

end ReplicatedLedger
