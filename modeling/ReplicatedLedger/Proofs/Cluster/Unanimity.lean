import ReplicatedLedger.Proofs.Cluster.Retention
import ReplicatedLedger.Proofs.Replica.Assent

/-! # Rounds without dissent

If every replica that is there would propose the same block as the leader, and can add it to its ledger, then all
of them acknowledge the proposal of the leader, and all commit the block (`Unanimous.propose`): the others when
they are told, and the leader when it settles. So it is when all replicas are alike (`Alike`), have a full batch
pending and can write its block (`Unison.exists_proposes`). -/

namespace ReplicatedLedger

namespace Replica

variable {r s t : Replica} {b : Block}

/-! ### Replicas that are alike -/

/-- The replicas have the same pending transactions in the same order and the same blocks, and would propose and
accept the same. -/
structure Alike (r s : Replica) : Prop where
  batch : s.settings.proposals.batch = r.settings.proposals.batch
  maxSize : s.settings.maxSize = r.settings.maxSize
  version : s.settings.version = r.settings.version
  queue : s.pool.queue = r.pool.queue
  chain : ∀ height, s.ledger.block? height = r.ledger.block? height

theorem Alike.symm (h : r.Alike s) : s.Alike r :=
  ⟨h.batch.symm, h.maxSize.symm, h.version.symm, h.queue.symm, fun height => (h.chain height).symm⟩

theorem Alike.trans (h : r.Alike s) (h' : s.Alike t) : r.Alike t :=
  ⟨h'.batch.trans h.batch, h'.maxSize.trans h.maxSize, h'.version.trans h.version, h'.queue.trans h.queue,
    fun height => (h'.chain height).trans (h.chain height)⟩

theorem Alike.tip_eq (h : r.Alike s) : s.ledger.tip = r.ledger.tip := Ledger.tip_eq_of_block?_eq h.chain

/-- A block that one of them would propose, the other would. -/
theorem Alike.builds (h : r.Alike s) (hr : r.Builds b) (hs : s.pending = none) : s.Builds b where
  pending := hs
  positive := h.batch ▸ hr.positive
  full := by
    have hsize : s.pool.size = r.pool.size := congrArg List.length h.queue
    rw [h.batch, hsize]
    exact hr.full
  eq_ok := by
    have hok := hr.eq_ok
    unfold candidate at hok ⊢
    rw [h.batch, h.queue, h.tip_eq, h.version]
    exact hok

theorem observe_of_lastLeader {leader : ReplicaId} (h : r.lastLeader = leader) : r.observe leader = r := by
  subst h
  rfl

theorem Alike.observe (h : r.Alike s) (leader : ReplicaId) : (r.observe leader).Alike (s.observe leader) :=
  ⟨h.batch, h.maxSize, h.version, h.queue, h.chain⟩

end Replica

namespace Cluster

variable {c d : Cluster} {b : Block} {k : ReplicaId} {batch : Nat}

/-! ### One round -/

/-- The block with the stamp of the next ordered command. -/
def stamped (c : Cluster) (b : Block) : Block := b.restamp c.tick.stamp.timestamp c.tick.stamp.nonce

/-- Whether the replica of a host is a member, and there. -/
def Present (c : Cluster) (k : ReplicaId) : Prop := .replica k ∈ c.live.map Prod.snd

theorem Present.exists_replica (h : c.Present k) : ∃ r, c.replica? k = some r := by
  obtain ⟨e, he, hek⟩ := List.mem_map.mp h
  have hlive := (List.mem_filter.mp he).2
  rw [hek] at hlive
  exact Option.isSome_iff_exists.mp hlive

/-- The leader is there and believes that it leads, and every replica that is there would propose the block and can
add it, stamped. -/
structure Unanimous (c : Cluster) (b : Block) : Prop where
  plain : c.Plain
  present : c.Present c.leader
  leads : ∀ r, c.replica? c.leader = some r → r.lastLeader = c.leader
  builds : ∀ k r, c.Present k → c.replica? k = some r → r.Builds b
  adds : ∀ k r, c.Present k → c.replica? k = some r → (r.ledger.add (c.stamped b)).1 = true
  fits : Wire.FitsSize b.encode.length

/-- What a replica becomes in a round without dissent: the leader waits, the others commit. -/
structure Assents (c : Cluster) (b : Block) (k : ReplicaId) (s : Replica) : Prop where
  leader : k = c.leader → ∃ r, c.replica? k = some r ∧ s = (r.withhold b).takeOwn b c.tick.stamp
  other : k ≠ c.leader → ∃ r, c.replica? k = some r ∧ s = (r.commit (c.stamped b)).observe c.leader

section

variable (h : c.Unanimous b)

include h

theorem Unanimous.decode : Message.decode (Message.proposal c.leader b).encode = .ok (.proposal c.leader b) :=
  Message.decode_encode h.fits

/-- The leader opens its proposal. -/
theorem Unanimous.propose_eq {r : Replica} (hr : c.replica? c.leader = some r) : c.propose c.leader =
    (c.setReplica c.leader (r.withhold b)).conclude c.leader (Message.proposal c.leader b).encode := by
  have hid : r.id = c.leader := h.plain.ids _ r hr
  have hopen := (h.builds _ r h.present hr).openProposal ((h.leads r hr).trans hid.symm)
  rw [hid] at hopen
  simp only [Cluster.propose, Cluster.openProposal, updateReplica_of_some hr, hopen, conclude]

/-- **One delivery** of the leader's proposal to a replica that has not heard of it, or has assented. -/
theorem Unanimous.deliver {r s : Replica} (hr : c.replica? c.leader = some r) (hk : c.Present k)
    (hs : (c.setReplica c.leader (r.withhold b)).replica? k = some s ∨ c.Assents b k s) (nodes : Nat) :
    (s.deliver .ordered (Message.proposal c.leader b).encode c.tick.stamp nodes).1 = .bool true ∧
      c.Assents b k (s.deliver .ordered (Message.proposal c.leader b).encode c.tick.stamp nodes).2 := by
  have hcommand := h.decode
  by_cases hleader : k = c.leader
  · -- the leader's own proposal is its candidate, however often it comes back
    subst hleader
    have hid : r.id = c.leader := h.plain.ids _ r hr
    obtain ⟨hsid, hown⟩ : s.id = c.leader ∧ s.takeOwn b c.tick.stamp = (r.withhold b).takeOwn b c.tick.stamp := by
      rcases hs with hs | hs
      · rw [replica?_setReplica, if_pos (Eq.refl c.leader)] at hs
        cases hs
        exact ⟨hid, rfl⟩
      · obtain ⟨r', hr', rfl⟩ := hs.leader rfl
        rw [hr] at hr'
        cases hr'
        exact ⟨hid, rfl⟩
    have hself : Message.decode (Message.proposal c.leader b).encode = .ok (.proposal s.id b) := by
      rw [hsid]
      exact hcommand
    rw [s.deliver_own hself hsid.symm nodes]
    exact ⟨rfl, fun _ => ⟨r, hr, hown⟩, fun hne => absurd rfl hne⟩
  · rcases hs with hs | hs
    · rw [replica?_setReplica, if_neg hleader] at hs
      have hother : c.leader ≠ s.id := fun he => hleader ((h.plain.ids k s hs).symm.trans he.symm)
      rw [(h.builds k s hk hs).deliver hcommand rfl hother (h.adds k s hk hs) nodes]
      exact ⟨rfl, fun he => absurd he hleader, fun _ => ⟨s, hs, rfl⟩⟩
    · obtain ⟨s₀, hs₀, rfl⟩ := hs.other hleader
      have hother : c.leader ≠ ((s₀.commit (c.stamped b)).observe c.leader).id := fun he =>
        hleader ((h.plain.ids k s₀ hs₀).symm.trans he.symm)
      have htip : ((s₀.commit (c.stamped b)).observe c.leader).ledger.tip = c.stamped b :=
        (Ledger.gains_of_add (h.adds k s₀ hk hs₀)).tip_eq
      have hknown : ((s₀.commit (c.stamped b)).observe c.leader).deliver .ordered (Message.proposal c.leader b).encode
          c.tick.stamp nodes = (.bool true, ((s₀.commit (c.stamped b)).observe c.leader).observe c.leader) :=
        Replica.deliver_committed hcommand rfl hother htip nodes
      rw [hknown]
      exact ⟨rfl, fun he => absurd he hleader, fun _ => ⟨s₀, hs₀, rfl⟩⟩

/-- **The leader's proposal is delivered**: it is acknowledged, and all that are there assent. -/
theorem Unanimous.order {r : Replica} (hr : c.replica? c.leader = some r) :
    ((c.setReplica c.leader (r.withhold b)).order (Message.proposal c.leader b).encode).1 =
        .ok (Reply.bool true).encode ∧
      ∀ k, (c.Present k → ∀ s, ((c.setReplica c.leader (r.withhold b)).order
            (Message.proposal c.leader b).encode).2.replica? k = some s → c.Assents b k s) ∧
        (¬ c.Present k → ((c.setReplica c.leader (r.withhold b)).order
            (Message.proposal c.leader b).encode).2.replica? k = c.replica? k) := by
  have hdeliver := fun k s (hk : c.Present k) hs => h.deliver (k := k) (s := s) hr hk hs
  have hnet := sameNet_setReplica hr (r.withhold b)
  have hlive := hnet.live_eq
  have hstart : ∀ k, k ≠ c.leader → (c.setReplica c.leader (r.withhold b)).replica? k = c.replica? k := fun k hk => by
    rw [replica?_setReplica, if_neg hk]
  generalize hd : c.setReplica c.leader (r.withhold b) = d at hdeliver hnet hlive hstart
  have hstamp : d.tick.stamp = c.tick.stamp := by rw [← hd]; rfl
  have hmembers := members_of_live (hnet.members ▸ h.plain.members)
  have hpresent : .replica c.leader ∈ d.live.map Prod.snd := hlive ▸ h.present
  have htell : d.tellLive (Message.proposal c.leader b).encode =
      tellAll (Message.proposal c.leader b).encode c.tick.stamp (d.live.map Prod.snd) d.tick := by
    rw [tellLive, hstamp]
  -- all replies are acknowledgements
  have hreplies : (d.tellLive (Message.proposal c.leader b).encode).1 =
      List.replicate (d.live.map Prod.snd).length (Reply.bool true).encode := by
    rw [htell]
    refine tellAll_eq_replicate (c := d.tick)
      (P := fun k s => c.Present k → d.replica? k = some s ∨ c.Assents b k s) hmembers
      (fun host hhost => ?_) (fun k s nodes hs hk => Or.inr (hdeliver k s hk (hs hk) nodes).2)
      (fun k s hs _ => Or.inl hs) fun k s nodes hk hs => ?_
    · obtain ⟨s, hs⟩ := Present.exists_replica hhost
      exact Option.isSome_iff_exists.mpr ⟨s, hs⟩
    · have hk : c.Present k := by rw [hlive] at hk; exact hk
      rw [(hdeliver k s hk (hs hk) nodes).1]
  have hne : (d.live.map Prod.snd).length ≠ 0 := fun hzero =>
    List.ne_nil_of_mem hpresent (List.length_eq_zero_iff.mp hzero)
  have horder : d.order (Message.proposal c.leader b).encode =
      (.ok (Reply.bool true).encode, (d.tellLive (Message.proposal c.leader b).encode).2) := by
    rw [order_eq, if_neg (List.ne_nil_of_mem hpresent), hreplies, majority?_replicate hne]
  rw [horder]
  refine ⟨rfl, fun k => ⟨fun hk => ?_, fun hk => ?_⟩⟩
  · rw [htell]
    exact forall_tellAll_of_mem (P := fun s => d.replica? k = some s) hmembers
      (fun s nodes hs => (hdeliver k s hk (Or.inl hs) nodes).2)
      (fun s nodes hs => (hdeliver k s hk (Or.inr hs) nodes).2) (hlive ▸ hk) fun s hs => hs
  · rw [htell, replica?_tellAll_of_notMem hmembers (hlive ▸ hk)]
    exact hstart k fun he => hk (he ▸ h.present)

/-- **A round without dissent**: the leader commits the block, and so does every replica that is there; the others
stay as they are. -/
theorem Unanimous.propose : (c.propose c.leader).1 = .committed b.height b.count ∧
    (∀ k r, c.Present k → c.replica? k = some r →
      (c.propose c.leader).2.replica? k = some ((r.commit (c.stamped b)).observe c.leader)) ∧
    ∀ k, ¬ c.Present k → (c.propose c.leader).2.replica? k = c.replica? k := by
  obtain ⟨r, hr⟩ := h.present.exists_replica
  obtain ⟨hanswer, horder⟩ := h.order hr
  have hnet := (sameNet_setReplica hr (r.withhold b)).tick.trans
    (sameNet_order (c := c.setReplica c.leader (r.withhold b)) h.plain.members (Message.proposal c.leader b).encode)
  rw [h.propose_eq hr, conclude, hanswer]
  generalize ((c.setReplica c.leader (r.withhold b)).order (Message.proposal c.leader b).encode).2 = d
    at horder hnet
  have hassents : ∀ k r, c.Present k → c.replica? k = some r → ∃ s, d.replica? k = some s ∧ c.Assents b k s := by
    intro k r hk hr
    obtain ⟨s, hs⟩ : ∃ s, d.replica? k = some s := by
      rw [← Option.isSome_iff_exists, hnet.running]
      exact Option.isSome_iff_exists.mpr ⟨r, hr⟩
    exact ⟨s, hs, (horder k).1 hk s hs⟩
  -- the leader settles
  obtain ⟨t, ht, htold⟩ := hassents _ r h.present hr
  obtain ⟨r', hr', hown⟩ := htold.leader rfl
  rw [hr] at hr'
  cases hr'
  have hsettle : ((r.withhold b).takeOwn b c.tick.stamp).settleProposal (.ok (Reply.bool true).encode) =
      (.committed b.height b.count, (r.commit (c.stamped b)).observe c.leader) :=
    Replica.settleProposal_takeOwn (h.adds _ r h.present hr)
  rw [updateReplica_of_some ht, hown, hsettle]
  refine ⟨rfl, fun k s hk hs => ?_, fun k hk => ?_⟩
  · rw [replica?_setReplica]
    split_ifs with hleader
    · subst hleader
      rw [hr] at hs
      cases hs
      rfl
    · obtain ⟨s', hs', hassent⟩ := hassents k s hk hs
      obtain ⟨s₀, hs₀, rfl⟩ := hassent.other hleader
      rw [hs] at hs₀
      cases hs₀
      exact hs'
  · have hne : k ≠ c.leader := fun he => hk (he ▸ h.present)
    rw [replica?_setReplica, if_neg hne]
    exact (horder k).2 hk

end

/-! ### Clusters in unison -/

/-- All replicas are alike, propose batches of the given size, and have no candidate. -/
structure Unison (c : Cluster) (batch : Nat) : Prop where
  plain : c.Plain
  ready : c.Ready
  positive : 0 < batch
  batch : ∀ k r, c.replica? k = some r → r.settings.proposals.batch = batch
  alike : ∀ k k' r r', c.replica? k = some r → c.replica? k' = some r' → r.Alike r'

/-- Replicas that come of replicas in unison, and are like them, are in unison. -/
theorem Unison.of_alike (h : c.Unison batch) (hplain : d.Plain) (hd : ∀ k s, d.replica? k = some s →
    s.pending = none ∧ s.pool.Reachable ∧ ∃ j r, c.replica? j = some r ∧ r.Alike s) : d.Unison batch where
  plain := hplain
  ready k s hs := ⟨(hd k s hs).1, (hd k s hs).2.1⟩
  positive := h.positive
  batch k s hs := by
    obtain ⟨-, -, j, r, hr, halike⟩ := hd k s hs
    exact halike.batch.trans (h.batch j r hr)
  alike k k' s s' hs hs' := by
    obtain ⟨-, -, j, r, hr, halike⟩ := hd k s hs
    obtain ⟨-, -, j', r', hr', halike'⟩ := hd k' s' hs'
    exact (halike.symm.trans (h.alike j j' r r' hr hr')).trans halike'

theorem present_congr (hnet : c.SameNet d ∨ c.tick.SameNet d) (k : ReplicaId) : d.Present k ↔ c.Present k := by
  have hlive : d.live = c.live := hnet.elim SameNet.live_eq SameNet.live_eq
  unfold Present
  rw [hlive]

/-- What is written if the leader proposes a full batch: the record has a length that fits, there is a height for
the block, and every store takes it. -/
def Op.Writes (c : Cluster) : Op → Prop
  | propose host => host = c.leader → ∀ r ∈ c.replica? host, r.settings.proposals.batch ≤ r.pool.size →
      Wire.FitsSize (r.recordLength (r.pool.queue.take r.settings.proposals.batch)) ∧
        r.ledger.tip.height.toNat + 1 < UInt64.size ∧
        ∀ b ∈ (r.candidate (r.pool.queue.take r.settings.proposals.batch)).toOption, ∀ e ∈ c.hosts.entries,
          ∀ s ∈ e.2.replica?, (s.ledger.store.write (c.stamped b)).1 = .ok ()
  | _ => True

instance (c : Cluster) : DecidablePred (Op.Writes c)
  | .propose host => inferInstanceAs (Decidable (host = c.leader → ∀ r ∈ c.replica? host, _))
  | .request .. | .register .. | .deregister _ | .setLeader _ | .observe .. => inferInstanceAs (Decidable True)

theorem exists_mem_hosts {r : Replica} (hr : c.replica? k = some r) : ∃ e ∈ c.hosts.entries, r ∈ e.2.replica? := by
  obtain ⟨host, hget, hhost⟩ := Option.bind_eq_some_iff.mp hr
  exact ⟨(k, host), (c.hosts.get?_eq_some_iff).mp hget, hhost⟩

/-- The block that the leader proposes, and all would propose. -/
structure Proposes (c : Cluster) (r : Replica) (b : Block) : Prop where
  builds : r.Builds b
  unanimous : c.Unanimous b
  builtOn : b.BuiltOn r.ledger.tip
  height : b.height.toNat = r.ledger.tip.height.toNat + 1
  count : b.count.toNat = r.settings.proposals.batch
  fits : Wire.FitsSize (1 + (c.stamped b).encode.length)

/-- **A full batch** of the leader makes a block that all would propose. -/
theorem Unison.exists_proposes (h : c.Unison batch) (hleader : c.Present c.leader) {r : Replica}
    (hr : c.replica? c.leader = some r) (hleads : r.lastLeader = c.leader)
    (hfull : r.settings.proposals.batch ≤ r.pool.size) (hwrites : (Op.propose c.leader).Writes c) :
    ∃ b, c.Proposes r b := by
  obtain ⟨hlength, hheight, hstores⟩ := hwrites rfl r hr hfull
  obtain ⟨hnone, hreachable⟩ := h.ready _ r hr
  have hpositive : 0 < r.settings.proposals.batch := h.batch _ r hr ▸ h.positive
  have hnodup := Pool.nodup_map_hash_take hreachable.consistent r.settings.proposals.batch
  have htaken : (r.pool.queue.take r.settings.proposals.batch).length = r.settings.proposals.batch :=
    List.length_take_of_le hfull
  have hcount := Replica.length_lt_of_recordLength hlength
  obtain ⟨b, hok⟩ := Replica.exists_candidate hnodup hcount r
  have hbuilds : r.Builds b := ⟨hnone, hpositive, hfull, hok⟩
  have hbuilt := (Replica.candidate_builtOn hok).1
  have hup : b.height.toNat = r.ledger.tip.height.toNat + 1 := by
    have hone : (1 : UInt64).toNat = 1 := rfl
    rw [hbuilt.height, UInt64.toNat_add, hone]
    exact Nat.mod_eq_of_lt hheight
  have hne : r.pool.queue.take r.settings.proposals.batch ≠ [] := fun hnil => by
    rw [hnil, List.length_nil] at htaken
    omega
  have hnonce : c.tick.stamp.nonce.length = 8 := Bytes.length_bigEndian 8 _
  have hfits : Wire.FitsSize (1 + (c.stamped b).encode.length) := by
    rw [stamped, Replica.length_record hnodup hne hok c.tick.stamp.timestamp hnonce]
    exact hlength
  refine ⟨b, hbuilds, ?_, hbuilt, hup, ?_, hfits⟩
  · refine ⟨h.plain, hleader, fun s hs => ?_, fun k s _ hs => ?_, fun k s _ hs => ?_, ?_⟩
    · rw [hr] at hs
      exact Option.some.inj hs ▸ hleads
    · exact (h.alike _ _ r s hr hs).builds hbuilds (h.ready k s hs).1
    · obtain ⟨e, he, hes⟩ := exists_mem_hosts hs
      refine Ledger.add_of_write ?_ (hstores b (by rw [hok]; rfl) e he s hes)
      have htip : s.ledger.tipHeight = r.ledger.tip.height := congrArg Block.height (h.alike _ _ r s hr hs).tip_eq
      rw [htip, UInt64.lt_iff_toNat_lt]
      exact hup ▸ Nat.lt_succ_self _
    · exact hfits.mono (Nat.le_trans (Replica.length_candidate_le hok _ _) (Nat.le_add_left _ 1))
  · rw [Replica.count_candidate hok, htaken]
    exact Nat.mod_eq_of_lt (htaken ▸ hcount)

end Cluster

end ReplicatedLedger
