import ReplicatedLedger.Proofs.Cluster.Runs
import ReplicatedLedger.Proofs.Replica.Round

/-! # A round of a proposal is atomic

In a plain cluster without pending candidates, one attempt to propose moves the transactions of a single
block from the pools to the ledgers: every replica rests or commits that block (`Atomic`). While the
proposal is delivered its proposer waits for it, and the others rest or have committed it already
(`During`). If the proposer commits, then more than half of the members that are there have a tip that
agrees with the block (`propose_atomic`). -/

namespace ReplicatedLedger.Cluster

/-- What has become of a replica while the proposal of a block by `host` is delivered. -/
structure During (c : Cluster) (host : ReplicaId) (b : Block) (stamp : Stamp) (k : ReplicaId) (s : Replica) :
    Prop where
  proposer : k = host → ∃ r, c.replica? k = some r ∧ r.Awaits b stamp s
  other : k ≠ host → ∃ r, c.replica? k = some r ∧ r.Ends (b.restamp stamp.timestamp stamp.nonce) s

/-- Whether the tip agrees with the block, or the replica is the one that proposes it. -/
def backs (host : ReplicaId) (b : Block) (k : ReplicaId) (s : Replica) : Bool :=
  k == host || Replica.agrees s.ledger.tip b

variable {c : Cluster} {host : ReplicaId} {b : Block} {stamp : Stamp} {command : Bytes}

section

variable (hplain : c.Plain) (hcommand : Message.decode command = .ok (.proposal host b))

include hplain hcommand

/-- **One delivery** of the proposal in a round. -/
theorem During.deliver {k : ReplicaId} {s : Replica} (h : During c host b stamp k s) (nodes : Nat) :
    During c host b stamp k (s.deliver .ordered command stamp nodes).2 ∧
      ∃ v, (s.deliver .ordered command stamp nodes).1 = .bool v ∧
        (v = true → backs host b k (s.deliver .ordered command stamp nodes).2 = true) := by
  by_cases hk : k = host
  · obtain ⟨r, hr, hawaits⟩ := h.proposer hk
    have hid : r.id = host := (hplain.ids k r hr).trans hk
    obtain ⟨hnext, v, hv⟩ := hawaits.deliver (hid ▸ hcommand) nodes
    refine ⟨⟨fun _ => ⟨r, hr, hnext⟩, fun hne => absurd hk hne⟩, v, hv, fun _ => ?_⟩
    simp [backs, hk]
  · obtain ⟨r, hr, hends⟩ := h.other hk
    have hid : host ≠ r.id := fun he => hk (he.trans (hplain.ids k r hr)).symm
    obtain ⟨hnext, v, hv, hagrees⟩ := hends.deliver hcommand hid nodes
    refine ⟨⟨fun he => absurd he hk, fun _ => ⟨r, hr, hnext⟩⟩, v, hv, fun hyes => ?_⟩
    simp [backs, hagrees hyes]

end

theorem During.observe {k : ReplicaId} {s : Replica} (h : During c host b stamp k s) (leader : ReplicaId) :
    During c host b stamp k (s.observe leader) where
  proposer hk := let ⟨r, hr, hawaits⟩ := h.proposer hk; ⟨r, hr, hawaits.observe leader⟩
  other hk := let ⟨r, hr, hends⟩ := h.other hk; ⟨r, hr, hends.observe leader⟩

theorem backs_deliver (hcommand : Message.decode command = .ok (.proposal host b)) {k : ReplicaId}
    {s : Replica} (h : backs host b k s = true) (nodes : Nat) :
    backs host b k (s.deliver .ordered command stamp nodes).2 = true := by
  unfold backs at h ⊢
  rcases Bool.or_eq_true_iff.mp h with hk | hagrees
  · rw [hk, Bool.true_or]
  · rcases s.ledger_deliver .ordered command stamp nodes with hsame | ⟨d, -, hok, -, hnew, -⟩
    · rw [hsame, hagrees, Bool.or_true]
    · -- a block that agrees with the tip is not considered any more
      rw [hcommand] at hok
      cases hok
      rw [hagrees] at hnew
      cases hnew

/-! ### The parts of a round -/

/-- In the second cluster the proposal of the block by `host` is open: the proposer waits for it, and
the others have not heard of it. -/
structure Open (c : Cluster) (host : ReplicaId) (b : Block) (d : Cluster) : Prop where
  net : c.SameNet d
  during : ∀ k s, d.replica? k = some s → During c host b d.tick.stamp k s

/-- A proposer without a candidate opens its proposal. -/
theorem open_setReplica (hready : c.Ready) {r : Replica} (hr : c.replica? host = some r)
    (hawaits : ∀ stamp, r.Awaits b stamp r.openProposal.2) :
    Open c host b (c.setReplica host r.openProposal.2) := by
  refine ⟨sameNet_setReplica hr _, fun k s hs => ?_⟩
  rw [replica?_setReplica] at hs
  split_ifs at hs with hk
  · cases hs
    exact ⟨fun _ => ⟨r, hk ▸ hr, hawaits _⟩, fun hne => absurd hk hne⟩
  · obtain ⟨hnone, hp⟩ := hready k s hs
    exact ⟨fun he => absurd he hk, fun _ => ⟨s, hs, Or.inl (Replica.Rests.refl hp hnone)⟩⟩

section

variable {d : Cluster} (h : Open c host b d) (hplain : c.Plain)
  (hcommand : Message.decode command = .ok (.proposal host b))

include h hplain hcommand

/-- **The proposal is delivered** to all members. -/
theorem Open.order : (∀ k, ((d.order command).2.replica? k).isSome = (c.replica? k).isSome) ∧
    ∀ k s, (d.order command).2.replica? k = some s → During c host b d.tick.stamp k s := by
  obtain ⟨htold, hduring⟩ := order_invariant (h.net.members ▸ hplain.members)
    (fun k s nodes (hs : During c host b d.tick.stamp k s) => (hs.deliver hplain hcommand nodes).1) h.during
  exact ⟨fun k => (htold.running k).trans (h.net.running k), hduring⟩

/-- If the answer accepts the proposal, then more than half of the members back the block. -/
theorem Open.majority (haccepts : Replica.accepts (d.order command).1 = true) :
    c.live.length < 2 * (c.live.map Prod.snd).countP ((d.order command).2.holds (backs host b)) := by
  have hmajority := majority_of_accepts (h.net.members ▸ hplain.members)
    (fun k s nodes (hs : During c host b d.tick.stamp k s) => (hs.deliver hplain hcommand nodes).1) h.during
    (backs host b) haccepts (fun k s nodes hs => (hs.deliver hplain hcommand nodes).2)
    fun k s nodes _ hbacks => backs_deliver hcommand hbacks nodes
  rw [h.net.live_eq] at hmajority
  exact hmajority

end

/-- **The proposal is delivered**, even if its block cannot be read: then nobody acts on it. -/
theorem Open.order_proposal {d : Cluster} (h : Open c host b d) (hplain : c.Plain) :
    (∀ k, ((d.order (Message.proposal host b).encode).2.replica? k).isSome = (c.replica? k).isSome) ∧
      ∀ k s, (d.order (Message.proposal host b).encode).2.replica? k = some s →
        During c host b d.tick.stamp k s := by
  cases hdecode : Message.decode (Message.proposal host b).encode with
  | ok message =>
    rw [(Message.eq_of_decode_proposal hdecode).1] at hdecode
    exact h.order hplain hdecode
  | error e =>
    obtain ⟨htold, hduring⟩ := order_invariant (h.net.members ▸ hplain.members)
      (fun k s nodes (hs : During c host b d.tick.stamp k s) => by
        rw [Replica.deliver_of_error hdecode]
        exact hs.observe _) h.during
    exact ⟨fun k => (htold.running k).trans (h.net.running k), hduring⟩

/-- **The answer is in**: the proposer settles, and every replica rests or commits the block, stamped. -/
theorem During.settle {d : Cluster} (hnet : ∀ k, (d.replica? k).isSome = (c.replica? k).isSome)
    (h : ∀ k s, d.replica? k = some s → During c host b stamp k s) (answer : Except SubstrateError Bytes)
    (k : ReplicaId) (r : Replica) (hr : c.replica? k = some r) :
    ∃ s, (d.updateReplica host (fun s => s.settleProposal answer) (.rejected 0)).2.replica? k = some s ∧
      r.Ends (b.restamp stamp.timestamp stamp.nonce) s := by
  obtain ⟨s, hs⟩ : ∃ s, d.replica? k = some s := by
    rw [← Option.isSome_iff_exists, hnet, hr, Option.isSome_some]
  rw [replica?_updateReplica]
  split_ifs with hk
  · subst hk
    obtain ⟨r', hr', hawaits⟩ := (h _ s hs).proposer rfl
    rw [hr] at hr'
    cases hr'
    refine ⟨(s.settleProposal answer).2, by rw [hs, Option.map_some], ?_⟩
    rcases hawaits.settle answer with ⟨n, -, hrests⟩ | ⟨-, -, hcommits⟩
    · exact Or.inl hrests
    · exact Or.inr hcommits
  · obtain ⟨r', hr', hends⟩ := (h k s hs).other hk
    rw [hr] at hr'
    cases hr'
    exact ⟨s, hs, hends⟩

/-- If the proposer committed, then the members that backed the block have a tip that agrees with it. -/
theorem holds_of_backs {d : Cluster} {r s : Replica} {answer : Except SubstrateError Bytes}
    (hs : d.replica? host = some s) (hcommits : r.Commits (b.restamp stamp.timestamp stamp.nonce)
      (s.settleProposal answer).2) {m : Member} (h : d.holds (backs host b) m = true) :
    (d.updateReplica host (fun s => s.settleProposal answer) (.rejected 0)).2.holds
      (fun _ s => Replica.agrees s.ledger.tip (b.restamp stamp.timestamp stamp.nonce)) m = true := by
  cases m with
  | standIn id => cases h
  | replica k =>
    dsimp only [holds] at h ⊢
    rw [replica?_updateReplica]
    split_ifs with hk
    · rw [hs, Option.map_some, Option.any_some, hcommits.ledger.tip_eq]
      exact Replica.agrees_iff.mpr ⟨rfl, rfl, rfl⟩
    · obtain ⟨t, ht, hbacks⟩ := Option.any_eq_true _ _ |>.mp h
      have hagrees : Replica.agrees t.ledger.tip b = true := by simpa [backs, hk] using hbacks
      rw [ht, Option.any_some]
      exact hagrees

/-! ### The round -/

/-- What an attempt of `host` to propose must come to: every replica rests or commits the one block, and if
the attempt commits, then the block is the one that it tells of, the proposer has committed it, and more than
half of the members that are there have a tip of its height, parent and transactions. -/
structure Atomic (c : Cluster) (host : ReplicaId) (b : Block) (outcome : ProposalOutcome) (d : Cluster) :
    Prop where
  ends : ∀ k r, c.replica? k = some r → ∃ s, d.replica? k = some s ∧ (r.Rests s ∨ r.Commits b s)
  tells : ∀ height count, outcome = .committed height count → b.height = height ∧ b.count = count
  proposer : ∀ height count, outcome = .committed height count →
    ∃ r s, c.replica? host = some r ∧ d.replica? host = some s ∧ r.Commits b s
  majority : ∀ height count, outcome = .committed height count →
    c.live.length < 2 * (c.live.map Prod.snd).countP (d.holds fun _ s => Replica.agrees s.ledger.tip b)

/-- If all replicas rest and the attempt does not commit, then any block will do. -/
theorem atomic_of_rests {outcome : ProposalOutcome} {d : Cluster}
    (hno : ∀ height count, outcome ≠ .committed height count)
    (h : ∀ k r, c.replica? k = some r → ∃ s, d.replica? k = some s ∧ r.Rests s) :
    Atomic c host b outcome d where
  ends k r hr := (h k r hr).imp fun _ hs => ⟨hs.1, Or.inl hs.2⟩
  tells height count he := absurd he (hno height count)
  proposer height count he := absurd he (hno height count)
  majority height count he := absurd he (hno height count)

/-- **The round of an open proposal** is atomic. -/
theorem Open.atomic {d : Cluster} (h : Open c host b d) (hplain : c.Plain)
    (hcommand : Message.decode command = .ok (.proposal host b)) {r : Replica}
    (hr : c.replica? host = some r) :
    Atomic c host (b.restamp d.tick.stamp.timestamp d.tick.stamp.nonce) (d.conclude host command).1
      (d.conclude host command).2 := by
  obtain ⟨hrunning, hduring⟩ := h.order hplain hcommand
  obtain ⟨s, hs⟩ : ∃ s, (d.order command).2.replica? host = some s := by
    rw [← Option.isSome_iff_exists, hrunning, hr, Option.isSome_some]
  have hends := During.settle hrunning hduring (d.order command).1
  -- the proposer still waits, so that the answer decides
  obtain ⟨r', hr', hwaits⟩ := (hduring host s hs).proposer rfl
  rw [hr] at hr'
  cases hr'
  rcases hwaits.settle (d.order command).1 with ⟨n, hrejected, -⟩ | ⟨houtcome, haccepts, hcommits⟩
  · have hno : ∀ height count, (d.conclude host command).1 ≠ .committed height count := by
      intro height count he
      rw [conclude, updateReplica_of_some hs, hrejected] at he
      cases he
    exact ⟨hends, fun height count he => absurd he (hno height count),
      fun height count he => absurd he (hno height count),
      fun height count he => absurd he (hno height count)⟩
  · refine ⟨hends, fun height count he => ?_, fun height count _ => ?_, fun height count _ => ?_⟩
    · rw [conclude, updateReplica_of_some hs, houtcome] at he
      cases he
      exact ⟨rfl, rfl⟩
    · refine ⟨r, _, hr, ?_, hcommits⟩
      rw [conclude, replica?_updateReplica, if_pos rfl, hs, Option.map_some]
    · refine Nat.lt_of_lt_of_le (h.majority hplain hcommand haccepts) (Nat.mul_le_mul_left 2 ?_)
      exact List.countP_mono_left fun m _ hm => holds_of_backs hs hcommits hm

/-- **A round is atomic.** In a plain cluster in which no replica has a candidate let a replica propose a
block whose encoding fits. There is a block such that every replica rests or commits it, and it is the block
of which the attempt tells if it commits. -/
theorem propose_atomic (hplain : c.Plain) (hready : c.Ready)
    (hfits : ∀ r b, c.replica? host = some r →
      r.candidate (r.pool.queue.take r.settings.proposals.batch) = .ok b → Wire.FitsSize b.encode.length) :
    ∃ b, Atomic c host b (c.propose host).1 (c.propose host).2 := by
  have hrest : ∀ k r, c.replica? k = some r → r.Rests r := fun k r hr =>
    Replica.Rests.refl (hready k r hr).2 (hready k r hr).1
  have hproposed := c.proposed host
  generalize c.propose host = x at hproposed
  cases hproposed with
  | noReplica hr =>
    have hno : ∀ height count, ProposalOutcome.notLeader ≠ .committed height count := fun _ _ he => by cases he
    exact ⟨.genesis, atomic_of_rests hno fun k s hs => ⟨s, hs, hrest k s hs⟩⟩
  | unsubmitted r outcome hr hover =>
    obtain ⟨hnone, hp⟩ := hready host r hr
    rcases Replica.openProposal_of_none hp hnone with ⟨outcome', hopen, hno, hrests⟩ | ⟨b, -, hopen, -⟩
    · rw [hover] at hopen
      cases hopen
      refine ⟨.genesis, atomic_of_rests hno fun k s hs => ?_⟩
      rw [replica?_setReplica]
      split_ifs with hk
      · rw [hk, hr] at hs
        cases hs
        exact ⟨_, rfl, hrests⟩
      · exact ⟨s, hs, hrest k s hs⟩
    · rw [hover] at hopen
      cases hopen
  | submitted r message hr hsubmit =>
    obtain ⟨hnone, hp⟩ := hready host r hr
    rcases Replica.openProposal_of_none hp hnone with ⟨outcome, hopen, -, -⟩ | ⟨b, hok, hopen, hawaits⟩
    · rw [hsubmit] at hopen
      cases hopen
    · rw [hsubmit] at hopen
      cases hopen
      have hid : r.id = host := hplain.ids host r hr
      have hcommand : Message.decode (Message.proposal r.id b).encode = .ok (.proposal host b) :=
        hid ▸ Message.decode_encode (hfits r b hr hok)
      exact ⟨_, (open_setReplica hready hr hawaits).atomic hplain hcommand hr⟩

/-- What an attempt to propose comes to: all replicas rest, or a proposal is opened, delivered and settled. -/
theorem rests_or_opens (hplain : c.Plain) (hready : c.Ready) (host : ReplicaId) :
    (∀ k r, c.replica? k = some r → ∃ s, (c.propose host).2.replica? k = some s ∧ r.Rests s) ∨
      ∃ r b, c.replica? host = some r ∧ r.openProposal.1 = .submit (.proposal host b) ∧
        Open c host b (c.setReplica host r.openProposal.2) ∧
        c.propose host =
          (c.setReplica host r.openProposal.2).conclude host (Message.proposal host b).encode := by
  have hrest : ∀ k r, c.replica? k = some r → r.Rests r := fun k r hr =>
    Replica.Rests.refl (hready k r hr).2 (hready k r hr).1
  have hproposed := c.proposed host
  generalize c.propose host = x at hproposed
  cases hproposed with
  | noReplica hr => exact Or.inl fun k s hs => ⟨s, hs, hrest k s hs⟩
  | unsubmitted r outcome hr hover =>
    obtain ⟨hnone, hp⟩ := hready host r hr
    rcases Replica.openProposal_of_none hp hnone with ⟨outcome', -, -, hrests⟩ | ⟨b, -, hopen, -⟩
    · refine Or.inl fun k s hs => ?_
      rw [replica?_setReplica]
      split_ifs with hk
      · rw [hk, hr] at hs
        cases hs
        exact ⟨_, rfl, hrests⟩
      · exact ⟨s, hs, hrest k s hs⟩
    · rw [hover] at hopen
      cases hopen
  | submitted r message hr hsubmit =>
    obtain ⟨hnone, hp⟩ := hready host r hr
    rcases Replica.openProposal_of_none hp hnone with ⟨outcome, hopen, -, -⟩ | ⟨b, -, hopen, hawaits⟩
    · rw [hsubmit] at hopen
      cases hopen
    · rw [hsubmit] at hopen
      cases hopen
      rw [hplain.ids host r hr] at hsubmit ⊢
      exact Or.inr ⟨r, b, hr, hsubmit, open_setReplica hready hr hawaits, rfl⟩

/-- **An attempt to propose**, whatever is proposed: there is a block such that every replica rests or commits it. -/
theorem ends_propose (hplain : c.Plain) (hready : c.Ready) (host : ReplicaId) : ∃ b : Block,
    ∀ k r, c.replica? k = some r → ∃ s, (c.propose host).2.replica? k = some s ∧ r.Ends b s := by
  rcases rests_or_opens hplain hready host with hrests | ⟨r, b, -, -, hopen, hpropose⟩
  · exact ⟨.genesis, fun k r hr => (hrests k r hr).imp fun s hs => ⟨hs.1, Or.inl hs.2⟩⟩
  · obtain ⟨hrunning, hduring⟩ := hopen.order_proposal hplain
    rw [hpropose]
    exact ⟨_, During.settle hrunning hduring _⟩

/-- Two members commit the block of a transaction that was submitted to both. -/
theorem propose_atomic_pair : ∃ c, c = (pair [0, 1]).perform submission ∧ c.Plain ∧ c.Ready ∧
    (c.propose 0).1 = .committed 1 1 ∧ ∃ b r s, c.replica? 0 = some r ∧ (c.propose 0).2.replica? 0 = some s ∧
      r.Commits b s ∧ b.height = 1 := by
  have hplain : ((pair [0, 1]).perform submission).Plain := (plain_pair [0, 1]).perform submission
  have hready : ((pair [0, 1]).perform submission).Ready :=
    (ready_pair [0, 1]).request (plain_pair [0, 1]).members genuine_submission
  have hcheck : ((((pair [0, 1]).perform submission).replica? 0).all fun r =>
      (r.candidate (r.pool.queue.take r.settings.proposals.batch)).toOption.all fun b =>
        decide (Wire.FitsSize b.encode.length)) = true := by decide +kernel
  have houtcome : (((pair [0, 1]).perform submission).propose 0).1 = .committed 1 1 := by decide +kernel
  refine ⟨(pair [0, 1]).perform submission, rfl, hplain, hready, houtcome, ?_⟩
  generalize (pair [0, 1]).perform submission = c at hplain hready hcheck houtcome
  have hfits : ∀ r b, c.replica? 0 = some r →
      r.candidate (r.pool.queue.take r.settings.proposals.batch) = .ok b → Wire.FitsSize b.encode.length := by
    intro r b hr hok
    simp only [hr, hok, Except.toOption, Option.all_some, decide_eq_true_eq] at hcheck
    exact hcheck
  obtain ⟨b, hatomic⟩ := propose_atomic hplain hready hfits
  obtain ⟨r, s, hr, hs, hcommits⟩ := hatomic.proposer 1 1 houtcome
  exact ⟨b, r, s, hr, hs, hcommits, (hatomic.tells 1 1 houtcome).1⟩

end ReplicatedLedger.Cluster
