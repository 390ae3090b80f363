import ReplicatedLedger.Proofs.Cluster.Retention

/-! # Candidates that nobody settles

A replica that proposes settles its candidate before the attempt is over, and a replica that considers a
proposal of another has no candidate afterwards. A candidate that is there between two operations has a
single origin (`candidate_stage`): a client ordered a proposal in the name of the leader, one that was
delivered before or one that never was, and the replica of the leader took it for its own that comes back.
As long as the leader is not changed such a candidate stays, and the replica does not propose any more
(`blocked_stage`). -/

namespace ReplicatedLedger

/-! ### Candidates in one step of a replica -/

namespace Replica

variable {r : Replica}

/-- The candidate after a proposal of its own was delivered. -/
def ownCandidate (b : Block) (stamp : Stamp) : Candidate := ⟨b.restamp stamp.timestamp stamp.nonce, true⟩

/-- Considering a proposal leaves no candidate. -/
theorem pending_consider (r : Replica) (b : Block) : (r.consider b).2.pending = none := by
  have hconsidered := r.considered b
  generalize r.consider b = x at hconsidered
  cases hconsidered with
  | noCandidate hnone => exact hnone
  | gained | refused => rfl

/-- Settling leaves no candidate. -/
theorem pending_settleProposal (r : Replica) (answer : Except SubstrateError Bytes) :
    (r.settleProposal answer).2.pending = none := by
  have hsettled := r.settled answer
  generalize r.settleProposal answer = x at hsettled
  cases hsettled with
  | noCandidate hnone => exact hnone
  | committed | refused => rfl

/-- **A command** leaves the candidate as it is, unless it is an ordered proposal of the leader: one of
another replica may leave no candidate, and one of its own is the candidate, stamped. -/
theorem pending_deliver (r : Replica) (delivery : Delivery) (command : Bytes) (stamp : Stamp) (nodes : Nat) :
    (r.deliver delivery command stamp nodes).2.pending = r.pending ∨
      ((r.deliver delivery command stamp nodes).2.pending = none ∧ delivery = .ordered ∧ stamp.leader ≠ r.id) ∨
      ∃ b, Message.decode command = .ok (.proposal r.id b) ∧ delivery = .ordered ∧ stamp.leader = r.id ∧
        (r.deliver delivery command stamp nodes).2.pending = some (ownCandidate b stamp) := by
  have hdelivered := r.delivered delivery command stamp nodes
  generalize r.deliver delivery command stamp nodes = x at hdelivered
  cases hdelivered with
  | idle | queued | known => exact Or.inl rfl
  | own b hok hleads hordered => exact Or.inr (Or.inr ⟨b, hok, hordered, hleads, rfl⟩)
  | considered b hok hother hnew hordered =>
    exact Or.inr (Or.inl ⟨(r.observe stamp.leader).pending_consider _, hordered, hother⟩)

/-- A replica with a candidate opens no proposal. -/
theorem openProposal_of_pending (h : r.pending.isSome) :
    r.openProposal = (.over (if r.leads then .candidatePending else .notLeader), r) := by
  unfold openProposal
  cases r.leads with
  | false => rfl
  | true => simp [h]

/-- A replica without a candidate is not kept from proposing by one. -/
theorem openProposal_ne_candidatePending (h : r.pending = none) :
    r.openProposal.1 ≠ .over .candidatePending := by
  unfold openProposal
  split
  · simp
  · rw [h]
    split
    · rename_i hsome
      cases hsome
    · split <;> simp

end Replica

namespace Cluster

variable {c : Cluster} {ops : List Op} {op : Op} {host k : ReplicaId} {b : Block} {i j : Nat}

/-- The candidate of the replica of a host. -/
def candidate? (c : Cluster) (k : ReplicaId) : Option Candidate := (c.replica? k).bind Replica.pending

theorem candidate?_of_some {r : Replica} (hr : c.replica? k = some r) : c.candidate? k = r.pending := by
  rw [candidate?, hr, Option.bind_some]

/-- A client orders a proposal of the block in the name of the leader, whose replica is told. -/
def Op.Echoes (c : Cluster) (k : ReplicaId) (b : Block) : Op → Prop
  | .request .ordered command => Message.decode command = .ok (.proposal k b) ∧ c.leader = k ∧
      .replica k ∈ c.live.map Prod.snd
  | _ => False

/-- What has become of the candidate of a replica: it is the one it was, or another replica leads and it
is gone, or it was made by an echo. -/
def Turns (c : Cluster) (op : Op) (k : ReplicaId) (s : Replica) : Prop :=
  s.pending = c.candidate? k ∨ (s.pending = none ∧ c.leader ≠ k) ∨
    ∃ b, op.Echoes c k b ∧ s.pending = some (Replica.ownCandidate b c.tick.stamp)

theorem turns_self (c : Cluster) (op : Op) : ∀ k s, c.replica? k = some s → c.Turns op k s := fun _ _ hs =>
  Or.inl (candidate?_of_some hs).symm

/-! ### What an operation does to candidates -/

/-- **An ordered command** makes a candidate of an echo alone. -/
theorem turns_request (hplain : c.Plain) (command : Bytes) :
    ∀ k s, (c.perform (.request .ordered command)).replica? k = some s →
      c.Turns (.request .ordered command) k s := by
  intro k s hs
  by_cases hmem : .replica k ∈ c.live.map Prod.snd
  · -- the replica is told, once or several times, and it is the same command each time
    have hkeep : ∀ (s : Replica) (nodes : Nat), s.id = k ∧ c.Turns (.request .ordered command) k s →
        (s.deliver .ordered command c.tick.stamp nodes).2.id = k ∧
          c.Turns (.request .ordered command) k (s.deliver .ordered command c.tick.stamp nodes).2 := by
      rintro s nodes ⟨hid, hturns⟩
      refine ⟨(s.id_deliver _ _ _ _).trans hid, ?_⟩
      rcases s.pending_deliver .ordered command c.tick.stamp nodes with
        hsame | ⟨hnone, -, hother⟩ | ⟨b, hok, -, hleads, hown⟩
      · unfold Turns
        rw [hsame]
        exact hturns
      · exact Or.inr (Or.inl ⟨hnone, hid ▸ hother⟩)
      · exact Or.inr (Or.inr ⟨b, ⟨hid ▸ hok, hleads.trans hid, hmem⟩, hown⟩)
    simp only [perform, order_of_mem hmem] at hs
    exact (forall_tellAll_of_mem (c := c.tick) (members_of_live hplain.members) hkeep hkeep hmem
      (fun r hr => ⟨hplain.ids k r hr, turns_self c _ k r hr⟩) s hs).2
  · have hsame : (c.order command).2.replica? k = c.replica? k := by
      rcases c.order_cases command with heq | heq
      · rw [heq]
        rfl
      · rw [heq]
        exact replica?_tellAll_of_notMem (members_of_live hplain.members) hmem
    simp only [perform, hsame] at hs
    exact turns_self c _ k s hs

/-- **An attempt to propose** makes no candidate that outlives it. -/
theorem turns_propose (hplain : c.Plain) (host : ReplicaId) :
    ∀ k s, (c.propose host).2.replica? k = some s → c.Turns (.propose host) k s := by
  have hproposed := c.proposed host
  generalize c.propose host = x at hproposed
  cases hproposed with
  | noReplica hr => exact turns_self c _
  | unsubmitted r outcome hr hover =>
    refine forall_setReplica (turns_self c _) (Or.inl ?_)
    rw [candidate?_of_some hr]
    have hopened := r.opened
    generalize r.openProposal = x at hopened hover
    cases hopened with
    | idle | noBlock => rfl
    | proposed => cases hover
  | submitted r message hr hopen =>
    obtain ⟨⟨b, rfl⟩, -⟩ := Told.start hplain hr hopen message.encode c.tick.stamp
    -- whoever is told and is not the proposer keeps its candidate, or another replica leads
    have hkeep : ∀ stamp : Stamp, stamp.leader = c.leader → ∀ k (s : Replica) (nodes : Nat),
        s.id = k ∧ (k ≠ host → c.Turns (.propose host) k s) →
        (s.deliver .ordered (Message.proposal host b).encode stamp nodes).2.id = k ∧
          (k ≠ host → c.Turns (.propose host) k
            (s.deliver .ordered (Message.proposal host b).encode stamp nodes).2) := by
      rintro stamp hleader k s nodes ⟨hid, hs⟩
      refine ⟨(s.id_deliver _ _ _ _).trans hid, fun hk => ?_⟩
      rcases s.pending_deliver .ordered (Message.proposal host b).encode stamp nodes with
        hsame | ⟨hnone, -, hother⟩ | ⟨b', hok, -⟩
      · unfold Turns
        rw [hsame]
        exact hs hk
      · exact Or.inr (Or.inl ⟨hnone, hleader ▸ hid ▸ hother⟩)
      · exact absurd (hid.symm.trans (Message.sender_eq_of_decode hok)) hk
    have htold := (order_invariant (c := c.setReplica host r.openProposal.2) hplain.members
      (hkeep _ rfl) (forall_setReplica (fun k s hs => ⟨hplain.ids k s hs, fun _ => turns_self c _ k s hs⟩)
        ⟨r.id_openProposal.trans (hplain.ids host r hr), fun hne => absurd rfl hne⟩)).2
    intro k s hs
    rw [conclude, replica?_updateReplica] at hs
    split_ifs at hs with hk
    · -- the proposer had no candidate, and has none after it settled
      obtain ⟨t, -, rfl⟩ := Option.map_eq_some_iff.mp hs
      have hnone : r.pending = none := by
        have hopened := r.opened
        generalize r.openProposal = x at hopened hopen
        cases hopened with
        | idle | noBlock => cases hopen
        | proposed b hnone => exact hnone
      refine Or.inl ?_
      rw [t.pending_settleProposal, hk, candidate?_of_some hr, hnone]
    · exact (htold k s hs).2 hk

/-- **An operation** leaves a replica its candidate, or none if another replica leads, unless it is an
echo. -/
theorem turns_perform (hplain : c.Plain) (op : Op) :
    ∀ k s, (c.perform op).replica? k = some s → c.Turns op k s := by
  cases op with
  | request delivery command =>
    cases delivery with
    | ordered => exact turns_request hplain command
    | unordered =>
      rcases askLeader_cases hplain.members command with heq | ⟨host, stamp, -, heq⟩
      · simp only [perform, heq]
        exact turns_self c _
      · simp only [perform, heq]
        refine forall_updateReplica (turns_self c _) (c.told .unordered command stamp) (fun s hs => ?_) []
        rw [told, Replica.deliver_unordered]
        exact hs
  | register id host => exact turns_self c _
  | deregister id => exact turns_self c _
  | setLeader id => exact turns_self c _
  | observe host leader =>
    exact forall_updateReplica (turns_self c _) (fun r => ((), r.observe leader)) (fun s hs => hs) ()
  | propose host => exact turns_propose hplain host

/-- **An echo** makes its block the candidate, stamped. -/
theorem candidate?_of_echoes (hplain : c.Plain) (h : op.Echoes c k b) :
    (c.perform op).candidate? k = some (Replica.ownCandidate b c.tick.stamp) := by
  match op, h with
  | .request .ordered command, ⟨hok, hleader, hmem⟩ =>
    have hms := members_of_live hplain.members
    -- whatever the replica has, the first delivery and every later one make the same candidate
    have hfirst : ∀ (s : Replica) (nodes : Nat), s.id = k →
        (s.deliver .ordered command c.tick.stamp nodes).2.id = k ∧
          (s.deliver .ordered command c.tick.stamp nodes).2.pending =
            some (Replica.ownCandidate b c.tick.stamp) := by
      rintro s nodes hid
      refine ⟨(s.id_deliver _ _ _ _).trans hid, ?_⟩
      rw [s.deliver_own (hid.symm ▸ hok) (hleader.trans hid.symm) nodes]
      rfl
    have hend := forall_tellAll_of_mem (c := c.tick)
      (Q := fun s => s.id = k ∧ s.pending = some (Replica.ownCandidate b c.tick.stamp)) hms hfirst
      (fun s nodes hs => hfirst s nodes hs.1) hmem (hplain.ids k)
    obtain ⟨e, he, hek⟩ := List.mem_map.mp hmem
    have hlive := (List.mem_filter.mp he).2
    rw [hek] at hlive
    have hrunning : ((c.perform (.request .ordered command)).replica? k).isSome :=
      (sameNet_order hplain.members command).running k |>.trans hlive
    obtain ⟨s, hs⟩ := Option.isSome_iff_exists.mp hrunning
    rw [candidate?_of_some hs]
    simp only [perform, order_of_mem hmem] at hs
    exact (hend s hs).2

/-- **The candidate of the leader** stays as long as it leads. -/
theorem candidate?_perform_isSome (hplain : c.Plain) (op : Op) (hleader : c.leader = k)
    (h : (c.candidate? k).isSome) : ((c.perform op).candidate? k).isSome := by
  obtain ⟨r, hr, -⟩ := Option.bind_eq_some_iff.mp (Option.some_get h).symm
  obtain ⟨s, hs⟩ : ∃ s, (c.perform op).replica? k = some s := by
    rw [← Option.isSome_iff_exists, (steady_perform hplain op).2.1, hr, Option.isSome_some]
  rw [candidate?_of_some hs]
  rcases turns_perform hplain op k s hs with hsame | ⟨-, hother⟩ | ⟨b, -, hown⟩
  · rw [hsame]
    exact h
  · exact absurd hleader hother
  · rw [hown]
    rfl

/-! ### Attempts to propose -/

/-- A replica is kept from proposing by a candidate alone. -/
theorem candidate?_ne_none_of_propose (h : (c.propose k).1 = .candidatePending) : c.candidate? k ≠ none := by
  intro hnone
  have hproposed := c.proposed k
  generalize c.propose k = x at hproposed h
  cases hproposed with
  | noReplica hr => cases h
  | unsubmitted r outcome hr hover =>
    cases h
    rw [candidate?_of_some hr] at hnone
    exact Replica.openProposal_ne_candidatePending hnone hover
  | submitted r message hr hopen =>
    rw [conclude] at h
    generalize ((c.setReplica k r.openProposal.2).order message.encode) = y at h
    cases hs : y.2.replica? k with
    | none =>
      rw [updateReplica_of_none hs] at h
      cases h
    | some s =>
      rw [updateReplica_of_some hs] at h
      have hsettled := s.settled y.1
      generalize s.settleProposal y.1 = z at hsettled h
      cases hsettled <;> cases h

/-- A replica with a candidate does not propose. -/
theorem propose_of_candidate (h : (c.candidate? k).isSome) :
    ((c.propose k).1 = .candidatePending ∨ (c.propose k).1 = .notLeader) ∧
      ∀ host, (c.propose k).2.replica? host = c.replica? host := by
  obtain ⟨r, hr, hpending⟩ := Option.bind_eq_some_iff.mp (Option.some_get h).symm
  have hopen := Replica.openProposal_of_pending (hpending ▸ Option.isSome_some)
  have hpropose : c.propose k = (if r.leads then .candidatePending else .notLeader, c.setReplica k r) := by
    simp only [propose, openProposal, updateReplica_of_some hr, hopen]
  rw [hpropose]
  refine ⟨?_, fun host => ?_⟩
  · cases r.leads with
    | false => exact Or.inr rfl
    | true => exact Or.inl rfl
  · rw [replica?_setReplica]
    split_ifs with hk
    · rw [hk, hr]
    · rfl

/-! ### Runs -/

/-- In step `i` of the run a client orders a proposal in the name of the leader. -/
def EchoedAt (c : Cluster) (ops : List Op) (i : Nat) (k : ReplicaId) (b : Block) : Prop :=
  ∃ op, ops[i]? = some op ∧ op.Echoes (c.stage ops i) k b

section

variable (hplain : c.Plain)

include hplain

/-- **Along a run** every candidate is an echo. -/
theorem candidate_stage (hnone : ∀ k, c.candidate? k = none) {x : Candidate}
    (hx : (c.stage ops i).candidate? k = some x) :
    ∃ j < i, ∃ b, c.EchoedAt ops j k b ∧ x = Replica.ownCandidate b (c.stage ops j).tick.stamp := by
  induction i with
  | zero =>
    rw [show c.stage ops 0 = c from rfl, hnone] at hx
    cases hx
  | succ i ih =>
    have hbefore : (c.stage ops i).candidate? k = some x → ∃ j < i + 1, ∃ b, c.EchoedAt ops j k b ∧
        x = Replica.ownCandidate b (c.stage ops j).tick.stamp := fun h =>
      let ⟨j, hj, hecho⟩ := ih h
      ⟨j, Nat.lt_succ_of_lt hj, hecho⟩
    cases hop : ops[i]? with
    | none =>
      have hlength : ops.length ≤ i := List.getElem?_eq_none_iff.mp hop
      rw [stage_of_length_le (Nat.le_succ_of_le hlength), ← stage_of_length_le hlength] at hx
      exact hbefore hx
    | some op =>
      rw [stage_succ hop] at hx
      obtain ⟨s, hs, hpending⟩ := Option.bind_eq_some_iff.mp hx
      rcases turns_perform (hplain.run _) op k s hs with hsame | ⟨hgone, -⟩ | ⟨b, hecho, hown⟩
      · exact hbefore (hsame.symm.trans hpending)
      · rw [hgone] at hpending
        cases hpending
      · rw [hown] at hpending
        exact ⟨i, Nat.lt_succ_self i, b, ⟨op, hop, hecho⟩, (Option.some.inj hpending).symm⟩

/-- **From an echo on**, the replica leads and has a candidate until the leader is changed. -/
theorem blocked_stage (hecho : c.EchoedAt ops j k b) (hij : j < i)
    (hfixed : ∀ n, j < n → n < i → ∀ id, ops[n]? ≠ some (.setLeader id)) :
    (c.stage ops i).leader = k ∧ ((c.stage ops i).candidate? k).isSome := by
  induction hij with
  | refl =>
    obtain ⟨op, hop, hecho⟩ := hecho
    have hplain' : (c.stage ops j).Plain := hplain.run _
    rw [stage_succ hop, candidate?_of_echoes hplain' hecho]
    refine ⟨?_, rfl⟩
    match op, hecho with
    | .request .ordered command, ⟨_, hleader, _⟩ =>
      exact ((steady_perform hplain' _).1 fun _ h => by cases h).trans hleader
  | @step i hij ih =>
    obtain ⟨hleader, hsome⟩ := ih fun n hj hn => hfixed n hj (Nat.lt_succ_of_lt hn)
    cases hop : ops[i]? with
    | none =>
      have hlength : ops.length ≤ i := List.getElem?_eq_none_iff.mp hop
      rw [stage_of_length_le (Nat.le_succ_of_le hlength), ← stage_of_length_le hlength]
      exact ⟨hleader, hsome⟩
    | some op =>
      have hplain' : (c.stage ops i).Plain := hplain.run _
      have hother : ∀ id, op ≠ .setLeader id := by
        rintro id rfl
        exact hfixed i hij (Nat.lt_succ_self i) id hop
      rw [stage_succ hop]
      exact ⟨((steady_perform hplain' op).1 hother).trans hleader,
        candidate?_perform_isSome hplain' op hleader hsome⟩

/-- **Echoes, and nothing else, block proposals.** In a run of a plain cluster, from a state without
candidates on, a replica has a candidate between two steps, or is kept from proposing by one, only if a
client ordered a proposal in its name before, while it led. After such a step, until the leader is
changed, the replica has a candidate, and its attempts to propose have no effect. -/
theorem blocked_iff_echoed (hnone : ∀ k, c.candidate? k = none) (ops : List Op) (i : Nat) (k : ReplicaId) :
    (((c.stage ops i).candidate? k).isSome → ∃ j < i, ∃ b, c.EchoedAt ops j k b) ∧
      (((c.stage ops i).propose k).1 = .candidatePending → ∃ j < i, ∃ b, c.EchoedAt ops j k b) ∧
      ∀ j < i, (∃ b, c.EchoedAt ops j k b) →
        (∀ n, j < n → n < i → ∀ id, ops[n]? ≠ some (.setLeader id)) →
        ((c.stage ops i).candidate? k).isSome ∧
          (((c.stage ops i).propose k).1 = .candidatePending ∨ ((c.stage ops i).propose k).1 = .notLeader) ∧
          ∀ host, ((c.stage ops i).propose k).2.replica? host = (c.stage ops i).replica? host := by
  have horigin : ((c.stage ops i).candidate? k).isSome → ∃ j < i, ∃ b, c.EchoedAt ops j k b := by
    intro hsome
    obtain ⟨x, hx⟩ := Option.isSome_iff_exists.mp hsome
    obtain ⟨j, hj, b, hecho, -⟩ := candidate_stage hplain hnone hx
    exact ⟨j, hj, b, hecho⟩
  refine ⟨horigin, fun hpending => horigin ?_, fun j hij ⟨b, hecho⟩ hfixed => ?_⟩
  · exact Option.isSome_iff_ne_none.mpr (candidate?_ne_none_of_propose hpending)
  · obtain ⟨-, hsome⟩ := blocked_stage hplain hecho hij hfixed
    exact ⟨hsome, propose_of_candidate hsome⟩

end

/-- A transaction is submitted and proposed, and the proposal of the block is delivered again. -/
def replayed (b : Block) : List Op :=
  [submission, .propose 0, .request .ordered (Message.proposal 0 b).encode]

/-- A block that was committed is delivered again: the echo is in the third step, and the proposer has a candidate
after it. -/
theorem blocked_iff_echoed_replayed : ∃ b, ((pair [0, 1]).run [submission]).proposal? 0 = some b ∧
    (∃ j < 3, ∃ b', (pair [0, 1]).EchoedAt (replayed b) j 0 b') ∧
    (((pair [0, 1]).stage (replayed b) 3).candidate? 0).isSome := by
  have hchecked : (((pair [0, 1]).run [submission]).proposal? 0).any (fun b =>
      decide (Wire.FitsSize b.encode.length ∧ ((pair [0, 1]).stage (replayed b) 2).leader = 0 ∧
        Member.replica 0 ∈ ((pair [0, 1]).stage (replayed b) 2).live.map Prod.snd)) = true := by decide +kernel
  obtain ⟨b, hb, hchecks⟩ := (Option.any_eq_true _ _).mp hchecked
  obtain ⟨hfits, hleader, hlive⟩ := of_decide_eq_true hchecks
  have hecho : (pair [0, 1]).EchoedAt (replayed b) 2 0 b := ⟨_, rfl, Message.decode_encode hfits, hleader, hlive⟩
  have hnone : ∀ k, (pair [0, 1]).candidate? k = none := fun k =>
    Option.bind_eq_none_iff.mpr fun r hr => ((ready_pair [0, 1]) k r hr).1
  obtain ⟨horigin, -, hblocked⟩ := blocked_iff_echoed (plain_pair [0, 1]) hnone (replayed b) 3 0
  obtain ⟨hsome, -⟩ := hblocked 2 (by decide) ⟨b, hecho⟩ fun n h h' => absurd h' (by omega)
  exact ⟨b, hb, horigin hsome, hsome⟩

/-- **A replayed proposal blocks its proposer**: the proposer commits the block, the proposal is delivered again,
and then the proposer has a candidate and does not propose any more. -/
theorem exists_blocked : ∃ b, ((pair [0, 1]).run [submission]).proposal? 0 = some b ∧
    (((pair [0, 1]).run [submission]).propose 0).1 = .committed 1 1 ∧
    (((pair [0, 1]).run (replayed b)).candidate? 0).isSome ∧
    (((pair [0, 1]).run (replayed b)).propose 0).1 = .candidatePending := by
  have hchecked : (((pair [0, 1]).run [submission]).proposal? 0).any (fun b =>
      decide ((((pair [0, 1]).run [submission]).propose 0).1 = .committed 1 1 ∧
        (((pair [0, 1]).run (replayed b)).candidate? 0).isSome ∧
        (((pair [0, 1]).run (replayed b)).propose 0).1 = .candidatePending)) = true := by decide +kernel
  obtain ⟨b, hb, hchecks⟩ := (Option.any_eq_true _ _).mp hchecked
  exact ⟨b, hb, of_decide_eq_true hchecks⟩

end Cluster

end ReplicatedLedger
