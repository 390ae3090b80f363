import ReplicatedLedger.Proofs.Codec.Block
import ReplicatedLedger.Proofs.Replica.Steps

/-! # What a round of a proposal does to a replica

While a candidate is pending its transactions are withheld from the pool (`Withholds`). At the end of a
round they are on the ledger (`Commits`) or back in the pool (`Rests`): giving back a candidate leaves
the pending hashes as they were (`Withholds.giveBack`), and gaining a block that agrees with it takes
exactly the hashes of the block away (`Withholds.gains`). A replica to which a proposal of another is
delivered, once or several times, rests or commits the proposed block, and accepts only if its tip
agrees with it in the end (`Ends.deliver`). -/

namespace ReplicatedLedger

theorem Block.mem_map_hash_ordered (b : Block) (hash : Digest) :
    hash ∈ b.ordered.map (·.hash) ↔ b.contains hash = true := by
  rw [(b.ordered_perm_values.map _).mem_iff, b.keyed.map_hash_values, Block.contains, SortedMap.contains_iff]

namespace Replica

/-! ### Ends of a round -/

/-- The replica keeps its ledger and its pending transactions. -/
structure Rests (r s : Replica) : Prop where
  id : s.id = r.id
  ledger : r.ledger.Keeps s.ledger
  pending : s.pending = none
  reachable : s.pool.Reachable
  pool : ∀ hash, s.pool.contains hash = r.pool.contains hash

/-- The ledger gains the block on top of its tip, and the transactions of the block leave the pool. -/
structure Commits (r : Replica) (b : Block) (s : Replica) : Prop where
  id : s.id = r.id
  ledger : r.ledger.Gains b s.ledger
  height : b.height.toNat = r.ledger.tip.height.toNat + 1
  previous : b.header.previous = some r.ledger.tip.hash
  pending : s.pending = none
  reachable : s.pool.Reachable
  held : ∀ hash, b.contains hash = true → r.pool.contains hash = true
  pool : ∀ hash, s.pool.contains hash = (r.pool.contains hash && !b.contains hash)

/-- The replica keeps its ledger, and withholds from its pool the transactions of a block built on its
tip. -/
structure Withholds (r : Replica) (b : Block) (s : Replica) : Prop where
  id : s.id = r.id
  ledger : r.ledger.Keeps s.ledger
  builtOn : b.BuiltOn r.ledger.tip
  reachable : s.pool.Reachable
  held : ∀ hash, b.contains hash = true → r.pool.contains hash = true
  pool : ∀ hash, s.pool.contains hash = (r.pool.contains hash && !b.contains hash)

variable {r s t : Replica} {b c : Block}

theorem Rests.refl (hp : r.pool.Reachable) (hnone : r.pending = none) : r.Rests r :=
  ⟨rfl, Ledger.Keeps.refl _, hnone, hp, fun _ => rfl⟩

theorem Rests.trans (h : r.Rests s) (h' : s.Rests t) : r.Rests t where
  id := h'.id.trans h.id
  ledger := h.ledger.trans h'.ledger
  pending := h'.pending
  reachable := h'.reachable
  pool hash := (h'.pool hash).trans (h.pool hash)

theorem Rests.trans_commits (h : r.Rests s) (h' : s.Commits b t) : r.Commits b t where
  id := h'.id.trans h.id
  ledger := h.ledger.trans_gains h'.ledger
  height := h.ledger.tip_eq ▸ h'.height
  previous := h.ledger.tip_eq ▸ h'.previous
  pending := h'.pending
  reachable := h'.reachable
  held hash hb := (h.pool hash).symm.trans (h'.held hash hb)
  pool hash := by rw [h'.pool, h.pool]

theorem Withholds.of_agrees (h : r.Withholds b s) (hagrees : agrees b c = true) : r.Withholds c s where
  id := h.id
  ledger := h.ledger
  builtOn := builtOn_of_agrees hagrees h.builtOn
  reachable := h.reachable
  held hash hc := h.held hash (contains_of_agrees hagrees hash ▸ hc)
  pool hash := by rw [h.pool, contains_of_agrees hagrees]

/-- **Giving back** what was withheld restores the pending hashes. -/
theorem Withholds.giveBack {c : Candidate} {m : Ledger} (h : r.Withholds c.block s)
    (hkeeps : s.ledger.Keeps m) : r.Rests (s.giveBack c m) where
  id := h.id
  ledger := h.ledger.trans hkeeps
  pending := rfl
  reachable := h.reachable.requeue _
  pool hash := by
    rw [Bool.eq_iff_iff, Replica.giveBack, Pool.contains_requeue, Block.mem_map_hash_ordered, h.pool,
      Bool.and_eq_true, Bool.not_eq_true']
    constructor
    · rintro (⟨hold, -⟩ | hblock)
      · exact hold
      · exact h.held hash hblock
    · intro hold
      cases hblock : c.block.contains hash with
      | true => exact Or.inr rfl
      | false => exact Or.inl ⟨hold, rfl⟩

/-- **Gaining** the block that was withheld commits it. -/
theorem Withholds.gains {m : Ledger} (h : r.Withholds b s) (hgains : s.ledger.Gains b m) :
    r.Commits b { s with pending := none, ledger := m } where
  id := h.id
  ledger := h.ledger.trans_gains hgains
  height := (h.ledger.trans_gains hgains).toNat_height h.builtOn
  previous := h.builtOn.previous
  pending := rfl
  reachable := h.reachable
  held := h.held
  pool := h.pool

/-! ### Taking a batch -/

theorem contains_candidate (hp : r.pool.Reachable) {n : Nat} (hok : r.candidate (r.pool.queue.take n) = .ok b)
    (hash : Digest) : b.contains hash = true ↔ hash ∈ (r.pool.queue.take n).map (·.hash) := by
  have hnodup := Pool.nodup_map_hash_take hp.consistent n
  rw [Block.contains, (candidate_builtOn hok).2, SortedMap.contains, Option.isSome_iff_exists, List.mem_map]
  simp only [TxMap.get?_ofTransactions_eq_some_iff hnodup]

/-- The batch of a candidate is withheld. -/
theorem withholds_of_candidate (hp : r.pool.Reachable) {n : Nat} (hn : n ≤ r.pool.size)
    (hok : r.candidate (r.pool.queue.take n) = .ok b) (pending : Option Candidate) :
    r.Withholds b { r with pool := (r.pool.take n).2, pending } where
  id := rfl
  ledger := Ledger.Keeps.refl _
  builtOn := (candidate_builtOn hok).1
  reachable := hp.take n
  held hash hb := Pool.contains_of_mem_take hp.consistent ((contains_candidate hp hok hash).mp hb)
  pool hash := by
    rw [Bool.eq_iff_iff, Pool.contains_take hn, Bool.and_eq_true, Bool.not_eq_true', ← Bool.not_eq_true,
      contains_candidate hp hok]

/-- A batch that makes no block goes back whole. -/
theorem rests_of_noBlock (hp : r.pool.Reachable) (hnone : r.pending = none) {n : Nat} (hn : n ≤ r.pool.size) :
    r.Rests { r with pool := ((r.pool.take n).2.requeue (r.pool.queue.take n)).2 } where
  id := rfl
  ledger := Ledger.Keeps.refl _
  pending := hnone
  reachable := (hp.take n).requeue _
  pool hash := Bool.eq_iff_iff.mpr (Pool.contains_requeue_take hp.consistent hn (fun _ => Iff.rfl) hash)

/-- A replica without a candidate rests, or withholds the batch of one. -/
theorem ensureCandidate_of_none (hp : r.pool.Reachable) (hnone : r.pending = none) :
    r.Rests r.ensureCandidate ∨
      ∃ b, r.Withholds b r.ensureCandidate ∧ r.ensureCandidate.pending = some ⟨b, false⟩ := by
  have hsame : r.Rests r := .refl hp hnone
  obtain heq | ⟨-, n, heq⟩ := r.ensureCandidate_cases
  · rw [heq]
    exact Or.inl hsame
  · rw [heq]
    have hassembled := r.assembled n
    generalize r.assemble n = x at hassembled
    cases hassembled with
    | few e => exact Or.inl hsame
    | noBlock hn => exact Or.inl (rests_of_noBlock hp hnone hn)
    | taken b hn hok => exact Or.inr ⟨b, withholds_of_candidate hp hn hok _, rfl⟩

/-! ### Proposals of others -/

/-- A replica without a candidate that considers a block rests or commits it, and accepts if it commits. -/
theorem consider_of_none (hp : r.pool.Reachable) (hnone : r.pending = none) (b : Block) :
    r.Rests (r.consider b).2 ∧ (r.consider b).1 = .bool false ∨
      r.Commits b (r.consider b).2 ∧ (r.consider b).1 = .bool true := by
  have hensured := ensureCandidate_of_none hp hnone
  have hconsidered := r.considered b
  generalize r.consider b = x at hconsidered
  cases hconsidered with
  | noCandidate hpending =>
    rcases hensured with hrests | ⟨c, -, hc⟩
    · exact Or.inl ⟨hrests, rfl⟩
    · rw [hpending] at hc
      cases hc
  | gained c m hpending hagrees hgains =>
    rcases hensured with hrests | ⟨d, hwithholds, hd⟩
    · rw [hrests.pending] at hpending
      cases hpending
    · rw [hpending] at hd
      cases hd
      rw [← ledger_ensureCandidate] at hgains
      exact Or.inr ⟨(hwithholds.of_agrees hagrees).gains hgains, rfl⟩
  | refused c m hpending hkeeps =>
    rcases hensured with hrests | ⟨d, hwithholds, hd⟩
    · rw [hrests.pending] at hpending
      cases hpending
    · rw [hpending] at hd
      cases hd
      rw [← ledger_ensureCandidate] at hkeeps
      exact Or.inl ⟨hwithholds.giveBack hkeeps, rfl⟩

/-- The round is over for the replica, up to who leads. -/
def Ends (r : Replica) (b : Block) (s : Replica) : Prop := r.Rests s ∨ r.Commits b s

theorem Ends.observe (h : r.Ends b s) (leader : ReplicaId) : r.Ends b (s.observe leader) :=
  h.imp (fun h => ⟨h.id, h.ledger, h.pending, h.reachable, h.pool⟩)
    fun h => ⟨h.id, h.ledger, h.height, h.previous, h.pending, h.reachable, h.held, h.pool⟩

theorem Ends.id (h : r.Ends b s) : s.id = r.id := h.elim Rests.id Commits.id

/-- **A proposal of another**, delivered once more in a round: the replica rests or commits the block,
stamped, and accepts only if its tip agrees with the block then. -/
theorem Ends.deliver {command : Bytes} {sender : ReplicaId} {stamp : Stamp}
    (h : r.Ends (b.restamp stamp.timestamp stamp.nonce) s)
    (hcommand : Message.decode command = .ok (.proposal sender b)) (hother : sender ≠ r.id) (nodes : Nat) :
    r.Ends (b.restamp stamp.timestamp stamp.nonce) (s.deliver .ordered command stamp nodes).2 ∧
      ∃ v, (s.deliver .ordered command stamp nodes).1 = .bool v ∧
        (v = true → agrees (s.deliver .ordered command stamp nodes).2.ledger.tip b = true) := by
  have hobserve := h.observe stamp.leader
  have hid : s.id = r.id := h.id
  have hdelivered := s.delivered .ordered command stamp nodes
  generalize s.deliver .ordered command stamp nodes = x at hdelivered
  cases hdelivered with
  | idle reply hno => exact ⟨hobserve, false, hno _ _ hcommand, fun hv => by cases hv⟩
  | queued ts reply hno => exact absurd hcommand (hno _ _)
  | own d hok hleads =>
    rw [hcommand] at hok
    cases hok
    exact absurd hid hother
  | known d hok hne hagrees =>
    rw [hcommand] at hok
    cases hok
    exact ⟨hobserve, true, rfl, fun _ => hagrees⟩
  | considered d hok hne hnew =>
    rw [hcommand] at hok
    cases hok
    rcases hobserve with hrests | hcommits
    · rcases consider_of_none hrests.reachable hrests.pending (b.restamp stamp.timestamp stamp.nonce) with
        ⟨hrests', hreply⟩ | ⟨hcommits, hreply⟩
      · exact ⟨Or.inl (hrests.trans hrests'), false, hreply, fun hv => by cases hv⟩
      · refine ⟨Or.inr (hrests.trans_commits hcommits), true, hreply, fun _ => ?_⟩
        rw [hcommits.ledger.tip_eq]
        exact agrees_restamp _ _ _
    · -- a replica that has committed the block does not consider it again
      have htip : s.ledger.tip = b.restamp stamp.timestamp stamp.nonce := hcommits.ledger.tip_eq
      rw [htip, agrees_restamp] at hnew
      cases hnew

/-! ### Proposals of its own -/

/-- The replica waits for its proposal of the block, which may have come back with the stamp. -/
structure Awaits (r : Replica) (b : Block) (stamp : Stamp) (s : Replica) : Prop where
  withholds : r.Withholds b s
  pending : s.pending = some ⟨b, false⟩ ∨ s.pending = some ⟨b.restamp stamp.timestamp stamp.nonce, true⟩

theorem Awaits.observe {stamp : Stamp} (h : r.Awaits b stamp s) (leader : ReplicaId) :
    r.Awaits b stamp (s.observe leader) := by
  obtain ⟨⟨hid, hledger, hbuilt, hreachable, hheld, hpool⟩, hpending⟩ := h
  exact ⟨⟨hid, hledger, hbuilt, hreachable, hheld, hpool⟩, hpending⟩

theorem agrees_self_restamp (b : Block) (timestamp : Int64) (nonce : Bytes) :
    agrees b (b.restamp timestamp nonce) = true := agrees_iff.mpr ⟨rfl, rfl, rfl⟩

/-- What a replica without a candidate does when it begins to propose. -/
theorem openProposal_of_none (hp : r.pool.Reachable) (hnone : r.pending = none) :
    (∃ outcome, r.openProposal.1 = .over outcome ∧ (∀ h n, outcome ≠ .committed h n) ∧
      r.Rests r.openProposal.2) ∨
    ∃ b, r.candidate (r.pool.queue.take r.settings.proposals.batch) = .ok b ∧
      r.openProposal.1 = .submit (.proposal r.id b) ∧ ∀ stamp, r.Awaits b stamp r.openProposal.2 := by
  have hopened := r.opened
  generalize r.openProposal = x at hopened
  cases hopened with
  | idle outcome hno =>
    exact Or.inl ⟨outcome, rfl, hno, rfl, Ledger.Keeps.refl _, hnone, hp, fun _ => rfl⟩
  | noBlock outcome hno hle => exact Or.inl ⟨outcome, rfl, hno, rests_of_noBlock hp hnone hle⟩
  | proposed b _ hle hok =>
    exact Or.inr ⟨b, hok, rfl, fun stamp => ⟨withholds_of_candidate hp hle hok _, Or.inl rfl⟩⟩

/-- **A proposal of its own**, delivered once more in a round: the replica still waits for it. -/
theorem Awaits.deliver {command : Bytes} {stamp : Stamp} (h : r.Awaits b stamp s)
    (hcommand : Message.decode command = .ok (.proposal r.id b)) (nodes : Nat) :
    r.Awaits b stamp (s.deliver .ordered command stamp nodes).2 ∧
      ∃ v, (s.deliver .ordered command stamp nodes).1 = .bool v := by
  have hid : s.id = r.id := h.withholds.id
  obtain ⟨⟨-, hledger, hbuilt, hreachable, hheld, hpool⟩, hpending⟩ := h
  have hdelivered := s.delivered .ordered command stamp nodes
  generalize s.deliver .ordered command stamp nodes = x at hdelivered
  cases hdelivered with
  | idle reply hno =>
    exact ⟨⟨⟨hid, hledger, hbuilt, hreachable, hheld, hpool⟩, hpending⟩, false, hno _ _ hcommand⟩
  | queued ts reply hno => exact absurd hcommand (hno _ _)
  | own d hok hleads =>
    rw [hcommand] at hok
    obtain ⟨-, rfl⟩ := Message.proposal.inj (Except.ok.inj hok)
    exact ⟨⟨⟨hid, hledger, hbuilt, hreachable, hheld, hpool⟩, Or.inr rfl⟩, true, rfl⟩
  | known d hok hne _ =>
    rw [hcommand] at hok
    obtain ⟨hleader, -⟩ := Message.proposal.inj (Except.ok.inj hok)
    exact absurd (hleader.symm.trans hid.symm) hne
  | considered d hok hne _ =>
    rw [hcommand] at hok
    obtain ⟨hleader, -⟩ := Message.proposal.inj (Except.ok.inj hok)
    exact absurd (hleader.symm.trans hid.symm) hne

/-- **The end of its own proposal**: the replica commits the block, stamped, if the answer accepts it,
and otherwise rests. -/
theorem Awaits.settle {stamp : Stamp} (h : r.Awaits b stamp s) (answer : Except SubstrateError Bytes) :
    (∃ n, (s.settleProposal answer).1 = .rejected n ∧ r.Rests (s.settleProposal answer).2) ∨
      (s.settleProposal answer).1 = .committed b.height b.count ∧ accepts answer = true ∧
      r.Commits (b.restamp stamp.timestamp stamp.nonce) (s.settleProposal answer).2 := by
  obtain ⟨hwithholds, hpending⟩ := h
  have hstamped := hwithholds.of_agrees (agrees_self_restamp b stamp.timestamp stamp.nonce)
  have hsettled := s.settled answer
  generalize s.settleProposal answer = x at hsettled
  cases hsettled with
  | noCandidate hnone => simp [hnone] at hpending
  | committed c m hc haccepts hstamp hgains =>
    rw [hc] at hpending
    rcases hpending with heq | heq
    · cases heq
      cases hstamp
    · cases heq
      exact Or.inr ⟨rfl, haccepts, hstamped.gains hgains⟩
  | refused c m n hc hkeeps =>
    refine Or.inl ⟨n, rfl, ?_⟩
    rw [hc] at hpending
    rcases hpending with heq | heq
    · cases heq
      exact hwithholds.giveBack hkeeps
    · cases heq
      exact hstamped.giveBack hkeeps

end Replica

end ReplicatedLedger
