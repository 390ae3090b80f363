import ReplicatedLedger.Replica.Delivery
import ReplicatedLedger.Replica.Proposal
import ReplicatedLedger.Proofs.Ledger.Growth
import ReplicatedLedger.Proofs.Pool

/-! # What a replica does in one step

For each transition of a replica, all that can come of it: of taking a batch (`assembled`), of
considering a proposal (`considered`), of taking in a command (`delivered`), and of beginning and ending
a proposal (`opened`, `settled`). A block comes to the ledger in two ways only: another replica's
proposal that agrees with the candidate, and the replica's own candidate that came back stamped. -/

namespace ReplicatedLedger

/-! ### Blocks that agree -/

theorem Block.BuiltOn.restamp {b parent : Block} (h : b.BuiltOn parent) (timestamp : Int64) (nonce : Bytes) :
    (b.restamp timestamp nonce).BuiltOn parent := ⟨h.height, h.previous⟩

namespace Replica

theorem agrees_iff {a b : Block} : agrees a b = true ↔
    a.height = b.height ∧ a.header.previous = b.header.previous ∧ a.txs.keys = b.txs.keys := by
  simp [agrees, Block.sameTransactions, and_assoc]

theorem agrees_restamp (b : Block) (timestamp : Int64) (nonce : Bytes) :
    agrees (b.restamp timestamp nonce) b = true := agrees_iff.mpr ⟨rfl, rfl, rfl⟩

theorem builtOn_of_agrees {a b parent : Block} (h : agrees a b = true) (ha : a.BuiltOn parent) :
    b.BuiltOn parent := by
  obtain ⟨hheight, hprevious, -⟩ := agrees_iff.mp h
  exact ⟨hheight ▸ ha.height, hprevious ▸ ha.previous⟩

theorem contains_of_agrees {a b : Block} (h : agrees a b = true) (hash : Digest) :
    a.contains hash = b.contains hash := by
  obtain ⟨-, -, hkeys⟩ := agrees_iff.mp h
  rw [Bool.eq_iff_iff, Block.contains, Block.contains, SortedMap.contains_iff, SortedMap.contains_iff, hkeys]

/-! ### Taking a batch -/

variable {r : Replica}

/-- A candidate is built on the tip. -/
theorem candidate_builtOn {ts : List Transaction} {b : Block} (h : r.candidate ts = .ok b) :
    b.BuiltOn r.ledger.tip ∧ b.txs = TxMap.ofTransactions ts := by
  unfold candidate Block.ofList Block.assemble at h
  dsimp only at h
  split at h
  · cases h
  · split at h
    · cases h
      exact ⟨⟨rfl, rfl⟩, rfl⟩
    · cases h

/-- What can come of taking the `n` oldest arrivals into a candidate. -/
inductive Assembled (r : Replica) (n : Nat) : Except PoolError (Option Block) × Replica → Prop where
  /-- There are too few. -/
  | few (e : PoolError) : Assembled r n (.error e, r)
  /-- They make no block, and went back. -/
  | noBlock (le : n ≤ r.pool.size) :
      Assembled r n (.ok none, { r with pool := ((r.pool.take n).2.requeue (r.pool.queue.take n)).2 })
  /-- Their block is the candidate. -/
  | taken (b : Block) (le : n ≤ r.pool.size) (eq_ok : r.candidate (r.pool.queue.take n) = .ok b) :
      Assembled r n (.ok (some b), { r with pool := (r.pool.take n).2, pending := some ⟨b, false⟩ })

theorem assembled (r : Replica) (n : Nat) : r.Assembled n (r.assemble n) := by
  rcases Nat.lt_or_ge r.pool.size n with hlt | hle
  · unfold assemble
    rw [Pool.take_of_lt hlt]
    exact .few _
  · -- the candidate does not depend on the pool that is left
    have hcandidate : candidate { r with pool := (r.pool.take n).2 } (r.pool.queue.take n) =
        r.candidate (r.pool.queue.take n) := rfl
    unfold assemble
    rw [Pool.take_eq_ok hle]
    dsimp only
    rw [hcandidate]
    cases hc : r.candidate (r.pool.queue.take n) with
    | error e => exact .noBlock hle
    | ok b => exact .taken b hle hc

/-! ### Proposals of others -/

/-- A replica keeps its candidate, or assembles one from a batch that is not larger than its pool. -/
theorem ensureCandidate_cases (r : Replica) :
    r.ensureCandidate = r ∨ r.pending = none ∧ ∃ n, r.ensureCandidate = (r.assemble n).2 := by
  unfold ensureCandidate
  cases hp : r.pending with
  | some c => exact Or.inl (by simp)
  | none =>
    by_cases hn : min r.settings.proposals.batch r.pool.size = 0
    · exact Or.inl (by simp [hn])
    · exact Or.inr ⟨rfl, min r.settings.proposals.batch r.pool.size, by simp [hn]⟩

theorem ledger_assemble (r : Replica) (n : Nat) : (r.assemble n).2.ledger = r.ledger := by
  have h := r.assembled n
  generalize r.assemble n = x at h
  cases h <;> rfl

theorem id_assemble (r : Replica) (n : Nat) : (r.assemble n).2.id = r.id := by
  have h := r.assembled n
  generalize r.assemble n = x at h
  cases h <;> rfl

theorem ledger_ensureCandidate (r : Replica) : r.ensureCandidate.ledger = r.ledger := by
  obtain h | ⟨-, n, h⟩ := r.ensureCandidate_cases
  · rw [h]
  · rw [h, ledger_assemble]

theorem id_ensureCandidate (r : Replica) : r.ensureCandidate.id = r.id := by
  obtain h | ⟨-, n, h⟩ := r.ensureCandidate_cases
  · rw [h]
  · rw [h, id_assemble]

/-- The replica, with the ledger `m`, after its candidate was dropped: the transactions are back in the
pool. -/
def giveBack (r : Replica) (c : Candidate) (m : Ledger) : Replica :=
  { r with pending := none, ledger := m, pool := (r.pool.requeue c.block.ordered).2 }

/-- What can come of considering a proposed block. -/
inductive Considered (r : Replica) (b : Block) : Reply × Replica → Prop where
  /-- There is no candidate. -/
  | noCandidate (pending : r.ensureCandidate.pending = none) : Considered r b (.bool false, r.ensureCandidate)
  /-- The block agrees with the candidate, and the ledger gains it. -/
  | gained (c : Candidate) (m : Ledger) (pending : r.ensureCandidate.pending = some c)
      (agrees : agrees c.block b = true) (gains : r.ledger.Gains b m) :
      Considered r b (.bool true, { r.ensureCandidate with pending := none, ledger := m })
  /-- The transactions of the candidate went back. -/
  | refused (c : Candidate) (m : Ledger) (pending : r.ensureCandidate.pending = some c)
      (keeps : r.ledger.Keeps m) : Considered r b (.bool false, r.ensureCandidate.giveBack c m)

theorem considered (r : Replica) (b : Block) : r.Considered b (r.consider b) := by
  unfold consider
  dsimp only
  cases hp : r.ensureCandidate.pending with
  | none => exact .noCandidate hp
  | some c =>
    dsimp only
    by_cases hagrees : agrees c.block b = true
    · rw [if_pos hagrees, ledger_ensureCandidate]
      obtain ⟨m, hadd, hkeeps⟩ | ⟨m, hadd, hgains⟩ := r.ledger.add_cases b
      · rw [hadd]
        exact .refused c m hp hkeeps
      · rw [hadd]
        exact .gained c m hp hagrees hgains
    · rw [if_neg hagrees]
      exact .refused c r.ensureCandidate.ledger hp (ledger_ensureCandidate r ▸ Ledger.Keeps.refl _)

/-! ### Commands -/

/-- The replica after a proposal of its own was delivered. -/
def takeOwn (r : Replica) (b : Block) (stamp : Stamp) : Replica :=
  { r.observe stamp.leader with pending := some ⟨b.restamp stamp.timestamp stamp.nonce, true⟩ }

/-- What can come of taking in a command. -/
inductive Delivered (r : Replica) (delivery : Delivery) (command : Bytes) (stamp : Stamp) :
    Reply × Replica → Prop where
  /-- Nothing but the leader is remembered. -/
  | idle (reply : Reply)
      (noVote : ∀ sender b, Message.decode command = .ok (.proposal sender b) → reply = .bool false) :
      Delivered r delivery command stamp (reply, r.observe stamp.leader)
  /-- Transactions are queued. -/
  | queued (ts : List Transaction) (reply : Reply)
      (noProposal : ∀ sender b, Message.decode command ≠ .ok (.proposal sender b)) :
      Delivered r delivery command stamp
        (reply, { r.observe stamp.leader with pool := (r.pool.addBatch ts).2 })
  /-- The replica's own proposal came back. -/
  | own (b : Block) (eq_ok : Message.decode command = .ok (.proposal r.id b)) (leads : stamp.leader = r.id)
      (ordered : delivery = .ordered) : Delivered r delivery command stamp (.bool true, r.takeOwn b stamp)
  /-- Another's proposal is the tip already. -/
  | known (b : Block) (eq_ok : Message.decode command = .ok (.proposal stamp.leader b))
      (other : stamp.leader ≠ r.id) (agrees : agrees r.ledger.tip b = true) (ordered : delivery = .ordered) :
      Delivered r delivery command stamp (.bool true, r.observe stamp.leader)
  /-- Another's proposal is considered. -/
  | considered (b : Block) (eq_ok : Message.decode command = .ok (.proposal stamp.leader b))
      (other : stamp.leader ≠ r.id) (new : Replica.agrees r.ledger.tip b = false)
      (ordered : delivery = .ordered) : Delivered r delivery command stamp
        ((r.observe stamp.leader).consider (b.restamp stamp.timestamp stamp.nonce))

theorem delivered_client {delivery : Delivery} {command : Bytes} {stamp : Stamp} {request : Request}
    (h : Message.decode command = .ok (.client request)) (nodes : Nat) :
    r.Delivered delivery command stamp
      ((r.observe stamp.leader).handle delivery stamp nodes (.client request)) := by
  have hno : ∀ sender b, Message.decode command ≠ .ok (.proposal sender b) := by
    intro sender b h'
    rw [h] at h'
    cases h'
  have hidle : ∀ reply, r.Delivered delivery command stamp (reply, r.observe stamp.leader) := fun reply =>
    .idle reply fun sender b h' => absurd h' (hno sender b)
  have hadd : ∀ raws, r.Delivered delivery command stamp ((r.observe stamp.leader).addTransactions raws) := by
    intro raws
    unfold addTransactions
    split
    · exact hidle _
    · exact .queued _ _ hno
  cases delivery with
  | unordered => exact hidle _
  | ordered =>
    cases request with
    | add raw => exact hadd _
    | addBatch raws => exact hadd _
    | _ => exact hidle _

theorem delivered (r : Replica) (delivery : Delivery) (command : Bytes) (stamp : Stamp) (nodes : Nat) :
    r.Delivered delivery command stamp (r.deliver delivery command stamp nodes) := by
  unfold deliver
  cases hdecode : Message.decode command with
  | error e => exact .idle _ fun sender b h => by simp [hdecode] at h
  | ok message =>
    cases message with
    | client request => exact delivered_client hdecode nodes
    | proposal sender b =>
      cases delivery with
      | unordered => exact .idle _ fun _ _ _ => rfl
      | ordered =>
        dsimp only [handle, vote]
        by_cases hleader : sender = stamp.leader
        · subst hleader
          rw [if_neg (by simp)]
          by_cases hid : stamp.leader = (r.observe stamp.leader).id
          · rw [if_pos hid]
            exact .own b (hdecode.trans (by rw [hid]; rfl)) hid rfl
          · rw [if_neg hid]
            by_cases hagrees : agrees (r.observe stamp.leader).ledger.tip b = true
            · rw [if_pos hagrees]
              exact .known b hdecode hid hagrees rfl
            · rw [if_neg hagrees]
              exact .considered b hdecode hid (Bool.eq_false_iff.mpr hagrees) rfl
        · rw [if_pos hleader]
          exact .idle _ fun _ _ _ => rfl

/-- Its own proposal, when it leads, is the candidate of a replica from then on. -/
theorem deliver_own {command : Bytes} {stamp : Stamp} {b : Block}
    (hcommand : Message.decode command = .ok (.proposal r.id b)) (hleads : stamp.leader = r.id) (nodes : Nat) :
    r.deliver .ordered command stamp nodes = (.bool true, r.takeOwn b stamp) := by
  have hid : r.id = (r.observe stamp.leader).id := rfl
  simp only [deliver, hcommand, handle, vote]
  rw [if_neg (fun hne => hne hleads.symm), if_pos hid]
  rfl

/-- The proposal of another replica that leads is accepted, if it is the tip already, or considered. -/
theorem deliver_other {command : Bytes} {stamp : Stamp} {b : Block}
    (hcommand : Message.decode command = .ok (.proposal stamp.leader b)) (hother : stamp.leader ≠ r.id)
    (nodes : Nat) : r.deliver .ordered command stamp nodes =
      if agrees r.ledger.tip b then (.bool true, r.observe stamp.leader)
      else (r.observe stamp.leader).consider (b.restamp stamp.timestamp stamp.nonce) := by
  have hid : stamp.leader ≠ (r.observe stamp.leader).id := hother
  simp only [deliver, hcommand, handle, vote]
  rw [if_neg (fun hne => hne rfl), if_neg hid]
  rfl

/-- The replica, having heard who leads. -/
def Hears (r s : Replica) : Prop := ∃ leader, s = r.observe leader

theorem Hears.refl (r : Replica) : r.Hears r := ⟨r.lastLeader, rfl⟩

theorem Hears.observe {s : Replica} (h : r.Hears s) (leader : ReplicaId) : r.Hears (s.observe leader) := by
  obtain ⟨_, rfl⟩ := h
  exact ⟨leader, rfl⟩

/-- A command that cannot be read says no more than who leads. -/
theorem deliver_of_error {command : Bytes} {e : DataError} (h : Message.decode command = .error e) (r : Replica)
    (delivery : Delivery) (stamp : Stamp) (nodes : Nat) :
    (r.deliver delivery command stamp nodes).2 = r.observe stamp.leader := by
  simp only [deliver, h]

/-- **An unordered command** changes nothing but who is remembered to lead. -/
theorem deliver_unordered (r : Replica) (command : Bytes) (stamp : Stamp) (nodes : Nat) :
    (r.deliver .unordered command stamp nodes).2 = r.observe stamp.leader := by
  unfold deliver
  cases Message.decode command with
  | error e => rfl
  | ok message => cases message <;> rfl

/-! ### What a command does to the ledger -/

/-- Considering a block keeps the ledger, or makes it gain the block. -/
theorem ledger_consider (r : Replica) (b : Block) :
    r.ledger.Keeps (r.consider b).2.ledger ∨ r.ledger.Gains b (r.consider b).2.ledger := by
  have hconsidered := r.considered b
  generalize r.consider b = x at hconsidered
  cases hconsidered with
  | noCandidate hnone => exact Or.inl (ledger_ensureCandidate r ▸ Ledger.Keeps.refl _)
  | gained c m hpending hagrees hgains => exact Or.inr hgains
  | refused c m hpending hkeeps => exact Or.inl hkeeps

/-- **A command** does nothing to the ledger, unless it is the ordered proposal of a leader that is
another replica, and does not agree with the tip: then the ledger may gain the block, stamped. -/
theorem ledger_deliver (r : Replica) (delivery : Delivery) (command : Bytes) (stamp : Stamp) (nodes : Nat) :
    (r.deliver delivery command stamp nodes).2.ledger = r.ledger ∨
      ∃ b, delivery = .ordered ∧ Message.decode command = .ok (.proposal stamp.leader b) ∧
        stamp.leader ≠ r.id ∧
        agrees r.ledger.tip b = false ∧
        (r.ledger.Keeps (r.deliver delivery command stamp nodes).2.ledger ∨
          r.ledger.Gains (b.restamp stamp.timestamp stamp.nonce)
            (r.deliver delivery command stamp nodes).2.ledger) := by
  have hdelivered := r.delivered delivery command stamp nodes
  generalize r.deliver delivery command stamp nodes = x at hdelivered
  cases hdelivered with
  | idle | queued | own | known => exact Or.inl rfl
  | considered b hok hother hnew hordered =>
    exact Or.inr ⟨b, hordered, hok, hother, hnew, (r.observe stamp.leader).ledger_consider _⟩

/-! ### Proposals of its own -/

/-- How an attempt to propose a block can begin. -/
inductive Opened (r : Replica) : Opening × Replica → Prop where
  /-- Nothing happened. -/
  | idle (outcome : ProposalOutcome) (noCommit : ∀ h n, outcome ≠ .committed h n) : Opened r (.over outcome, r)
  /-- The batch made no block, and went back. -/
  | noBlock (outcome : ProposalOutcome) (noCommit : ∀ h n, outcome ≠ .committed h n)
      (le : r.settings.proposals.batch ≤ r.pool.size) : Opened r (.over outcome,
        { r with
          pool := ((r.pool.take r.settings.proposals.batch).2.requeue
            (r.pool.queue.take r.settings.proposals.batch)).2 })
  /-- The block of the batch is proposed. -/
  | proposed (b : Block) (pending : r.pending = none) (le : r.settings.proposals.batch ≤ r.pool.size)
      (eq_ok : r.candidate (r.pool.queue.take r.settings.proposals.batch) = .ok b) :
      Opened r (.submit (.proposal r.id b),
        { r with pool := (r.pool.take r.settings.proposals.batch).2, pending := some ⟨b, false⟩ })

theorem opened (r : Replica) : r.Opened r.openProposal := by
  unfold openProposal
  split
  · exact .idle _ (by simp)
  · split
    · exact .idle _ (by simp)
    · rename_i hpending
      have hnone : r.pending = none := by simpa using hpending
      have h := r.assembled r.settings.proposals.batch
      generalize r.assemble r.settings.proposals.batch = x at h ⊢
      cases h with
      | few e => exact .idle _ (by simp)
      | noBlock hle => exact .noBlock _ (by simp) hle
      | taken b hle hok => exact .proposed b hnone hle hok

theorem ledger_openProposal (r : Replica) : r.openProposal.2.ledger = r.ledger := by
  have hopened := r.opened
  generalize r.openProposal = x at hopened
  cases hopened <;> rfl

/-- How an attempt to propose a block can end. -/
inductive Settled (r : Replica) (answer : Except SubstrateError Bytes) : ProposalOutcome × Replica → Prop where
  /-- There is no candidate any more. -/
  | noCandidate (pending : r.pending = none) : Settled r answer (.rejected 0, r)
  /-- The candidate came back stamped and was accepted, and the ledger gains it. -/
  | committed (c : Candidate) (m : Ledger) (pending : r.pending = some c) (accepts : accepts answer = true)
      (stamped : c.stamped = true) (gains : r.ledger.Gains c.block m) :
      Settled r answer
        (.committed c.block.height c.block.count, { r with pending := none, ledger := m })
  /-- The transactions of the candidate went back. -/
  | refused (c : Candidate) (m : Ledger) (n : Nat) (pending : r.pending = some c) (keeps : r.ledger.Keeps m) :
      Settled r answer (.rejected n, r.giveBack c m)

theorem settled (r : Replica) (answer : Except SubstrateError Bytes) :
    r.Settled answer (r.settleProposal answer) := by
  unfold settleProposal
  cases hp : r.pending with
  | none => exact .noCandidate hp
  | some c =>
    dsimp only
    by_cases hyes : (accepts answer && c.stamped) = true
    · rw [if_pos hyes]
      obtain ⟨haccepts, hstamped⟩ := Bool.and_eq_true_iff.mp hyes
      obtain ⟨m, hadd, hkeeps⟩ | ⟨m, hadd, hgains⟩ := r.ledger.add_cases c.block
      · rw [hadd]
        exact .refused c m _ hp hkeeps
      · rw [hadd]
        exact .committed c m hp haccepts hstamped hgains
    · rw [if_neg hyes]
      exact .refused c r.ledger _ hp (Ledger.Keeps.refl _)

/-! ### What never changes -/

theorem id_deliver (r : Replica) (delivery : Delivery) (command : Bytes) (stamp : Stamp) (nodes : Nat) :
    (r.deliver delivery command stamp nodes).2.id = r.id := by
  have hdelivered := r.delivered delivery command stamp nodes
  generalize r.deliver delivery command stamp nodes = x at hdelivered
  cases hdelivered with
  | idle | queued | own | known => rfl
  | considered b hok hother hnew =>
    have hconsidered := (r.observe stamp.leader).considered (b.restamp stamp.timestamp stamp.nonce)
    have hid : (r.observe stamp.leader).ensureCandidate.id = r.id := id_ensureCandidate _
    generalize (r.observe stamp.leader).consider (b.restamp stamp.timestamp stamp.nonce) = x at hconsidered
    cases hconsidered <;> exact hid

theorem id_openProposal (r : Replica) : r.openProposal.2.id = r.id := by
  have hopened := r.opened
  generalize r.openProposal = x at hopened
  cases hopened <;> rfl

theorem id_settleProposal (r : Replica) (answer : Except SubstrateError Bytes) :
    (r.settleProposal answer).2.id = r.id := by
  have hsettled := r.settled answer
  generalize r.settleProposal answer = x at hsettled
  cases hsettled <;> rfl

/-- A replica that starts has an empty pool and no candidate. -/
theorem start_eq_ok {id leader : ReplicaId} {settings : Settings} {dir dir' : Directory} {r : Replica}
    (h : start id settings leader dir = (.ok r, dir')) : r.id = id ∧ r.pool = .empty ∧ r.pending = none := by
  unfold start at h
  split at h
  · cases h
  · split at h
    · cases h
    · cases h
      exact ⟨rfl, rfl, rfl⟩

theorem ledger_of_start {id leader : ReplicaId} {settings : Settings} {dir dir' : Directory} {r : Replica}
    (h : start id settings leader dir = (.ok r, dir')) :
    (Ledger.openIn settings.storage.naming settings.storage.budget dir).1 = .ok r.ledger := by
  unfold start at h
  split at h
  · cases h
  · split at h
    · cases h
    · rename_i hopen
      cases h
      rw [hopen]

/-- A replica that starts keeps its settings, whose batches are not empty, and knows who leads. -/
theorem settings_of_start {id leader : ReplicaId} {settings : Settings} {dir dir' : Directory} {r : Replica}
    (h : start id settings leader dir = (.ok r, dir')) :
    r.settings = settings ∧ r.lastLeader = leader ∧ 0 < settings.proposals.batch := by
  unfold start at h
  split at h
  · cases h
  · rename_i hvalid
    have hpositive : 0 < settings.proposals.batch := by
      refine Nat.pos_of_ne_zero fun hzero => ?_
      rw [Settings.fault?, if_pos hzero] at hvalid
      cases hvalid
    split at h
    · cases h
    · cases h
      exact ⟨rfl, rfl, hpositive⟩

end Replica

end ReplicatedLedger
