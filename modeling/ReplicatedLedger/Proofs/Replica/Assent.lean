import ReplicatedLedger.Proofs.Merkle.Tree
import ReplicatedLedger.Proofs.Replica.Round

/-! # Assent to a proposal

A replica that would propose a block itself (`Builds`) assents to it: as soon as the proposal reaches it, it adds
the block, stamped, to its ledger, and the batch leaves its pool (`Builds.deliver`). The proposer does the same in
two parts, when the block comes back and when the answer is in (`settleProposal_takeOwn`), so that both end in the
same way (`commit`). -/

namespace ReplicatedLedger.Replica

variable {r s : Replica} {b p : Block} {command : Bytes} {sender : ReplicaId} {stamp : Stamp}

/-- The replica has no candidate, and a full batch of its pool makes the block. -/
structure Builds (r : Replica) (b : Block) : Prop where
  pending : r.pending = none
  positive : 0 < r.settings.proposals.batch
  full : r.settings.proposals.batch ≤ r.pool.size
  eq_ok : r.candidate (r.pool.queue.take r.settings.proposals.batch) = .ok b

/-- The replica with the block of a full batch as its candidate. -/
def withhold (r : Replica) (b : Block) : Replica :=
  { r with pool := (r.pool.take r.settings.proposals.batch).2, pending := some ⟨b, false⟩ }

/-- The replica with a full batch of its pool on its ledger, in the block. -/
def commit (r : Replica) (b : Block) : Replica :=
  { r with pool := (r.pool.take r.settings.proposals.batch).2, pending := none, ledger := (r.ledger.add b).2 }

/-- The replica after it took a full batch from its pool and put the transactions back. -/
def putBack (r : Replica) (ts : List Transaction) : Replica :=
  { r with pool := ((r.pool.take r.settings.proposals.batch).2.requeue ts).2 }

/-! ### The candidate -/

theorem Builds.observe (h : r.Builds b) (leader : ReplicaId) : (r.observe leader).Builds b :=
  ⟨h.pending, h.positive, h.full, h.eq_ok⟩

theorem Builds.assemble (h : r.Builds b) :
    r.assemble r.settings.proposals.batch = (.ok (some b), r.withhold b) := by
  have hcandidate : candidate { r with pool := (r.pool.take r.settings.proposals.batch).2 }
      (r.pool.queue.take r.settings.proposals.batch) = .ok b := h.eq_ok
  unfold Replica.assemble
  rw [Pool.take_eq_ok h.full]
  dsimp only
  rw [hcandidate]
  rfl

theorem Builds.ensureCandidate (h : r.Builds b) : r.ensureCandidate = r.withhold b := by
  have hmin : min r.settings.proposals.batch r.pool.size = r.settings.proposals.batch := Nat.min_eq_left h.full
  unfold Replica.ensureCandidate
  dsimp only
  rw [h.pending, hmin, h.assemble, if_neg (Nat.pos_iff_ne_zero.mp h.positive)]
  rfl

theorem Builds.openProposal (h : r.Builds b) (hleads : r.lastLeader = r.id) :
    r.openProposal = (.submit (.proposal r.id b), r.withhold b) := by
  have hyes : r.leads = true := beq_iff_eq.mpr hleads
  unfold Replica.openProposal
  rw [hyes, h.pending, h.assemble]
  rfl

/-- A replica with too few transactions waits for more. -/
theorem openProposal_of_lt (hleads : r.lastLeader = r.id) (hnone : r.pending = none)
    (hlt : r.pool.size < r.settings.proposals.batch) : r.openProposal = (.over (.waiting r.pool.size), r) := by
  have hyes : r.leads = true := beq_iff_eq.mpr hleads
  have hfew : r.assemble r.settings.proposals.batch =
      (.error (.insufficient r.settings.proposals.batch r.pool.size), r) := by
    unfold Replica.assemble
    rw [Pool.take_of_lt hlt]
  unfold Replica.openProposal
  rw [hyes, hnone, hfew]
  rfl

/-- A replica puts back a full batch that makes no block. -/
theorem openProposal_of_error (hleads : r.lastLeader = r.id) (hnone : r.pending = none)
    (hfull : r.settings.proposals.batch ≤ r.pool.size) {e : DataError}
    (herror : r.candidate (r.pool.queue.take r.settings.proposals.batch) = .error e) :
    r.openProposal = (.over (.rejected r.settings.proposals.batch),
      r.putBack (r.pool.queue.take r.settings.proposals.batch)) := by
  have hyes : r.leads = true := beq_iff_eq.mpr hleads
  have hno : r.pending.isSome = false := Option.isSome_eq_false_iff.mpr (Option.isNone_iff_eq_none.mpr hnone)
  have hcandidate : candidate { r with pool := (r.pool.take r.settings.proposals.batch).2 }
      (r.pool.queue.take r.settings.proposals.batch) = .error e := herror
  have hwhole : r.assemble r.settings.proposals.batch =
      (.ok none, r.putBack (r.pool.queue.take r.settings.proposals.batch)) := by
    unfold Replica.assemble
    rw [Pool.take_eq_ok hfull]
    dsimp only
    rw [hcandidate]
    rfl
  unfold Replica.openProposal
  rw [hyes, hno, hwhole]
  rfl

/-! ### Voting -/

/-- A replica that considers a block that agrees with the one it would propose adds it. -/
theorem Builds.consider (h : r.Builds b) (hagrees : agrees b p = true) (hadds : (r.ledger.add p).1 = true) :
    r.consider p = (.bool true, r.commit p) := by
  have hadd : (r.withhold b).ledger.add p = (true, (r.ledger.add p).2) := Prod.ext hadds rfl
  unfold Replica.consider
  rw [h.ensureCandidate]
  change (if agrees b p = true then _ else _) = _
  rw [if_pos hagrees]
  dsimp only
  rw [hadd]
  rfl

/-- **A replica that would propose the block** commits it as soon as the proposal reaches it. -/
theorem Builds.deliver (h : r.Builds b) (hcommand : Message.decode command = .ok (.proposal sender b))
    (hleads : stamp.leader = sender) (hother : sender ≠ r.id)
    (hadds : (r.ledger.add (b.restamp stamp.timestamp stamp.nonce)).1 = true) (nodes : Nat) :
    r.deliver .ordered command stamp nodes =
      (.bool true, (r.commit (b.restamp stamp.timestamp stamp.nonce)).observe sender) := by
  have hnew : agrees r.ledger.tip b = false := by
    rw [Bool.eq_false_iff]
    intro hagrees
    have hlt := (Ledger.gains_of_add hadds).lt
    rw [(agrees_iff.mp hagrees).1] at hlt
    exact UInt64.lt_irrefl _ hlt
  have hconsider := (h.observe sender).consider (agrees_self_restamp b stamp.timestamp stamp.nonce) hadds
  subst hleads
  rw [deliver_other hcommand hother, hnew, if_neg Bool.false_ne_true]
  exact hconsider

/-- A replica whose tip is the proposed block, stamped, accepts it once more. -/
theorem deliver_committed (hcommand : Message.decode command = .ok (.proposal sender b))
    (hleads : stamp.leader = sender) (hother : sender ≠ s.id)
    (htip : s.ledger.tip = b.restamp stamp.timestamp stamp.nonce) (nodes : Nat) :
    s.deliver .ordered command stamp nodes = (.bool true, s.observe sender) := by
  subst hleads
  rw [deliver_other hcommand hother, htip, agrees_restamp, if_pos rfl]

/-! ### Settling -/

theorem accepts_ack : accepts (.ok (Reply.bool true).encode) = true := by decide

/-- **The proposer** commits the block when the others acknowledged it. -/
theorem settleProposal_takeOwn
    (hadds : (r.ledger.add (b.restamp stamp.timestamp stamp.nonce)).1 = true) :
    ((r.withhold b).takeOwn b stamp).settleProposal (.ok (Reply.bool true).encode) =
      (.committed b.height b.count,
        (r.commit (b.restamp stamp.timestamp stamp.nonce)).observe stamp.leader) := by
  have hadd : r.ledger.add (b.restamp stamp.timestamp stamp.nonce) =
      (true, (r.ledger.add (b.restamp stamp.timestamp stamp.nonce)).2) := Prod.ext hadds rfl
  unfold Replica.settleProposal takeOwn withhold
  dsimp only [Replica.observe]
  rw [accepts_ack, hadd]
  rfl

/-! ### The block of a batch -/

/-- A batch of fewer transactions than the counter counts makes a block. -/
theorem exists_candidate {ts : List Transaction} (hnodup : (ts.map (·.hash)).Nodup)
    (hcount : ts.length < UInt32.size) (r : Replica) : ∃ b, r.candidate ts = .ok b := by
  have hsize : (TxMap.ofTransactions ts).size = ts.length := by
    rw [← SortedMap.length_keys, (TxMap.keys_ofTransactions_perm hnodup).length_eq, List.length_map]
  unfold candidate Block.ofList Block.assemble
  dsimp only
  rw [if_neg (fun hne => hne hsize), dif_pos (hsize ▸ hcount)]
  exact ⟨_, rfl⟩

/-- The parts of a candidate. -/
theorem candidate_eq_ok {ts : List Transaction} (hok : r.candidate ts = .ok b) :
    (TxMap.ofTransactions ts).size = ts.length ∧ b.txs = TxMap.ofTransactions ts ∧
      b.header = ⟨some r.ledger.tip.hash, r.settings.version, 0, [], b.txs.root?⟩ := by
  unfold candidate Block.ofList at hok
  dsimp only at hok
  split at hok
  · cases hok
  · rename_i hsize
    unfold Block.assemble at hok
    split at hok
    · cases hok
      exact ⟨Decidable.not_not.mp hsize, rfl, rfl⟩
    · cases hok

theorem count_candidate {ts : List Transaction} (hok : r.candidate ts = .ok b) :
    b.count = ts.length.toUInt32 := by
  obtain ⟨hsize, htxs, -⟩ := candidate_eq_ok hok
  rw [Block.count, htxs, hsize]

/-- A candidate holds the transactions of its batch. -/
theorem ordered_candidate_perm {ts : List Transaction} (hnodup : (ts.map (·.hash)).Nodup)
    (hok : r.candidate ts = .ok b) : b.ordered.Perm ts := by
  obtain ⟨-, htxs, -⟩ := candidate_eq_ok hok
  have hvalues : b.txs.values.Perm ts := htxs ▸ TxMap.values_ofTransactions_perm hnodup
  exact b.ordered_perm_values.trans hvalues

/-- The length of the record of a block of the transactions on the replica's tip, with a nonce of eight bytes: the
format, the header, height and counter, and the transactions. -/
def recordLength (r : Replica) (ts : List Transaction) : Nat :=
  1 + (4 + Digest.byteLength) + (4 + r.settings.version.utf8ByteSize) + 8 + (4 + 8) + (4 + Digest.byteLength) + 8 + 4 +
    (ts.flatMap Transaction.encode).length

theorem length_record {ts : List Transaction} (hnodup : (ts.map (·.hash)).Nodup) (hne : ts ≠ [])
    (hok : r.candidate ts = .ok b) (timestamp : Int64) {nonce : Bytes} (hnonce : nonce.length = 8) :
    1 + (b.restamp timestamp nonce).encode.length = r.recordLength ts := by
  obtain ⟨-, -, hheader⟩ := candidate_eq_ok hok
  have hordered : b.ordered.Perm ts := ordered_candidate_perm hnodup hok
  obtain ⟨root, hroot⟩ : ∃ root, b.txs.root? = some root := by
    rw [← Option.ne_none_iff_exists', TxMap.root?, ne_eq, Merkle.root?_eq_none_iff]
    intro hnil
    have hlength := congrArg List.length hnil
    rw [TxMap.leaves, List.length_map, List.length_mergeSort, List.length_map, ← b.ordered_perm_values.length_eq,
      hordered.length_eq] at hlength
    exact hne (List.length_eq_zero_iff.mp hlength)
  have hstamped : (b.restamp timestamp nonce).encode =
      Wire.digest? b.header.previous ++ Wire.text b.header.version ++ Wire.i64 timestamp ++ Wire.blob nonce ++
        Wire.digest? b.header.root ++ Wire.u64 b.height ++ Wire.u32 b.count ++
        b.ordered.flatMap Transaction.encode := rfl
  have hprevious : b.header.previous = some r.ledger.tip.hash := congrArg Header.previous hheader
  have hversion : b.header.version = r.settings.version := congrArg Header.version hheader
  rw [hstamped, hprevious, hversion, b.root_eq.trans hroot, recordLength,
    ← (hordered.flatMap_right Transaction.encode).length_eq]
  simp only [List.length_append, Wire.length_digest?, Option.isSome_some, if_true, Wire.length_text, Wire.length_i64, Wire.length_blob,
    Wire.length_u64, Wire.length_u32, hnonce]
  omega

/-- A record whose length fits holds fewer transactions than the counter counts. -/
theorem length_lt_of_recordLength {ts : List Transaction} (h : Wire.FitsSize (r.recordLength ts)) :
    ts.length < UInt32.size := by
  have hbytes := Wire.mul_length_le_length_flatMap (k := 17) fun t (_ : t ∈ ts) =>
    Transaction.seventeen_le_length_encode t
  unfold Wire.FitsSize recordLength UInt32.size at h
  unfold UInt32.size
  omega

end ReplicatedLedger.Replica
