import ReplicatedLedger.Proofs.Block.Membership

/-! # The order of transactions in a block

Transactions are listed by timestamp, those of one timestamp by hash (`Transaction.byKey`). Where no hash is shared
this order is strict (`pairwise_byKey`), so that a list in it is determined by its members (`eq_of_pairwise_le`). A
block lists its transactions in this order and has its leaves in the same one (`map_hash_ordered`), although the two
are sorted apart, the one by transactions and the other by keys. A block built from a list therefore does not depend
on the order of the list (`ofList_ignores_order`). -/

namespace ReplicatedLedger

/-! ### Transactions by key -/

namespace Transaction

/-- Transactions in the order of timestamp and hash. -/
def byKey (ts : List Transaction) : List Transaction :=
  ts.mergeSort fun s t => OrderKey.le s.orderKey t.orderKey

/-- An earlier timestamp, as a signed number, or the same one and a smaller hash. -/
def Precedes (s t : Transaction) : Prop :=
  s.timestamp.toInt < t.timestamp.toInt ∨ s.timestamp.toInt = t.timestamp.toInt ∧ s.hash < t.hash

theorem byKey_perm (ts : List Transaction) : (byKey ts).Perm ts := List.mergeSort_perm _ _

/-- Sorting transactions by key sorts their keys. -/
theorem map_orderKey_byKey (ts : List Transaction) :
    (byKey ts).map orderKey = (ts.map orderKey).mergeSort OrderKey.le :=
  List.map_mergeSort fun _ _ _ _ => rfl

theorem pairwise_le_byKey (ts : List Transaction) :
    (byKey ts).Pairwise fun s t => OrderKey.le s.orderKey t.orderKey = true := by
  have hkeys := OrderKey.pairwise_mergeSort (ts.map orderKey)
  rw [← map_orderKey_byKey] at hkeys
  exact List.pairwise_map.mp hkeys

/-- Between transactions with different hashes the order is strict. -/
theorem precedes_iff {s t : Transaction} (h : s.hash ≠ t.hash) :
    s.Precedes t ↔ OrderKey.le s.orderKey t.orderKey = true := by
  rw [OrderKey.le_iff, Precedes, orderKey, orderKey, Int64.lt_iff_toInt_lt, Int64.toInt_inj]
  have hlt : s.hash < t.hash ↔ s.hash ≤ t.hash := by
    constructor
    · exact Std.le_of_lt
    · intro hle
      exact Std.lt_of_le_of_ne hle h
  simp only [hlt]

theorem pairwise_byKey {ts : List Transaction} (h : (ts.map (·.hash)).Nodup) : (byKey ts).Pairwise Precedes := by
  have hne : (byKey ts).Pairwise fun s t => s.hash ≠ t.hash :=
    List.pairwise_map.mp (((byKey_perm ts).map _).nodup_iff.mpr h)
  exact (pairwise_le_byKey ts).imp₂ (fun s t hle hne => (precedes_iff hne).mpr hle) hne

/-- **A list in this order is determined by its members**, if no hash is shared. -/
theorem eq_of_pairwise_le {ts us : List Transaction} (h : ts.Perm us) (hnodup : (ts.map (·.hash)).Nodup)
    (hts : ts.Pairwise fun s t => OrderKey.le s.orderKey t.orderKey = true)
    (hus : us.Pairwise fun s t => OrderKey.le s.orderKey t.orderKey = true) : ts = us := by
  refine h.eq_of_pairwise ?_ hts hus
  intro s t hs ht hst hts
  have hkey : s.orderKey = t.orderKey := OrderKey.le_antisymm hst hts
  exact List.inj_on_of_nodup_map hnodup hs (h.mem_iff.mpr ht) (congrArg Prod.snd hkey)

theorem byKey_eq_of_perm {ts us : List Transaction} (h : ts.Perm us) (hnodup : (ts.map (·.hash)).Nodup) :
    byKey ts = byKey us := by
  have hperm : (byKey ts).Perm (byKey us) := (byKey_perm ts).trans (h.trans (byKey_perm us).symm)
  have hnodup' : ((byKey ts).map (·.hash)).Nodup := ((byKey_perm ts).map _).nodup_iff.mpr hnodup
  exact eq_of_pairwise_le hperm hnodup' (pairwise_le_byKey ts) (pairwise_le_byKey us)

end Transaction

namespace Block

open Transaction

theorem nodup_hash_values (b : Block) : (b.txs.values.map (·.hash)).Nodup := b.keyed.nodup_map_hash (.refl _)

/-- **One order for all**: the transactions of a block are listed in the order of its leaves. -/
theorem map_hash_ordered (b : Block) : b.ordered.map (·.hash) = b.txs.leaves := by
  have hkeys : b.ordered.map orderKey = (b.txs.values.map orderKey).mergeSort OrderKey.le := map_orderKey_byKey _
  rw [TxMap.leaves, ← hkeys, List.map_map]
  rfl

theorem pairwise_ordered (b : Block) : b.ordered.Pairwise Precedes := pairwise_byKey b.nodup_hash_values

/-! ### Building from a list -/

section

variable (previous : Option Digest) (height : UInt64) (ts : List Transaction) (timestamp : Int64) (nonce : Bytes)
  (version : String)

theorem ofList_of_shared (h : ¬ (ts.map (·.hash)).Nodup) : ofList previous height ts timestamp nonce version =
    .error (.invalidBlock (.duplicates ts.length (TxMap.ofTransactions ts).size)) := by
  rw [TxMap.nodup_iff_size_ofTransactions] at h
  rw [ofList, if_pos h]

theorem ofList_of_long (h : (ts.map (·.hash)).Nodup) (hlong : UInt32.size ≤ ts.length) :
    ofList previous height ts timestamp nonce version = .error (.invalidBlock .tooMany) := by
  rw [TxMap.nodup_iff_size_ofTransactions] at h
  rw [ofList, if_neg (not_not_intro h), assemble, dif_neg (by omega)]

theorem ofList_eq_of_perm {us : List Transaction} (h : ts.Perm us) :
    ofList previous height ts timestamp nonce version = ofList previous height us timestamp nonce version := by
  by_cases hnodup : (ts.map (·.hash)).Nodup
  · simp only [ofList, TxMap.ofTransactions_eq_of_perm h hnodup, h.length_eq]
  · have hnodup' : ¬ (us.map (·.hash)).Nodup := by rwa [← (h.map _).nodup_iff]
    rw [ofList_of_shared _ _ _ _ _ _ hnodup, ofList_of_shared _ _ _ _ _ _ hnodup', h.length_eq,
      TxMap.size_ofTransactions_of_perm h]

/-- What comes of a list: a block, or one of two errors, each under a condition of its own. -/
theorem ofList_outcomes :
    ((∃ b, ofList previous height ts timestamp nonce version = .ok b) ↔
        (ts.map (·.hash)).Nodup ∧ ts.length < UInt32.size) ∧
      ((∃ given distinct, ofList previous height ts timestamp nonce version =
          .error (.invalidBlock (.duplicates given distinct))) ↔ ¬ (ts.map (·.hash)).Nodup) ∧
      (ofList previous height ts timestamp nonce version = .error (.invalidBlock .tooMany) ↔
        (ts.map (·.hash)).Nodup ∧ UInt32.size ≤ ts.length) := by
  by_cases hnodup : (ts.map (·.hash)).Nodup
  · by_cases hsize : ts.length < UInt32.size
    · obtain ⟨b, hb, -⟩ := ofList_of_nodup previous height timestamp nonce version hnodup hsize
      have hshort : ¬ UInt32.size ≤ ts.length := by omega
      simp [hb, hnodup, hsize, hshort]
    · have hlong : UInt32.size ≤ ts.length := by omega
      simp [ofList_of_long previous height ts timestamp nonce version hnodup hlong, hnodup, hsize, hlong]
  · simp [ofList_of_shared previous height ts timestamp nonce version hnodup, hnodup]

/-- **The order of the transactions does not matter**: lists with the same members lead to the same block, or to the
same error. A list with a shared hash is refused as one with duplicates, and no other is; without one it makes a block,
unless it is longer than the counter of a block can tell. The transactions of every block are listed in the order of
its leaves, and this is strictly that of timestamp and hash. -/
theorem ofList_ignores_order {us : List Transaction} (h : ts.Perm us) (b : Block) :
    ofList previous height ts timestamp nonce version = ofList previous height us timestamp nonce version ∧
      ((∃ b, ofList previous height ts timestamp nonce version = .ok b) ↔
        (ts.map (·.hash)).Nodup ∧ ts.length < UInt32.size) ∧
      ((∃ given distinct, ofList previous height ts timestamp nonce version =
          .error (.invalidBlock (.duplicates given distinct))) ↔ ¬ (ts.map (·.hash)).Nodup) ∧
      (ofList previous height ts timestamp nonce version = .error (.invalidBlock .tooMany) ↔
        (ts.map (·.hash)).Nodup ∧ UInt32.size ≤ ts.length) ∧
      b.txs.checkedLeaves = .ok (b.ordered.map (·.hash)) ∧ b.ordered.Pairwise Precedes := by
  obtain ⟨hblock, hshared, hlong⟩ := ofList_outcomes previous height ts timestamp nonce version
  refine ⟨ofList_eq_of_perm _ _ _ _ _ _ h, hblock, hshared, hlong, ?_, b.pairwise_ordered⟩
  rw [TxMap.checkedLeaves, if_pos b.keyed, map_hash_ordered]

end

theorem nodup_hash_signs : ([TxMap.blank 1, TxMap.blank (-1), TxMap.blank 0].map (·.hash)).Nodup := by
  decide +kernel

/-- Three transactions, one of a time before the epoch, in two orders; and one of them twice. -/
theorem ofList_ignores_order_signs :
    let build := fun ts => ofList none 1 ts 0 [] currentVersion
    let ts := [TxMap.blank 1, TxMap.blank (-1), TxMap.blank 0]
    let twice := [TxMap.blank 1, TxMap.blank 0, TxMap.blank 1]
    ts.Perm ts.reverse ∧ build ts = build ts.reverse ∧
      (∃ b, build ts = .ok b ∧ b.txs.checkedLeaves = .ok (b.ordered.map (·.hash)) ∧ b.ordered.Pairwise Precedes) ∧
      twice.Perm twice.reverse ∧ build twice = build twice.reverse ∧
      ∃ given distinct, build twice = .error (.invalidBlock (.duplicates given distinct)) := by
  intro build ts twice
  have hperm : ts.Perm ts.reverse := (List.reverse_perm ts).symm
  have hperm' : twice.Perm twice.reverse := (List.reverse_perm twice).symm
  obtain ⟨hsame, hblock, -⟩ := ofList_ignores_order none 1 ts 0 [] currentVersion hperm genesis
  obtain ⟨b, hb⟩ := hblock.mpr ⟨nodup_hash_signs, by decide⟩
  obtain ⟨-, -, -, -, hleaves, hordered⟩ := ofList_ignores_order none 1 ts 0 [] currentVersion hperm b
  obtain ⟨hsame', -, hshared, -⟩ := ofList_ignores_order none 1 twice 0 [] currentVersion hperm' genesis
  have htwice : ¬ (twice.map (·.hash)).Nodup := by simp [twice]
  exact ⟨hperm, hsame, ⟨b, hb, hleaves, hordered⟩, hperm', hsame', hshared.mpr htwice⟩

end Block

end ReplicatedLedger
