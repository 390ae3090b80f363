import ReplicatedLedger.Block.Record
import ReplicatedLedger.Proofs.Codec.Transaction
import ReplicatedLedger.Proofs.Maps

/-! # Reading back what was written: headers, blocks, records

A block lists its transactions in the order of timestamp and hash and is read back through a map, which
forgets the order; that the map comes back is `Keyed.ofTransactions_of_perm`. While the transactions are
read none is in the map already (`reads_transactions_into`), and the parts fit together because they did
in the block (`ofParts_self`). Every encoding shorter than four gigabytes has fields that fit
(`fits_of_length`). -/

namespace ReplicatedLedger

open Wire

/-! ### Headers -/

/-- The texts and byte strings of the header have lengths that four bytes hold. -/
structure Header.Fits (h : Header) : Prop where
  version : FitsSize h.version.utf8ByteSize
  nonce : FitsSize h.nonce.length

instance (h : Header) : Decidable h.Fits :=
  decidable_of_iff (FitsSize h.version.utf8ByteSize ∧ FitsSize h.nonce.length)
    ⟨fun ⟨v, n⟩ => ⟨v, n⟩, fun ⟨v, n⟩ => ⟨v, n⟩⟩

theorem Header.reads_header {h : Header} (hf : h.Fits) : Reads Header.read h.encode h := by
  simp only [Header.encode, List.append_assoc]
  refine (reads_digest? _).bind ((reads_text hf.version).bind ((reads_i64 _).bind ?_))
  exact (reads_blob hf.nonce).bind ((reads_digest? _).bind_pure (Reads.pure _))

namespace Block

/-! ### Blocks -/

/-- The header and the transactions of the block have lengths that four bytes hold. -/
structure Fits (b : Block) : Prop where
  header : b.header.Fits
  txs : ∀ t ∈ b.txs.values, t.Fits

instance (b : Block) : Decidable b.Fits :=
  decidable_of_iff (b.header.Fits ∧ ∀ t ∈ b.txs.values, t.Fits)
    ⟨fun ⟨h, t⟩ => ⟨h, t⟩, fun ⟨h, t⟩ => ⟨h, t⟩⟩

theorem ordered_perm_values (b : Block) : b.ordered.Perm b.txs.values := List.mergeSort_perm _ _

theorem mem_ordered (b : Block) {t : Transaction} : t ∈ b.ordered ↔ t ∈ b.txs.values :=
  b.ordered_perm_values.mem_iff

theorem length_ordered (b : Block) : b.ordered.length = b.txs.size := by
  rw [b.ordered_perm_values.length_eq, SortedMap.length_values]

theorem toNat_count (b : Block) : b.count.toNat = b.txs.size :=
  FitsSize.toNat_toUInt32 b.size_lt

/-- Transactions with new and different hashes are read into a map one by one. -/
theorem reads_transactions_into {ts : List Transaction} (hfits : ∀ t ∈ ts, t.Fits) :
    ∀ m : TxMap, (ts.map (·.hash)).Nodup → (∀ t ∈ ts, m.contains t.hash = false) →
      Reads (readTransactions ts.length m) (ts.flatMap Transaction.encode) (TxMap.insertAll m ts) := by
  induction ts with
  | nil => exact fun m _ _ => Reads.pure m
  | cons t ts ih =>
    intro m hn hnew
    obtain ⟨ht, hts⟩ := List.nodup_cons.mp hn
    have hfit : t.Fits := hfits t List.mem_cons_self
    refine (Transaction.reads_transaction hfit (Transaction.size_le_noLimit hfit)).bind ?_
    rw [hnew t List.mem_cons_self]
    refine ih (fun s hs => hfits s (List.mem_cons_of_mem t hs)) _ hts fun s hs => ?_
    have hne : s.hash ≠ t.hash := fun h => ht (List.mem_map.mpr ⟨s, hs, h⟩)
    have hold := hnew s (List.mem_cons_of_mem t hs)
    rw [SortedMap.contains] at hold ⊢
    rw [SortedMap.get?_insert, if_neg hne, hold]

/-- The parts of a block make the block. -/
theorem ofParts_self (b : Block) : ofParts b.header b.txs b.count b.height = .ok b := by
  obtain ⟨header, height, txs, hash, keyed, size_lt, root_eq, rfl⟩ := b
  have hc := toNat_count ⟨header, height, txs, _, keyed, size_lt, root_eq, rfl⟩
  rw [ofParts, if_neg (by simpa using hc), dif_pos keyed, dif_pos root_eq, assemble, dif_pos size_lt]

theorem insertAll_of_perm {b : Block} {ts : List Transaction} (h : ts.Perm b.ordered) :
    TxMap.insertAll .empty ts = b.txs := by
  rw [← TxMap.ofTransactions_eq_insertAll]
  exact b.keyed.ofTransactions_of_perm (h.trans b.ordered_perm_values)

/-- The encoding of a block, but for the order of its transactions. -/
def encodeIn (b : Block) (ts : List Transaction) : Bytes :=
  b.header.encode ++ u64 b.height ++ u32 b.count ++ ts.flatMap Transaction.encode

theorem encodeIn_ordered (b : Block) : b.encodeIn b.ordered = b.encode := rfl

theorem length_encodeIn {b : Block} {ts : List Transaction} (hperm : ts.Perm b.ordered) :
    (b.encodeIn ts).length = b.encode.length := by
  have hlength := (hperm.flatMap_right Transaction.encode).length_eq
  simp only [encode, encodeIn, List.length_append, hlength]

/-- A block is read back from its transactions in any order. -/
theorem reads_block_of_perm {b : Block} (h : b.Fits) {ts : List Transaction} (hperm : ts.Perm b.ordered) :
    Reads read (b.encodeIn ts) b := by
  have hcount : b.count.toNat = ts.length := by rw [toNat_count, hperm.length_eq, length_ordered]
  simp only [encodeIn, List.append_assoc]
  refine (Header.reads_header h.header).bind ((reads_u64 _).bind ((reads_u32 _).bind ?_))
  intro rest
  have hguard : ¬ b.count.toNat > (ts.flatMap Transaction.encode ++ rest).length := by
    have hlong := mul_length_le_length_flatMap (k := 17) fun t (_ : t ∈ ts) =>
      Transaction.seventeen_le_length_encode t
    rw [hcount, List.length_append]
    omega
  have hread : Reads (readTransactions b.count.toNat .empty) (ts.flatMap Transaction.encode) b.txs := by
    rw [hcount]
    refine insertAll_of_perm hperm ▸ reads_transactions_into
      (fun t ht => h.txs t (b.mem_ordered.mp (hperm.mem_iff.mp ht))) _ ?_ fun t _ => rfl
    exact b.keyed.nodup_map_hash (hperm.trans b.ordered_perm_values)
  have hparts : Reads (liftM (ofParts b.header b.txs b.count b.height) : Reader Block) [] b := by
    rw [b.ofParts_self]
    exact Reads.pure b
  rw [bind_ok (a := ts.flatMap Transaction.encode ++ rest) (t := ts.flatMap Transaction.encode ++ rest) rfl,
    if_neg hguard]
  exact hread.bind_pure hparts rest

theorem reads_block {b : Block} (h : b.Fits) : Reads read b.encode b := reads_block_of_perm h (.refl _)

theorem decode_encode {b : Block} (h : b.Fits) : decode b.encode = .ok b := (reads_block h).exactly

/-! ### Short encodings -/

theorem length_encode_le_of_mem {b : Block} {t : Transaction} (h : t ∈ b.txs.values) :
    t.encode.length ≤ b.encode.length := by
  have hle : t.encode.length ≤ (b.ordered.flatMap Transaction.encode).length := by
    obtain ⟨l, r, hlr⟩ := List.append_of_mem (b.mem_ordered.mpr h)
    simp only [hlr, List.flatMap_append, List.flatMap_cons, List.length_append]
    omega
  simp only [encode, List.length_append]
  omega

/-- A stamp changes the length of an encoding by that of the nonce. -/
theorem length_encode_restamp (b : Block) (timestamp : Int64) (nonce : Bytes) :
    (b.restamp timestamp nonce).encode.length + b.header.nonce.length = b.encode.length + nonce.length := by
  have hordered : (b.restamp timestamp nonce).ordered = b.ordered := rfl
  have hcount : (b.restamp timestamp nonce).count = b.count := rfl
  have hheight : (b.restamp timestamp nonce).height = b.height := rfl
  have hheader : (b.restamp timestamp nonce).header = { b.header with timestamp, nonce } := rfl
  simp only [encode, Header.encode, hordered, hcount, hheight, hheader, List.length_append, length_blob, length_i64]
  omega

theorem fits_of_length {b : Block} (h : FitsSize b.encode.length) : b.Fits where
  header := by
    simp only [FitsSize, encode, Header.encode, List.length_append, length_text, length_blob] at h
    constructor <;> unfold FitsSize <;> omega
  txs t ht := by
    have hle := length_encode_le_of_mem ht
    refine Transaction.fits_of_length (h.mono hle)

/-! ### Records -/

theorem Record.reads_frame {b : Block} (hlen : FitsSize (1 + b.encode.length)) :
    Reads Record.readFrame (Record.encode b) (Record.formatVersion :: b.encode) := by
  refine (reads_size (1 + b.encode.length)).bind ?_
  simp only [hlen.toNat_toUInt32]
  rw [if_neg (by omega)]
  exact reads_take_of_length (by rw [List.length_cons, Nat.add_comm])

theorem Record.unframe_encode {b : Block} (hlen : FitsSize (1 + b.encode.length)) :
    Record.unframe (Record.formatVersion :: b.encode) = .ok b := by
  rw [Record.unframe, if_pos rfl, Block.decode_encode (fits_of_length (hlen.mono (by omega)))]

theorem Record.decode_encode {b : Block} (hlen : FitsSize (1 + b.encode.length)) :
    Record.decode (Record.encode b) = .ok b := by
  have hframe := (Record.reads_frame hlen).exactly
  simp only [Record.decode, hframe, bind, Except.bind, Record.unframe_encode hlen]

/-- The record of a block is taken off a stream, unless it is too long for that. -/
theorem Record.read_encode {b : Block} (hlen : FitsSize (1 + b.encode.length)) (rest : Bytes) :
    Record.read (Record.encode b ++ rest) =
      if maxLength < 1 + b.encode.length then .error (.tooLarge (1 + b.encode.length) maxLength)
      else .ok (some b, rest) := by
  have hframe : take (1 + b.encode.length) ((formatVersion :: b.encode) ++ rest) =
      .ok (formatVersion :: b.encode, rest) :=
    reads_take_of_length (by rw [List.length_cons, Nat.add_comm]) rest
  rw [Record.encode, List.append_assoc, Record.read, reads_size]
  simp only [hlen.toNat_toUInt32]
  rw [if_neg (by omega)]
  split_ifs
  · rfl
  · simp only [hframe, Record.unframe_encode hlen]

theorem Record.read_encode_of_short {b : Block} (hshort : 1 + b.encode.length ≤ maxLength) (rest : Bytes) :
    Record.read (Record.encode b ++ rest) = .ok (some b, rest) := by
  have hfits : FitsSize (1 + b.encode.length) := Nat.lt_of_le_of_lt hshort (by decide)
  rw [Record.read_encode hfits, if_neg (Nat.not_lt.mpr hshort)]

theorem Record.read_nil : Record.read [] = .error (.stream .unexpectedEof) := rfl

theorem Record.read_marker : Record.read Record.marker = .ok (none, []) := rfl

/-! ### Summaries -/

theorem Summary.reads_summary {s : Summary} (h : s.header.Fits) : Reads Summary.read s.encode s := by
  simp only [Summary.encode, List.append_assoc]
  exact (Header.reads_header h).bind ((reads_u32 _).bind ((reads_u64 _).bind
    ((reads_u64 _).bind_pure (Reads.pure _))))

/-- The first block at another height. -/
def raised (height : UInt64) : Block := { genesis with height }

theorem short_raised (height : UInt64) : 1 + (raised height).encode.length ≤ Record.maxLength := by
  have hlength : (raised height).encode.length = genesis.encode.length := by
    simp only [encode, List.length_append, length_u64]
    rfl
  have hgenesis : 1 + genesis.encode.length ≤ Record.maxLength := by decide +kernel
  rwa [hlength]

theorem fits_raised (height : UInt64) : FitsSize (1 + (raised height).encode.length) :=
  Nat.lt_of_le_of_lt (short_raised height) (by decide)

end Block

end ReplicatedLedger
