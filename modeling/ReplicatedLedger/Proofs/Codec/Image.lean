import ReplicatedLedger.Proofs.Block.Order
import ReplicatedLedger.Proofs.Codec.Message

/-! # What can be read is what is written

Every byte string that is read as a value is the encoding of this value, in all formats without blocks: each flag,
tag, length and number has a single spelling (`Request.takes_request`, `Reply.takes_reply`). A block forgets the
order in which its transactions came, so it is read from as many byte strings as there are orders of them
(`Block.decode_eq_ok_iff`), and only the one in the order of timestamp and hash is its encoding
(`Block.encode_eq_encodeIn_iff`). The main statement, `decode_eq_ok_canonical`, collects all formats. -/

namespace ReplicatedLedger

namespace Wire

variable {α : Type}

theorem Takes.imp {r : Reader α} {R S : α → Bytes → Prop} (h : Takes r R) (k : ∀ a front, R a front → S a front) :
    Takes r S := by
  intro d a rest hok
  obtain ⟨front, hd, hfront⟩ := h d a rest hok
  exact ⟨front, hd, k a front hfront⟩

/-! ### Lists -/

theorem takes_count : Takes readCount fun n front => FitsSize n ∧ front = size n := by
  refine takes_u32.bind fun w front hfront => takes_get_bind fun d => ?_
  subst hfront
  split_ifs
  · exact takes_fail _ _
  · refine takes_pure ⟨w.toNat_lt, ?_⟩
    rw [List.append_nil, size, Nat.toUInt32_eq, UInt32.ofNat_toNat]

variable {r : Reader α} {encode : α → Bytes}

theorem takes_many (h : Takes r fun a front => front = encode a) (n : Nat) :
    Takes (many r n) fun as front => as.length = n ∧ front = as.flatMap encode := by
  induction n with
  | zero => exact takes_pure ⟨rfl, rfl⟩
  | succ n ih =>
    refine h.bind fun a front hfront => ih.bind fun as back hback => takes_pure ?_
    obtain ⟨hlength, rfl⟩ := hback
    subst hfront
    exact ⟨congrArg (· + 1) hlength, by rw [List.append_nil, List.flatMap_cons]⟩

theorem takes_list (h : Takes r fun a front => front = encode a) :
    Takes (readCount >>= many r) fun as front => front = size as.length ++ as.flatMap encode := by
  refine takes_count.bind fun n front hfront => (takes_many h n).imp fun as back hback => ?_
  obtain ⟨rfl, rfl⟩ := hback
  rw [hfront.2]

end Wire

open Wire

/-! ### Requests and messages -/

theorem Request.takes_request : Takes Request.read fun request front => front = request.encode := by
  refine takes_byte.bind fun tag front hfront => ?_
  subst hfront
  split
  · exact takes_pure rfl
  · exact takes_pure rfl
  · exact takes_u64.map fun height back hback => by rw [hback]; rfl
  · exact takes_u64.map fun height back hback => by rw [hback]; rfl
  · exact takes_pure rfl
  · exact takes_blob.map fun raw back hback => by rw [hback.2]; rfl
  · exact (takes_list (takes_blob.imp fun _ _ h => h.2)).map fun raws back hback => by rw [hback]; rfl
  · exact takes_pure rfl
  · exact takes_pure rfl
  · exact takes_digest.map fun hash back hback => by rw [hback]; rfl
  · exact takes_pure rfl
  · exact takes_fail _ _

/-- A request is read from its encoding; a proposal holds a block, which is another matter. -/
theorem Message.takes_client :
    Takes Message.read fun message front => ∀ request, message = .client request → front = message.encode := by
  refine takes_byte.bind fun tag front hfront => ?_
  subst hfront
  split
  · exact Request.takes_request.map fun request back hback _ _ => by rw [hback]; rfl
  · refine takes_u32.bind fun sender _ _ => takes_blob.bind fun raw _ _ => ?_
    have hblock : Takes (liftM (Block.decode raw) : Reader Block) fun _ _ => True := takes_lift fun _ _ => trivial
    refine hblock.bind fun block _ _ => takes_pure fun request hrequest => ?_
    cases hrequest
  · exact takes_fail _ _

/-! ### Replies -/

theorem Block.Summary.takes_summary : Takes Block.Summary.read fun summary front => front = summary.encode := by
  refine Header.takes_header.bind fun header _ hheader => takes_u32.bind fun count _ hcount => ?_
  refine takes_u64.bind fun height _ hheight => takes_u64.bind fun size _ hsize => takes_pure ?_
  obtain ⟨-, rfl⟩ := hheader
  subst hcount hheight hsize
  simp [Block.Summary.encode]

theorem TxStatus.takes_status : Takes TxStatus.read fun status front => front = status.encode := by
  refine takes_byte.bind fun tag front hfront => ?_
  subst hfront
  split
  · exact takes_pure rfl
  · exact takes_u64.map fun height back hback => by rw [hback]; rfl
  · exact takes_pure rfl
  · exact takes_fail _ _

theorem Reply.takes_reply :
    Takes Reply.read fun reply front => reply.kind ≠ .block → front = reply.encode := by
  refine takes_byte.bind fun tag front hfront => ?_
  subst hfront
  split
  · exact Block.takes_block.map fun block back _ hkind => absurd rfl hkind
  · exact Block.Summary.takes_summary.map fun summary back hback _ => by rw [hback]; rfl
  · exact takes_u64.map fun height back hback _ => by rw [hback]; rfl
  · exact takes_flag.map fun value back hback _ => by rw [hback]; rfl
  · exact takes_u32.map fun id back hback _ => by rw [hback]; rfl
  · exact takes_u32.map fun count back hback _ => by rw [hback]; rfl
  · exact TxStatus.takes_status.map fun status back hback _ => by rw [hback]; rfl
  · exact takes_pure fun _ => rfl
  · exact takes_text.map fun text back hback _ => by rw [hback.2]; rfl
  · exact takes_fail _ _

/-! ### Blocks -/

namespace Block

/-- Transactions in the order of timestamp and hash. -/
def InOrder (ts : List Transaction) : Prop :=
  ts.Pairwise fun s t => Transaction.OrderKey.le s.orderKey t.orderKey = true

variable {b : Block} {d : Bytes} {ts us : List Transaction}

/-- **A block is read exactly from its encodings**, one for each order of its transactions, if their lengths fit
four bytes. -/
theorem decode_eq_ok_iff : decode d = .ok b ↔ b.Fits ∧ ∃ ts, ts.Perm b.ordered ∧ d = b.encodeIn ts := by
  constructor
  · intro h
    exact takes_block.exactly h
  · rintro ⟨hfits, ts, hperm, rfl⟩
    exact (reads_block_of_perm hfits hperm).exactly

theorem inOrder_ordered (b : Block) : InOrder b.ordered := Transaction.pairwise_le_byKey b.txs.values

/-- Only one order of the transactions of a block is that of timestamp and hash. -/
theorem eq_ordered_iff (hperm : ts.Perm b.ordered) : ts = b.ordered ↔ InOrder ts := by
  have hnodup := b.keyed.nodup_map_hash (hperm.trans b.ordered_perm_values)
  exact ⟨fun h => h ▸ b.inOrder_ordered, fun h => Transaction.eq_of_pairwise_le hperm hnodup h b.inOrder_ordered⟩

/-- Equally many transactions that are written alike are the same. -/
theorem flatMap_encode_inj (hlength : ts.length = us.length) (hts : ∀ t ∈ ts, t.Fits) (hus : ∀ u ∈ us, u.Fits)
    (h : ts.flatMap Transaction.encode = us.flatMap Transaction.encode) : ts = us := by
  have hread : ∀ {l : List Transaction}, (∀ t ∈ l, t.Fits) →
      Reads (many (Transaction.read Transaction.noLimit) l.length) (l.flatMap Transaction.encode) l := fun hl =>
    reads_many fun t ht => Transaction.reads_transaction (hl t ht) (Transaction.size_le_noLimit (hl t ht))
  have hleft := hread hts []
  have hright := hread hus []
  rw [h, hlength, hright] at hleft
  cases hleft
  rfl

/-- **The encoding of a block is the one in the order of timestamp and hash.** -/
theorem encode_eq_encodeIn_iff (hfits : b.Fits) (hperm : ts.Perm b.ordered) :
    b.encode = b.encodeIn ts ↔ InOrder ts := by
  rw [← eq_ordered_iff hperm, ← encodeIn_ordered]
  refine ⟨fun h => ?_, fun h => by rw [h]⟩
  have hordered : ∀ t ∈ b.ordered, t.Fits := fun t ht => hfits.txs t (b.mem_ordered.mp ht)
  have hsame : b.ordered.flatMap Transaction.encode = ts.flatMap Transaction.encode := List.append_cancel_left h
  exact (flatMap_encode_inj hperm.length_eq.symm hordered (fun t ht => hordered t (hperm.mem_iff.mp ht)) hsame).symm

end Block

/-! ### All formats -/

/-- **What can be read is what is written.** A transaction, a list of transactions, a request and a reply without a
block are read from their encodings alone. A block is read from its encodings in any order of its transactions, and
from nothing else; all of these have one length, and the one in the order of timestamp and hash is the encoding. That
the lengths of texts and byte strings fit four bytes has to be said only of bytes whose own length does not. -/
theorem decode_eq_ok_canonical (d : Bytes) :
    (∀ max t, Transaction.decode d max = .ok t → t.encode = d) ∧
    (∀ max ts, Transaction.decodeList d max = .ok ts → Transaction.encodeList ts = d) ∧
    (∀ request, Message.decode d = .ok (.client request) → (Message.client request).encode = d) ∧
    (∀ reply, Reply.decode d = .ok reply → reply.kind ≠ .block → reply.encode = d) ∧
    (∀ b, Block.decode d = .ok b ↔ b.Fits ∧ ∃ ts, ts.Perm b.ordered ∧ d = b.encodeIn ts) ∧
    (FitsSize d.length → ∀ b, Block.decode d = .ok b ↔ ∃ ts, ts.Perm b.ordered ∧ d = b.encodeIn ts) ∧
    ∀ b, Block.decode d = .ok b → b.encode.length = d.length ∧
      ∀ ts, ts.Perm b.ordered → d = b.encodeIn ts → (b.encode = d ↔ Block.InOrder ts) := by
  refine ⟨fun max t h => ?_, fun max ts h => ?_, fun request h => ?_, fun reply h hkind => ?_,
    fun b => Block.decode_eq_ok_iff, fun hlength b => ?_, fun b h => ⟨Block.length_encode_of_decode h, ?_⟩⟩
  · exact ((Transaction.takes_transaction max).exactly h).2.symm
  · have hlist := takes_list ((Transaction.takes_transaction max).imp fun t front hfront => hfront.2)
    exact (hlist.exactly h).symm
  · exact (Message.takes_client.exactly h request rfl).symm
  · exact (Reply.takes_reply.exactly h hkind).symm
  · refine Block.decode_eq_ok_iff.trans ⟨fun h => h.2, fun h => ⟨?_, h⟩⟩
    obtain ⟨ts, hperm, rfl⟩ := h
    exact Block.fits_of_length (Block.length_encodeIn hperm ▸ hlength)
  · rintro ts hperm rfl
    exact Block.encode_eq_encodeIn_iff (Block.decode_eq_ok_iff.mp h).1 hperm

open Transaction Block in
/-- A block over two transactions is also read from its encoding with the later one in front, which is as long as
its own encoding but another one. -/
theorem decode_eq_ok_canonical_swapped :
    ∃ b, ofList none 1 [unsignedLong, genesisTransaction] 0 [] currentVersion = .ok b ∧
      Block.decode (b.encodeIn [genesisTransaction, unsignedLong]) = .ok b ∧
      b.encode.length = (b.encodeIn [genesisTransaction, unsignedLong]).length ∧
      b.encode ≠ b.encodeIn [genesisTransaction, unsignedLong] := by
  have hnodup : ([unsignedLong, genesisTransaction].map (·.hash)).Nodup := by
    simpa using hash_unsignedLong_ne
  obtain ⟨b, hb, htxs, hheader⟩ := ofList_of_nodup none 1 0 [] currentVersion hnodup (by decide)
  have hvalues : [unsignedLong, genesisTransaction].Perm b.txs.values :=
    htxs ▸ (TxMap.values_ofTransactions_perm hnodup).symm
  have hperm : [genesisTransaction, unsignedLong].Perm b.ordered :=
    (List.Perm.swap _ _ _).trans (hvalues.trans b.ordered_perm_values.symm)
  have hfits : b.Fits := by
    refine ⟨?_, fun t ht => ?_⟩
    · rw [hheader]
      exact ⟨by decide, by decide⟩
    · rcases List.mem_pair.mp (hvalues.mem_iff.mpr ht) with rfl | rfl
      · decide +kernel
      · decide +kernel
  have hall := decode_eq_ok_canonical (b.encodeIn [genesisTransaction, unsignedLong])
  obtain ⟨-, -, -, -, hread, -, hwritten⟩ := hall
  have hdecode := (hread b).mpr ⟨hfits, _, hperm, rfl⟩
  obtain ⟨hlength, horder⟩ := hwritten b hdecode
  refine ⟨b, hb, hdecode, hlength, fun heq => ?_⟩
  have hpair := (horder _ hperm rfl).mp heq
  rw [InOrder, List.pairwise_pair] at hpair
  exact absurd hpair (by decide +kernel)

end ReplicatedLedger
