import ReplicatedLedger.Proofs.Block.Membership
import ReplicatedLedger.Proofs.Codec.Image

/-! # The parts of a block

A block keeps its header, its transactions, their number, its height and its hash, and each part but the height is
tied to the others (`Parts.Consistent`). Some blocks are checked when they are put together, from a list or from
parts, and with them all that are read from bytes; the first block and one with a new stamp are not. All of them are
consistent (`Obtained.consistent`), and `ofParts` takes exactly the parts that fit (`exists_ofParts_iff`). -/

namespace ReplicatedLedger.Block

open Wire

/-! ### Consistent parts -/

/-- What is kept of a block. -/
structure Parts where
  header : Header
  txs : TxMap
  count : UInt32
  height : UInt64
  hash : Digest

/-- The parts of a block. -/
def parts (b : Block) : Parts := ⟨b.header, b.txs, b.count, b.height, b.hash⟩

/-- Counter, keys and root are those of the transactions. -/
structure Fit (header : Header) (txs : TxMap) (count : UInt32) : Prop where
  count_eq : count.toNat = txs.size
  key_eq : ∀ e ∈ txs.entries, e.1 = Digest.of e.2.identity
  root_eq : txs.checkedRoot = .ok header.root

/-- What the parts of a block say about one another. -/
structure Parts.Consistent (p : Parts) : Prop extends Fit p.header p.txs p.count where
  size_eq : ∀ e ∈ p.txs.entries, e.2.size = e.2.encode.length
  root_eq_none_iff : p.header.root = none ↔ p.txs.size = 0
  hash_eq : p.hash = Digest.of p.header.data

variable {header : Header} {txs : TxMap} {count : UInt32} {height : UInt64} {b : Block}

theorem keyed_iff : txs.Keyed ↔ ∀ e ∈ txs.entries, e.1 = Digest.of e.2.identity :=
  forall₂_congr fun e _ => by rw [e.2.hash_eq]

theorem fit_iff : Fit header txs count ↔ count.toNat = txs.size ∧ txs.Keyed ∧ header.root = txs.root? := by
  constructor
  · rintro ⟨hcount, hkeys, hroot⟩
    have hkeyed := keyed_iff.mpr hkeys
    rw [hkeyed.checkedRoot_eq] at hroot
    exact ⟨hcount, hkeyed, (Except.ok.inj hroot).symm⟩
  · rintro ⟨hcount, hkeyed, hroot⟩
    exact ⟨hcount, keyed_iff.mp hkeyed, by rw [hkeyed.checkedRoot_eq, hroot]⟩

/-- Fitting parts with the hash of the header are consistent. -/
theorem Fit.consistent (h : Fit header txs count) (height : UInt64) :
    Parts.Consistent ⟨header, txs, count, height, header.hash⟩ where
  toFit := h
  size_eq e _ := e.2.length_encode.symm
  root_eq_none_iff := by
    obtain ⟨-, hkeyed, hroot⟩ := fit_iff.mp h
    change header.root = none ↔ txs.size = 0
    rw [hroot, TxMap.root?, Merkle.root?_eq_none_iff, ← hkeyed.length_leaves, List.length_eq_zero_iff]
  hash_eq := rfl

/-! ### Putting together -/

theorem parts_of_assemble {hkeyed : txs.Keyed} {hroot : header.root = txs.root?}
    (h : assemble header height txs hkeyed hroot = .ok b) :
    Fit header txs txs.size.toUInt32 ∧ b.parts = ⟨header, txs, txs.size.toUInt32, height, header.hash⟩ := by
  unfold assemble at h
  split at h
  · next hsize =>
    cases h
    exact ⟨fit_iff.mpr ⟨FitsSize.toNat_toUInt32 hsize, hkeyed, hroot⟩, rfl⟩
  · cases h

theorem fit_of_ofParts (h : ofParts header txs count height = .ok b) :
    Fit header txs count ∧ b.parts = ⟨header, txs, count, height, header.hash⟩ := by
  unfold ofParts at h
  split_ifs at h with hcount hkeyed hroot
  have hsame : txs.size.toUInt32 = count := by
    rw [← Decidable.not_not.mp hcount, Nat.toUInt32_eq, UInt32.ofNat_toNat]
  exact hsame ▸ parts_of_assemble h

theorem exists_ofParts_of_fit (h : Fit header txs count) (height : UInt64) :
    ∃ b, ofParts header txs count height = .ok b := by
  obtain ⟨hcount, hkeyed, hroot⟩ := fit_iff.mp h
  -- The counter fits four bytes, so the check on the number of transactions passes too.
  have hsize : txs.size < UInt32.size := hcount ▸ count.toNat_lt
  rw [ofParts, if_neg (not_not_intro hcount), dif_pos hkeyed, dif_pos hroot, assemble, dif_pos hsize]
  exact ⟨_, rfl⟩

/-- **The parts that make a block** are exactly the fitting ones, and they are kept. -/
theorem exists_ofParts_iff : (∃ b, ofParts header txs count height = .ok b ∧
    b.parts = ⟨header, txs, count, height, header.hash⟩) ↔ Fit header txs count := by
  constructor
  · rintro ⟨b, hb, -⟩
    exact (fit_of_ofParts hb).1
  · intro h
    obtain ⟨b, hb⟩ := exists_ofParts_of_fit h height
    exact ⟨b, hb, (fit_of_ofParts hb).2⟩

theorem consistent_of_ofParts (h : ofParts header txs count height = .ok b) : b.parts.Consistent := by
  obtain ⟨hfit, hparts⟩ := fit_of_ofParts h
  rw [hparts]
  exact hfit.consistent height

theorem consistent_of_ofList {previous : Option Digest} {ts : List Transaction} {timestamp : Int64} {nonce : Bytes}
    {version : String} (h : ofList previous height ts timestamp nonce version = .ok b) : b.parts.Consistent := by
  unfold ofList at h
  dsimp only at h
  split_ifs at h
  obtain ⟨hfit, hparts⟩ := parts_of_assemble h
  rw [hparts]
  exact hfit.consistent height

/-! ### Without a check -/

/-- The first block counts one transaction, whose hash is the root. -/
theorem parts_genesis : genesis.parts =
    let header : Header := ⟨none, Transaction.currentVersion, genesisTimestamp, [], some genesisTransaction.hash⟩
    ⟨header, .ofTransactions [genesisTransaction], 1, 0, header.hash⟩ := by
  rw [← TxMap.root?_singleton]
  rfl

theorem consistent_genesis : genesis.parts.Consistent := by
  rw [parts_genesis]
  exact (fit_iff.mpr ⟨rfl, TxMap.keyed_ofTransactions _, (TxMap.root?_singleton _).symm⟩).consistent 0

/-- A new stamp changes the header in two fields, and the hash with it. -/
theorem parts_restamp (b : Block) (timestamp : Int64) (nonce : Bytes) : (b.restamp timestamp nonce).parts =
    let header : Header := { b.header with timestamp, nonce }
    { b.parts with header, hash := header.hash } := rfl

theorem consistent_restamp (h : b.parts.Consistent) (timestamp : Int64) (nonce : Bytes) :
    (b.restamp timestamp nonce).parts.Consistent := by
  rw [parts_restamp]
  have hfit : Fit { b.header with timestamp, nonce } b.txs b.count := ⟨h.count_eq, h.key_eq, h.root_eq⟩
  exact hfit.consistent b.height

/-! ### Reading -/

/-- The block was put together from parts. -/
def FromParts (b : Block) : Prop := ∃ header txs count height, ofParts header txs count height = .ok b

/-- Whatever is read before, the last step puts the block together. -/
theorem takes_fromParts : Takes read fun b _ => FromParts b := by
  refine Header.takes_header.bind fun header _ _ => takes_u64.bind fun height _ _ => ?_
  refine takes_u32.bind fun count _ _ => takes_get_bind fun d => ?_
  split_ifs
  · exact takes_fail _ _
  · exact (takes_transactions _ _).bind fun m _ _ => takes_lift fun b hok => ⟨_, _, _, _, hok⟩

theorem fromParts_of_decode {d : Bytes} (h : decode d = .ok b) : FromParts b := takes_fromParts.exactly h

theorem Record.fromParts_of_decode {d : Bytes} (h : Record.decode d = .ok b) : FromParts b := by
  obtain ⟨body, -, hbody⟩ := Record.exists_of_decode h
  exact Block.fromParts_of_decode hbody

theorem fromParts_of_message {d : Bytes} {sender : UInt32} (h : Message.decode d = .ok (.proposal sender b)) :
    FromParts b := by
  have hread : Takes Message.read fun message _ => ∀ sender b, message = .proposal sender b → FromParts b := by
    refine takes_byte.bind fun tag _ _ => ?_
    split
    · exact Request.takes_request.map fun _ _ _ _ _ hother => nomatch hother
    · refine takes_u32.bind fun sender _ _ => takes_blob.bind fun raw _ _ => ?_
      have hblock : Takes (liftM (decode raw) : Reader Block) fun b _ => FromParts b :=
        takes_lift fun _ hok => fromParts_of_decode hok
      refine hblock.bind fun b _ hb => takes_pure fun sender' b' hsame => ?_
      cases hsame
      exact hb
    · exact takes_fail _ _
  exact hread.exactly h sender b rfl

theorem fromParts_of_reply {d : Bytes} (h : Reply.decode d = .ok (.block b)) : FromParts b := by
  have hread : Takes Reply.read fun reply _ => ∀ b, reply = .block b → FromParts b := by
    refine takes_byte.bind fun tag _ _ => ?_
    split
    · refine takes_fromParts.map fun b _ hb b' hsame => ?_
      cases hsame
      exact hb
    · exact Summary.takes_summary.map fun _ _ _ _ hother => nomatch hother
    · exact takes_u64.map fun _ _ _ _ hother => nomatch hother
    · exact takes_flag.map fun _ _ _ _ hother => nomatch hother
    · exact takes_u32.map fun _ _ _ _ hother => nomatch hother
    · exact takes_u32.map fun _ _ _ _ hother => nomatch hother
    · exact TxStatus.takes_status.map fun _ _ _ _ hother => nomatch hother
    · exact takes_pure fun _ hother => nomatch hother
    · exact takes_text.map fun _ _ _ _ hother => nomatch hother
    · exact takes_fail _ _
  exact hread.exactly h b rfl

/-! ### All blocks -/

/-- The blocks that there can be: built, put together, the first one, or read, and stamped anew any number of
times. -/
inductive Obtained : Block → Prop
  | ofList {previous : Option Digest} {height : UInt64} {ts : List Transaction} {timestamp : Int64} {nonce : Bytes}
      {version : String} {b : Block} :
      Block.ofList previous height ts timestamp nonce version = .ok b → Obtained b
  | ofParts {header : Header} {txs : TxMap} {count : UInt32} {height : UInt64} {b : Block} :
      Block.ofParts header txs count height = .ok b → Obtained b
  | genesis : Obtained Block.genesis
  | decode {d : Bytes} {b : Block} : Block.decode d = .ok b → Obtained b
  | record {d : Bytes} {b : Block} : Record.decode d = .ok b → Obtained b
  | message {d : Bytes} {sender : UInt32} {b : Block} : Message.decode d = .ok (.proposal sender b) → Obtained b
  | reply {d : Bytes} {b : Block} : Reply.decode d = .ok (.block b) → Obtained b
  | restamp {b : Block} (timestamp : Int64) (nonce : Bytes) : Obtained b → Obtained (b.restamp timestamp nonce)

theorem FromParts.consistent (h : FromParts b) : b.parts.Consistent := by
  obtain ⟨header, txs, count, height, hb⟩ := h
  exact consistent_of_ofParts hb

theorem Obtained.consistent (h : Obtained b) : b.parts.Consistent := by
  induction h with
  | ofList hb => exact consistent_of_ofList hb
  | ofParts hb => exact consistent_of_ofParts hb
  | genesis => exact consistent_genesis
  | decode hb => exact (fromParts_of_decode hb).consistent
  | record hb => exact (Record.fromParts_of_decode hb).consistent
  | message hb => exact (fromParts_of_message hb).consistent
  | reply hb => exact (fromParts_of_reply hb).consistent
  | restamp timestamp nonce _ ih => exact consistent_restamp ih timestamp nonce

/-- **The parts of every block are consistent**, however it was obtained, and parts make a block, with nothing
changed, as soon as they fit. -/
theorem obtained_consistent :
    (∀ b, Obtained b → b.parts.Consistent) ∧
    ∀ header txs count height, Fit header txs count ↔
      ∃ b, ofParts header txs count height = .ok b ∧ b.parts = ⟨header, txs, count, height, header.hash⟩ :=
  ⟨fun _ h => h.consistent, fun _ _ _ _ => exists_ofParts_iff.symm⟩

/-- The first block is read from a proposal and stamped anew, and its parts are put together at another height. -/
theorem obtained_consistent_proposal :
    let b := Block.genesis.restamp 7 [0, 1]
    Message.decode (Message.proposal 3 Block.genesis).encode = .ok (.proposal 3 Block.genesis) ∧
      b.parts.Consistent ∧ Fit b.header b.txs 1 ∧
      ∃ b', Block.ofParts b.header b.txs 1 5 = .ok b' ∧ b'.parts = ⟨b.header, b.txs, 1, 5, b.header.hash⟩ := by
  intro b
  have hfits : FitsSize Block.genesis.encode.length := by decide +kernel
  have hdecode : Message.decode (Message.proposal 3 Block.genesis).encode = _ := Message.decode_encode hfits
  have hconsistent := obtained_consistent.1 b (.restamp 7 [0, 1] (.message hdecode))
  have hfit : Fit b.header b.txs 1 := hconsistent.toFit
  exact ⟨hdecode, hconsistent, hfit, (obtained_consistent.2 _ _ _ 5).mp hfit⟩

end ReplicatedLedger.Block
