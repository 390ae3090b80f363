import ReplicatedLedger.Message.Reply
import ReplicatedLedger.Message.Request
import ReplicatedLedger.Proofs.Codec.Canonical

/-! # Reading back what was written: messages and replies

One case per kind of request, message and reply: the first byte selects the reader of the fields that
were written behind it. The main statement, `decode_encode_all_formats`, collects the round trips of all
formats; a value whose lengths and numbers of elements fit four bytes is read back as it was, its hashes
and sizes included.

What is read from the bytes of a proposal is the proposal, whatever its block is (`eq_of_decode_proposal`): a block
too long for its length field is not read at all. -/

namespace ReplicatedLedger

open Wire

/-! ### Requests and messages -/

/-- The byte strings of the request, and their number, fit four bytes. -/
def Request.Fits : Request → Prop
  | add raw => FitsSize raw.length
  | addBatch raws => FitsSize raws.length ∧ ∀ raw ∈ raws, FitsSize raw.length
  | _ => True

theorem Request.reads_request {request : Request} (h : request.Fits) :
    Reads Request.read request.encode request := by
  cases request with
  | tip | tipSummary | height | chainValid | leader | nodes => exact Reads.tagged (by exact Reads.pure _)
  | block height => exact Reads.tagged ((reads_u64 height).map block)
  | blockSummary height => exact Reads.tagged ((reads_u64 height).map blockSummary)
  | add raw => exact Reads.tagged ((reads_blob h).map add)
  | addBatch raws =>
    have hlist := reads_list h.1 (fun raw hraw => reads_blob (h.2 raw hraw)) fun raw _ => by simp
    exact Reads.tagged (hlist.map addBatch)
  | status hash => exact Reads.tagged ((reads_digest hash).map status)

/-- The lengths in the message fit four bytes, that of an encoded block included. -/
def Message.Fits : Message → Prop
  | client request => request.Fits
  | proposal _ block => FitsSize block.encode.length

theorem Message.reads_message {message : Message} (h : message.Fits) :
    Reads Message.read message.encode message := by
  cases message with
  | client request => exact Reads.tagged ((Request.reads_request h).map client)
  | proposal sender block =>
    have hblock : Reads (liftM (Block.decode block.encode) : Reader Block) [] block := by
      rw [Block.decode_encode (Block.fits_of_length h)]
      exact Reads.pure block
    refine Reads.tagged ((reads_u32 sender).bind ((reads_blob h).bind_pure ?_))
    exact hblock.bind (Reads.pure _)

theorem Message.decode_encode {message : Message} (h : message.Fits) :
    Message.decode message.encode = .ok message :=
  (Message.reads_message h).exactly

/-- **From the bytes of a proposal** nothing else is read, if anything; a block that is too long for its length field
leaves a rest. -/
theorem Message.eq_of_decode_proposal {sender : UInt32} {block : Block} {message : Message}
    (h : Message.decode (Message.proposal sender block).encode = .ok message) :
    message = .proposal sender block ∧ FitsSize block.encode.length := by
  have htagged := exists_of_exactly_eq_ok h
  have hfields := (bind_ok (reads_byte 0x02 (u32 sender ++ blob block.encode)) _).symm.trans htagged
  have hrest := (bind_ok (reads_u32 sender (blob block.encode)) _).symm.trans hfields
  obtain ⟨raw, rest, hblob, hraw⟩ := exists_of_bind_eq_ok hrest
  obtain ⟨b, rest', hblock, hb⟩ := exists_of_bind_eq_ok hraw
  cases hb
  have hnil : rest = [] := by
    obtain ⟨front, hfront, hnone⟩ := takes_lift (R := fun _ front => front = []) (fun _ _ => rfl) rest b [] hblock
    rw [hfront, hnone]
    rfl
  obtain ⟨front, hfront, hfits, rfl⟩ := takes_blob _ _ _ hblob
  have hlength := congrArg List.length hfront
  rw [hnil, List.append_nil, length_blob, length_blob, Nat.add_left_cancel_iff] at hlength
  have hshort : (Message.proposal sender block).Fits := by
    rw [Message.Fits, hlength]
    exact hfits
  rw [Message.decode_encode hshort] at h
  exact ⟨(Except.ok.inj h).symm, hshort⟩

theorem Message.sender_eq_of_decode {sender sender' : UInt32} {block block' : Block}
    (h : Message.decode (Message.proposal sender block).encode = .ok (.proposal sender' block')) :
    sender' = sender := (Message.proposal.inj (eq_of_decode_proposal h).1).1

/-! ### Replies -/

/-- The lengths in the reply fit four bytes. -/
def Reply.Fits : Reply → Prop
  | block b => b.Fits
  | summary s => s.header.Fits
  | error s => FitsSize s.utf8ByteSize
  | _ => True

theorem TxStatus.reads_status (status : TxStatus) : Reads TxStatus.read status.encode status := by
  cases status with
  | inPool | unknown => exact Reads.tagged (by exact Reads.pure _)
  | inBlock height => exact Reads.tagged ((reads_u64 height).map inBlock)

theorem Reply.reads_reply {reply : Reply} (h : reply.Fits) : Reads Reply.read reply.encode reply := by
  cases reply with
  | block b => exact Reads.tagged ((Block.reads_block h).map block)
  | summary s => exact Reads.tagged ((Block.Summary.reads_summary h).map summary)
  | height n => exact Reads.tagged ((reads_u64 n).map height)
  | bool b => exact Reads.tagged ((reads_flag b).map bool)
  | leader id => exact Reads.tagged ((reads_u32 id).map leader)
  | count n => exact Reads.tagged ((reads_u32 n).map count)
  | status s => exact Reads.tagged ((TxStatus.reads_status s).map status)
  | notFound => exact Reads.tagged (by exact Reads.pure _)
  | error s => exact Reads.tagged ((reads_text h).map error)

theorem Reply.decode_encode {reply : Reply} (h : reply.Fits) : Reply.decode reply.encode = .ok reply :=
  (Reply.reads_reply h).exactly

/-! ### All formats -/

/-- **Round trip.** What is written in any of the formats is read back as it was, as long as its lengths
and numbers of elements fit four bytes and the limit on the size of transactions admits it. -/
theorem decode_encode_all_formats :
    (∀ (t : Transaction) (max : Nat), t.Fits → t.size ≤ max → Transaction.decode t.encode max = .ok t) ∧
    (∀ (ts : List Transaction) (max : Nat), FitsSize ts.length → (∀ t ∈ ts, t.Fits ∧ t.size ≤ max) →
      Transaction.decodeList (Transaction.encodeList ts) max = .ok ts) ∧
    (∀ b : Block, b.Fits → Block.decode b.encode = .ok b) ∧
    (∀ b : Block, FitsSize (1 + b.encode.length) → Block.Record.decode (Block.Record.encode b) = .ok b) ∧
    (∀ message : Message, message.Fits → Message.decode message.encode = .ok message) ∧
    ∀ reply : Reply, reply.Fits → Reply.decode reply.encode = .ok reply := by
  refine ⟨fun t max hfit hmax => Transaction.decode_encode hfit hmax, fun ts max hn hts => ?_,
    fun b hfit => Block.decode_encode hfit, fun b hlen => Block.Record.decode_encode hlen,
    fun message hfit => Message.decode_encode hfit, fun reply hfit => Reply.decode_encode hfit⟩
  exact Transaction.decodeList_encodeList hn (fun t ht => (hts t ht).1) fun t ht => (hts t ht).2

/-- A signed transaction of exactly the largest size, and a stamped block over it. -/
theorem decode_encode_signed_transaction :
    let t := Transaction.ofContent ⟨"1.0", -1, [1, 2, 3], some [0xff]⟩
    let b := Block.genesis.restamp 7 [0, 1]
    (t.Fits ∧ t.size ≤ 28 ∧ Transaction.decode t.encode 28 = .ok t) ∧
    Transaction.decodeList (Transaction.encodeList [t, t]) 28 = .ok [t, t] ∧
    (b.Fits ∧ Block.decode b.encode = .ok b) ∧
    (FitsSize (1 + b.encode.length) ∧ Block.Record.decode (Block.Record.encode b) = .ok b) ∧
    Message.decode (Message.proposal 3 b).encode = .ok (.proposal 3 b) ∧
    Message.decode (Message.client (.addBatch [t.encode, []])).encode =
      .ok (.client (.addBatch [t.encode, []])) ∧
    Reply.decode (Reply.summary b.summary).encode = .ok (.summary b.summary) := by
  intro t b
  have ht : t.Fits := by decide +kernel
  have hmax : t.size ≤ 28 := by decide +kernel
  have hb : b.Fits := by decide +kernel
  have hlen : FitsSize (1 + b.encode.length) := by decide +kernel
  obtain ⟨hone, hlist, hblock, hrecord, hmessage, hreply⟩ := decode_encode_all_formats
  refine ⟨⟨ht, hmax, hone t 28 ht hmax⟩, hlist [t, t] 28 (by decide) (by simp [ht, hmax]), ⟨hb, hblock b hb⟩,
    ⟨hlen, hrecord b hlen⟩, hmessage (.proposal 3 b) (hlen.mono (by omega)),
    hmessage (.client (.addBatch [t.encode, []])) ⟨by decide, ?_⟩, hreply (.summary b.summary) hb.header⟩
  decide +kernel

end ReplicatedLedger
