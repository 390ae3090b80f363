import ReplicatedLedger.Proofs.Codec.Image

/-! # Where a value ends

A reader is local when it takes the same value off the front of all bytes that start with those which it took it from
(`Local`). The readers of single fields are, because they take the encoding of what they read (`Takes`) and read it off
any bytes (`Reads`), and so are readers that are composed of local ones (`Local.bind`). The guards of lists and blocks
look at the number of bytes that remain, but nothing that was read would be refused if there were more of them
(`local_list`, `local_block`). So in all formats no bytes that can be read stand in front of others
(`formats_prefixFree`). -/

namespace ReplicatedLedger

namespace Wire

variable {α β : Type}

/-- What the reader takes off the front of some bytes, it takes off the front of all bytes that start so. -/
def Local (r : Reader α) : Prop := Takes r fun a front => Reads r front a

/-! ### Composition -/

theorem local_pure (a : α) : Local (pure a) := takes_pure (Reads.pure a)

theorem local_fail (cause : Malformed) : Local (fail cause : Reader α) := takes_fail _ cause

/-- A computation that does not read. -/
theorem local_lift (x : Except DataError α) : Local (liftM x) := by
  refine takes_lift fun a hok => ?_
  rw [hok]
  exact Reads.pure a

theorem Local.bind {r : Reader α} {f : α → Reader β} (h : Local r) (k : ∀ a, Local (f a)) : Local (r >>= f) :=
  Takes.bind h fun a _ hfront => (k a).imp fun _ _ hback => hfront.bind hback

theorem Local.map {r : Reader α} (h : Local r) (f : α → β) : Local (f <$> r) :=
  Takes.map h fun _ _ hfront => hfront.map f

/-! ### Fields -/

theorem local_take (n : Nat) : Local (take n) :=
  (takes_take n).imp fun _ _ h => h.1 ▸ reads_take_of_length h.2

theorem local_byte : Local readByte := takes_byte.imp fun b _ h => h ▸ reads_byte b

theorem local_u32 : Local readU32 := takes_u32.imp fun w _ h => h ▸ reads_u32 w

theorem local_u64 : Local readU64 := takes_u64.imp fun w _ h => h ▸ reads_u64 w

theorem local_flag : Local readFlag := takes_flag.imp fun b _ h => h ▸ reads_flag b

theorem local_blob : Local readBlob := takes_blob.imp fun _ _ h => h.2 ▸ reads_blob h.1

theorem local_text : Local readText := takes_text.imp fun _ _ h => h.2 ▸ reads_text h.1

theorem local_digest : Local readDigest := takes_digest.imp fun h _ hfront => hfront ▸ reads_digest h

/-! ### Lists -/

theorem local_many {r : Reader α} (h : Local r) (n : Nat) : Local (many r n) := by
  induction n with
  | zero => exact local_pure []
  | succ n ih => exact h.bind fun a => ih.bind fun as => local_pure (a :: as)

theorem takes_many_long {r : Reader α} {k : Nat} (h : Takes r fun _ front => k ≤ front.length) (n : Nat) :
    Takes (many r n) fun _ front => k * n ≤ front.length := by
  induction n with
  | zero => exact takes_pure (Nat.zero_le _)
  | succ n ih =>
    refine h.bind fun a front hfront => ih.bind fun as back hback => takes_pure ?_
    rw [List.append_nil, List.length_append, Nat.mul_succ, Nat.add_comm]
    exact Nat.add_le_add hfront hback

/-- **A list is read off longer bytes** too: elements that take four bytes at least pass the guard by themselves. -/
theorem local_list {r : Reader α} (h : Local r) (hlong : Takes r fun _ front => 4 ≤ front.length) :
    Local (readCount >>= many r) := by
  refine takes_count.bind fun n front hcount d as rest hok => ?_
  obtain ⟨back, hd, hreads⟩ := local_many h n d as rest hok
  obtain ⟨back', hd', hlength⟩ := takes_many_long hlong n d as rest hok
  obtain rfl : back = back' := List.append_cancel_right (hd.symm.trans hd')
  refine ⟨back, hd, fun later => ?_⟩
  have hguard : 4 * n ≤ (back ++ later).length := by
    rw [List.length_append]
    exact Nat.le_add_right_of_le hlength
  rw [hcount.2, List.append_assoc, bind_ok (readCount_size hcount.1 hguard)]
  exact hreads later

/-! ### What can be read -/

/-- What can be read, cannot be read any more when bytes are missing at its end, or when there are some behind it. -/
def PrefixFree (decode : Bytes → Except DataError α) : Prop := ∀ d a, decode d = .ok a →
  (∀ front, front <+: d → front ≠ d → ∃ e, decode front = .error e) ∧
  ∀ extra, extra ≠ [] → decode (d ++ extra) = .error (.malformed (.trailing extra.length))

/-- Bytes that can be read at their front are refused because of those behind. -/
theorem Local.exactly_append {r : Reader α} (h : Local r) {d extra : Bytes} {a : α} (hok : exactly r d = .ok a)
    (hextra : extra ≠ []) : exactly r (d ++ extra) = .error (.malformed (.trailing extra.length)) := by
  obtain ⟨front, hd, hreads⟩ := h d a [] (exists_of_exactly_eq_ok hok)
  rw [List.append_nil] at hd
  rw [exactly, hd, hreads extra]
  exact if_neg hextra

/-- It is enough to look at bytes behind: bytes that are cut off would be such bytes. -/
theorem prefixFree_of_append {decode : Bytes → Except DataError α}
    (h : ∀ d a, decode d = .ok a → ∀ extra, extra ≠ [] →
      decode (d ++ extra) = .error (.malformed (.trailing extra.length))) : PrefixFree decode := by
  refine fun d a hok => ⟨fun front hfront hne => ?_, h d a hok⟩
  obtain ⟨extra, rfl⟩ := hfront
  cases hcut : decode front with
  | error e => exact ⟨e, rfl⟩
  | ok b =>
    have hextra : extra ≠ [] := fun hnil => hne (hnil ▸ (List.append_nil front).symm)
    exact nomatch hok.symm.trans (h front b hcut extra hextra)

theorem Local.prefixFree {r : Reader α} (h : Local r) : PrefixFree (exactly r) :=
  prefixFree_of_append fun _ _ hok _ hextra => h.exactly_append hok hextra

end Wire

open Wire

/-! ### Transactions and blocks -/

theorem Transaction.local_transaction (max : Nat) : Local (Transaction.read max) :=
  (takes_transaction max).imp fun _ _ h => h.2 ▸ reads_transaction h.1.1 h.1.2

theorem Transaction.local_transactions (max : Nat) : Local (Transaction.readList max) := by
  refine local_list (local_transaction max) ((takes_transaction max).imp fun t _ h => ?_)
  rw [h.2]
  exact Nat.le_trans (by decide) t.seventeen_le_length_encode

theorem Block.local_block : Local Block.read := by
  refine takes_block.imp fun b front h => ?_
  obtain ⟨hfits, ts, hperm, rfl⟩ := h
  exact reads_block_of_perm hfits hperm

theorem Header.local_header : Local Header.read := takes_header.imp fun _ _ h => h.2 ▸ reads_header h.1

theorem Block.Summary.local_summary : Local Block.Summary.read :=
  Header.local_header.bind fun _ => local_u32.bind fun _ => local_u64.bind fun _ => local_u64.bind fun _ =>
    local_pure _

theorem Block.Record.local_frame : Local Record.readFrame := by
  refine local_u32.bind fun w => ?_
  dsimp only
  split_ifs
  · exact local_fail _
  · exact local_take _

/-! ### Messages and replies -/

theorem Request.local_request : Local Request.read := by
  refine local_byte.bind fun tag => ?_
  split
  · exact local_pure _
  · exact local_pure _
  · exact local_u64.map _
  · exact local_u64.map _
  · exact local_pure _
  · exact local_blob.map _
  · exact (local_list local_blob (takes_blob.imp fun bs _ h => by rw [h.2]; simp)).map _
  · exact local_pure _
  · exact local_pure _
  · exact local_digest.map _
  · exact local_pure _
  · exact local_fail _

theorem Message.local_message : Local Message.read := by
  refine local_byte.bind fun tag => ?_
  split
  · exact Request.local_request.map _
  · exact local_u32.bind fun _ => local_blob.bind fun raw => (local_lift (Block.decode raw)).bind fun _ => local_pure _
  · exact local_fail _

theorem TxStatus.local_status : Local TxStatus.read := by
  refine local_byte.bind fun tag => ?_
  split
  · exact local_pure _
  · exact local_u64.map _
  · exact local_pure _
  · exact local_fail _

theorem Reply.local_reply : Local Reply.read := by
  refine local_byte.bind fun tag => ?_
  split
  · exact Block.local_block.map _
  · exact Block.Summary.local_summary.map _
  · exact local_u64.map _
  · exact local_flag.map _
  · exact local_u32.map _
  · exact local_u32.map _
  · exact TxStatus.local_status.map _
  · exact local_pure _
  · exact local_text.map _
  · exact local_fail _

/-! ### All formats -/

/-- A record is cut out before its block is read, so that the bytes behind it are found first. -/
theorem Block.Record.prefixFree_decode : PrefixFree Record.decode := by
  refine prefixFree_of_append fun d b hok extra hextra => ?_
  obtain ⟨body, hframe, -⟩ := exists_of_decode hok
  rw [Record.decode, local_frame.exactly_append hframe hextra]
  rfl

/-- **All formats are prefix-free**, under every limit on the size of transactions: of bytes that can be read no
beginning can be read, and with bytes behind them they are refused, with the number of these. -/
theorem formats_prefixFree :
    (∀ max, PrefixFree fun d => Transaction.decode d max) ∧
    (∀ max, PrefixFree fun d => Transaction.decodeList d max) ∧
    PrefixFree Block.decode ∧ PrefixFree Block.Record.decode ∧ PrefixFree Message.decode ∧ PrefixFree Reply.decode :=
  ⟨fun max => (Transaction.local_transaction max).prefixFree, fun max => (Transaction.local_transactions max).prefixFree,
    Block.local_block.prefixFree, Block.Record.prefixFree_decode, Message.local_message.prefixFree,
    Reply.local_reply.prefixFree⟩

/-- Two transactions of no bytes are submitted: with one of them cut off, the number of them is not too large for the
bytes that remain, and with a third one behind them, nothing but that is wrong. -/
theorem formats_prefixFree_batch :
    let d := (Message.client (.addBatch [[], []])).encode
    Message.decode d = .ok (.client (.addBatch [[], []])) ∧
    (∃ e, Message.decode (d.take 10) = .error e) ∧
    Message.decode (d ++ [0, 0, 0, 0]) = .error (.malformed (.trailing 4)) := by
  intro d
  have hread : Message.decode d = .ok (.client (.addBatch [[], []])) := Message.decode_encode ⟨by decide, by decide⟩
  obtain ⟨-, -, -, -, hfree, -⟩ := formats_prefixFree
  obtain ⟨hcut, hlonger⟩ := hfree d _ hread
  exact ⟨hread, hcut (d.take 10) (List.take_prefix 10 d) (by decide), hlonger [0, 0, 0, 0] (List.cons_ne_nil _ _)⟩

end ReplicatedLedger
