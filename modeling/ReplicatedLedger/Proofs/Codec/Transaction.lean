import ReplicatedLedger.Proofs.Codec.Fields
import ReplicatedLedger.Transaction.Wire

/-! # Reading back what was written: transactions

A transaction whose text, payload and signature have lengths that four bytes hold is read back from its
encoding by every reader with a limit not below its size (`reads_transaction`). The size is the length
of the encoding (`length_encode`), and reading computes the hash anew, so that the whole record comes
back. -/

namespace ReplicatedLedger.Transaction

open Wire

/-- All lengths fit four bytes. -/
structure Content.Fits (c : Content) : Prop where
  version : FitsSize c.version.utf8ByteSize
  payload : FitsSize c.payload.length
  signature : ∀ s ∈ c.signature, FitsSize s.length

instance (c : Content) : Decidable c.Fits :=
  decidable_of_iff (FitsSize c.version.utf8ByteSize ∧ FitsSize c.payload.length ∧
      ∀ s ∈ c.signature, FitsSize s.length)
    ⟨fun ⟨v, p, s⟩ => ⟨v, p, s⟩, fun ⟨v, p, s⟩ => ⟨v, p, s⟩⟩

theorem length_encode (t : Transaction) : t.encode.length = t.size := by
  rw [encode, Content.size]
  cases t.signature with
  | none => simp; omega
  | some s => simp; omega

/-- A transaction takes seventeen bytes at least, more than the guards of lists and blocks ask for. -/
theorem seventeen_le_length_encode (t : Transaction) : 17 ≤ t.encode.length := by
  rw [length_encode, Content.size]
  omega

theorem fits_of_length {t : Transaction} (h : FitsSize t.encode.length) : t.Fits := by
  rw [length_encode, Content.size] at h
  refine ⟨h.mono (by omega), h.mono (by omega), fun s hs => h.mono ?_⟩
  rw [Option.mem_def.mp hs]
  dsimp only
  omega

theorem size_le_noLimit {t : Transaction} (h : t.Fits) : t.size ≤ noLimit := by
  obtain ⟨hv, hp, hs⟩ := h
  have hmax : noLimit = 18446744073709551615 := rfl
  unfold FitsSize UInt32.size at hv hp
  rw [Content.size, hmax]
  cases hsig : t.signature with
  | none => simp only; omega
  | some s =>
    have hlen : s.length < 4294967296 := hs s hsig
    simp only
    omega

theorem ofContent_toContent (t : Transaction) : ofContent t.toContent = t := ext_content rfl

theorem bounded_of_size_le {t : Transaction} {max : Nat} (h : t.size ≤ max) :
    bounded t.toContent max = .ok t := by
  rw [bounded, if_neg (Nat.not_lt.mpr h), ofContent_toContent]

theorem content_of_bounded {c : Content} {max : Nat} {t : Transaction} (h : bounded c max = .ok t) :
    t.toContent = c ∧ t.size ≤ max := by
  unfold bounded at h
  split at h
  · cases h
  · rename_i hsmall
    cases h
    exact ⟨rfl, Nat.not_lt.mp hsmall⟩

/-- What is read from the encoding, and the rest, if the limit allows it. -/
theorem read_encode {t : Transaction} (h : t.Fits) (max : Nat) (rest : Bytes) :
    read max (t.encode ++ rest) = (bounded t.toContent max).map fun u => (u, rest) := by
  have hbounded : ∀ signature, t.signature = signature →
      (liftM (bounded ⟨t.version, t.timestamp, t.payload, signature⟩ max) : Reader Transaction) rest =
        (bounded t.toContent max).map fun u => (u, rest) := by
    rintro signature rfl
    cases bounded t.toContent max <;> rfl
  simp only [encode, List.append_assoc]
  rw [read, bind_ok (reads_text h.version _), bind_ok (reads_i64 _ _), bind_ok (reads_blob h.payload _)]
  cases hsig : t.signature with
  | none =>
    rw [bind_ok (reads_flag false _), if_neg Bool.false_ne_true]
    exact (bind_ok (Reads.pure none rest) _).trans (hbounded none hsig)
  | some s =>
    rw [List.append_assoc, bind_ok (reads_flag true _), if_pos rfl]
    exact (bind_ok ((reads_blob (h.signature s hsig)).map some rest) _).trans (hbounded (some s) hsig)

theorem reads_transaction {t : Transaction} {max : Nat} (h : t.Fits) (hmax : t.size ≤ max) :
    Reads (read max) t.encode t := by
  intro rest
  rw [read_encode h, bounded_of_size_le hmax]
  rfl

theorem reads_transactions {ts : List Transaction} {max : Nat} (hn : FitsSize ts.length)
    (hfits : ∀ t ∈ ts, t.Fits) (hmax : ∀ t ∈ ts, t.size ≤ max) :
    Reads (readList max) (encodeList ts) ts :=
  reads_list hn (fun t ht => reads_transaction (hfits t ht) (hmax t ht))
    fun t _ => Nat.le_trans (by decide) (seventeen_le_length_encode t)

theorem decode_encode {t : Transaction} {max : Nat} (h : t.Fits) (hmax : t.size ≤ max) :
    decode t.encode max = .ok t :=
  (reads_transaction h hmax).exactly

theorem decodeList_encodeList {ts : List Transaction} {max : Nat} (hn : FitsSize ts.length)
    (hfits : ∀ t ∈ ts, t.Fits) (hmax : ∀ t ∈ ts, t.size ≤ max) :
    decodeList (encodeList ts) max = .ok ts :=
  (reads_transactions hn hfits hmax).exactly

end ReplicatedLedger.Transaction
