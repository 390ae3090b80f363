import ReplicatedLedger.Proofs.Codec.Canonical
import ReplicatedLedger.Proofs.Codec.Limits

/-! # Sizes

A size is computed from the fields, without writing anything. That of a transaction is the number of its bytes
(`Transaction.length_encode`), so that the limit on the size of a transaction is one on the bytes that it is read from
(`Transaction.decode_eq_ok_iff`). That of a block counts the data of its header, two numbers and the transactions; what
is written has the lengths of the fields of the header besides (`Block.length_encode`). The main statement is
`sizes_exact`. -/

namespace ReplicatedLedger

open Wire

/-! ### Transactions -/

namespace Transaction

/-- **A transaction is read** from its encoding alone, if that is not longer than the limit. -/
theorem decode_eq_ok_iff {d : Bytes} {max : Nat} {t : Transaction} :
    decode d max = .ok t ↔ t.Fits ∧ t.encode = d ∧ d.length ≤ max := by
  constructor
  · intro h
    obtain ⟨⟨hfits, hsize⟩, rfl⟩ := (takes_transaction max).exactly h
    exact ⟨hfits, rfl, t.length_encode.symm ▸ hsize⟩
  · rintro ⟨hfits, rfl, hlength⟩
    exact decode_encode hfits (t.length_encode ▸ hlength)

theorem length_flatMap_encode (ts : List Transaction) :
    (ts.flatMap encode).length = ts.foldr (fun t n => t.size + n) 0 := by
  induction ts with
  | nil => rfl
  | cons t ts ih => rw [List.flatMap_cons, List.length_append, length_encode, ih, List.foldr_cons]

end Transaction

/-! ### Blocks -/

/-- Four fields of a header are written behind their lengths; the timestamp is not. -/
theorem Header.length_encode (h : Header) : h.encode.length = h.size + 16 := by
  simp only [encode, size, List.length_append, length_digest?, length_text, length_i64, length_blob]
  omega

namespace Block

/-- Behind the header come the height and the counter, and the counter is part of the size. -/
theorem length_encode (b : Block) : b.encode.length = b.size + 20 := by
  have htxs := (b.ordered_perm_values.flatMap_right Transaction.encode).length_eq
  rw [Transaction.length_flatMap_encode b.txs.values] at htxs
  simp only [encode, size, List.length_append, Header.length_encode, length_u64, length_u32, htxs]
  omega

theorem Record.length_encode (b : Block) : (Record.encode b).length = b.size + 25 := by
  rw [Record.encode, List.length_append, length_size, List.length_cons, Block.length_encode]
  omega

end Block

/-- **Sizes are exact.** The size of a transaction is the number of its bytes. Exactly the encodings of transactions
that are not longer than the limit can be read, and a longer one is refused with its length and the limit. A block
takes twenty bytes more than its size says, and its record five more than that, whatever it holds. -/
theorem sizes_exact :
    (∀ t : Transaction, t.size = t.encode.length) ∧
    (∀ d max, (∃ t, Transaction.decode d max = .ok t) ↔
      (∃ t : Transaction, t.Fits ∧ t.encode = d) ∧ d.length ≤ max) ∧
    (∀ d max, (∃ t : Transaction, t.Fits ∧ t.encode = d) → max < d.length →
      Transaction.decode d max = .error (.tooLarge d.length max)) ∧
    ∀ b : Block, b.encode.length = b.size + 20 ∧ (Block.Record.encode b).length = b.size + 25 := by
  refine ⟨fun t => t.length_encode.symm, fun d max => ?_, fun d max hd hlong => ?_,
    fun b => ⟨b.length_encode, Block.Record.length_encode b⟩⟩
  · constructor
    · rintro ⟨t, ht⟩
      obtain ⟨hfits, hd, hlength⟩ := Transaction.decode_eq_ok_iff.mp ht
      exact ⟨⟨t, hfits, hd⟩, hlength⟩
    · rintro ⟨⟨t, hfits, hd⟩, hlength⟩
      exact ⟨t, Transaction.decode_eq_ok_iff.mpr ⟨hfits, hd, hlength⟩⟩
  · obtain ⟨t, hfits, rfl⟩ := hd
    rw [t.length_encode] at hlong ⊢
    exact (Transaction.fails_transaction hfits hlong).exactly

/-- A signed transaction of twenty-eight bytes can be read under this limit, and not under the next lower one; the
first block has no parent. -/
theorem sizes_exact_signed :
    let t := Transaction.ofContent ⟨"1.0", -1, [1, 2, 3], some [0xff]⟩
    t.encode.length = 28 ∧ (∃ u, Transaction.decode t.encode 28 = .ok u) ∧
    Transaction.decode t.encode 27 = .error (.tooLarge 28 27) ∧
    Block.genesis.encode.length = Block.genesis.size + 20 := by
  intro t
  obtain ⟨hsize, hread, hrefused, hblock⟩ := sizes_exact
  have hlength : t.encode.length = 28 := (hsize t).symm
  have hfits : ∃ u : Transaction, u.Fits ∧ u.encode = t.encode := ⟨t, by decide +kernel, rfl⟩
  refine ⟨hlength, (hread _ 28).mpr ⟨hfits, Nat.le_of_eq hlength⟩, ?_, (hblock .genesis).1⟩
  have hlong := hrefused _ 27 hfits (by omega)
  rwa [hlength] at hlong

end ReplicatedLedger
