import ReplicatedLedger.Proofs.Codec.Message

/-! # Refusing what is too large

`Fails r d e` says that the reader `r` refuses, with the error `e`, any bytes that start with `d`; it composes along the
readers as `Reads` does. A transaction that is larger than the limit is refused by its size (`fails_transaction`), and a
list by that of the first one in it that is too large (`decodeList_encodeList_of_find?`), since what stands before that
one is read. A batch whose number of elements is too large for four bytes cannot be read either: elements are left
(`Message.fits_of_decode_submission`). -/

namespace ReplicatedLedger

namespace Wire

variable {α β : Type} {r : Reader α} {d d' : Bytes} {e : DataError}

/-- The reader refuses bytes that start with the given ones. -/
def Fails (r : Reader α) (d : Bytes) (e : DataError) : Prop := ∀ rest, r (d ++ rest) = .error e

theorem Fails.bind (h : Fails r d e) (f : α → Reader β) (d' : Bytes) : Fails (r >>= f) (d ++ d') e := by
  intro rest
  rw [List.append_assoc]
  simp only [Bind.bind, StateT.bind, h (d' ++ rest), Except.bind]

theorem Fails.bind_nil (h : Fails r d e) (f : α → Reader β) : Fails (r >>= f) d e := by
  simpa using h.bind f []

theorem Reads.bind_fails {f : α → Reader β} {a : α} (h : Reads r d a) (k : Fails (f a) d' e) :
    Fails (r >>= f) (d ++ d') e := by
  intro rest
  rw [List.append_assoc, bind_ok (h (d' ++ rest))]
  exact k rest

theorem Fails.exactly (h : Fails r d e) : Wire.exactly r d = .error e := by
  have hfail : r d = .error e := by simpa using h []
  simp only [Wire.exactly, hfail]

/-! ### Lists -/

section

variable {encode : α → Bytes} {test : α → Bool} {as : List α} {a : α} {f : α → DataError}
  (hreads : ∀ a ∈ as, test a = false → Reads r (encode a) a)
  (hfails : ∀ a ∈ as, test a = true → Fails r (encode a) (f a)) (hfirst : as.find? test = some a)

include hreads hfails hfirst

/-- The first element that is refused decides. -/
theorem fails_many : Fails (many r as.length) (as.flatMap encode) (f a) := by
  induction as with
  | nil => cases hfirst
  | cons b as ih =>
    obtain ⟨hreads, hreads'⟩ := List.forall_mem_cons.mp hreads
    obtain ⟨hfails, hfails'⟩ := List.forall_mem_cons.mp hfails
    by_cases hb : test b = true
    · rw [List.find?_cons_of_pos hb] at hfirst
      cases hfirst
      exact (hfails hb).bind _ _
    · rw [List.find?_cons_of_neg hb] at hfirst
      have hlater := ih hreads' hfails' hfirst
      exact (hreads (Bool.eq_false_iff.mpr hb)).bind_fails (hlater.bind_nil _)

theorem fails_list (hn : FitsSize as.length) (hlen : ∀ a ∈ as, 4 ≤ (encode a).length) :
    Fails (readCount >>= many r) (size as.length ++ as.flatMap encode) (f a) := by
  intro rest
  have hle : 4 * as.length ≤ (as.flatMap encode ++ rest).length := by
    rw [List.length_append]
    exact Nat.le_add_right_of_le (mul_length_le_length_flatMap hlen)
  rw [List.append_assoc, bind_ok (readCount_size hn hle)]
  exact fails_many hreads hfails hfirst rest

end

/-- **A number of elements that four bytes do not hold** is written as a smaller one: elements are left. -/
theorem exists_rest_of_not_fits {encode : α → Bytes} {as : List α} (hn : ¬FitsSize as.length)
    (hreads : ∀ a ∈ as, Reads r (encode a) a) (hlen : ∀ a ∈ as, 4 ≤ (encode a).length) :
    ∃ front rest, rest ≠ [] ∧
      (readCount >>= many r) (size as.length ++ as.flatMap encode) = .ok (front, rest) := by
  obtain ⟨n, hwritten⟩ : ∃ n, n = as.length % UInt32.size := ⟨_, rfl⟩
  have hfits : FitsSize n := hwritten ▸ Nat.mod_lt _ (by decide)
  have hlt : n < as.length := Nat.lt_of_lt_of_le hfits (Nat.not_lt.mp hn)
  have hsize : size as.length = size n := hwritten ▸ congrArg u32 UInt32.ofNat_mod_size.symm
  have hmany : many r n (as.flatMap encode) = .ok (as.take n, (as.drop n).flatMap encode) := by
    have hfront : ∀ a ∈ as.take n, Reads r (encode a) a := fun a ha => hreads a (List.mem_of_mem_take ha)
    have h := reads_many hfront ((as.drop n).flatMap encode)
    rwa [List.length_take_of_le (Nat.le_of_lt hlt), ← List.flatMap_append, List.take_append_drop] at h
  refine ⟨as.take n, (as.drop n).flatMap encode, fun hnil => ?_, ?_⟩
  · have hback : ∀ a ∈ as.drop n, 4 ≤ (encode a).length := fun a ha => hlen a (List.mem_of_mem_drop ha)
    have hdrop := mul_length_le_length_flatMap hback
    rw [hnil, List.length_drop, List.length_nil] at hdrop
    omega
  · have hlong := mul_length_le_length_flatMap hlen
    rw [hsize, bind_ok (readCount_size hfits (Nat.le_trans (Nat.mul_le_mul_left 4 (Nat.le_of_lt hlt)) hlong))]
    exact hmany

end Wire

open Wire

/-! ### Transactions -/

namespace Transaction

variable {t : Transaction} {ts : List Transaction} {max : Nat}

theorem fails_transaction (h : t.Fits) (hmax : max < t.size) : Fails (read max) t.encode (.tooLarge t.size max) := by
  intro rest
  rw [read_encode h, bounded, if_pos hmax]
  rfl

/-- **A list is refused** by the first transaction in it that is too large. -/
theorem decodeList_encodeList_of_find? (hn : FitsSize ts.length) (hfits : ∀ t ∈ ts, t.Fits)
    (hfirst : ts.find? (fun t => decide (max < t.size)) = some t) :
    decodeList (encodeList ts) max = .error (.tooLarge t.size max) := by
  refine (fails_list (f := fun t => .tooLarge t.size max) (fun t ht hsmall => ?_) (fun t ht hlarge => ?_) hfirst hn
    fun t _ => Nat.le_trans (by decide) (seventeen_le_length_encode t)).exactly
  · exact reads_transaction (hfits t ht) (Nat.not_lt.mp (of_decide_eq_false hsmall))
  · exact fails_transaction (hfits t ht) (of_decide_eq_true hlarge)

end Transaction

/-! ### Submissions -/

/-- **A batch of too many** byte strings cannot be read. -/
theorem Message.fits_of_decode_submission {raws : List Bytes} {message : Message}
    (hfits : ∀ raw ∈ raws, FitsSize raw.length) (h : decode (client (.addBatch raws)).encode = .ok message) :
    FitsSize raws.length := by
  by_contra hn
  obtain ⟨front, rest, hrest, hread⟩ :=
    exists_rest_of_not_fits hn (fun raw hraw => reads_blob (hfits raw hraw)) fun raw _ => by simp
  have hrequest : Request.read (Request.addBatch raws).encode = .ok (.addBatch front, rest) :=
    (bind_ok (reads_byte 0x07 _) _).trans (map_ok hread Request.addBatch)
  have hmessage : read (client (.addBatch raws)).encode = .ok (client (.addBatch front), rest) :=
    (bind_ok (reads_byte 0x01 _) _).trans (map_ok hrequest client)
  cases hmessage.symm.trans (exists_of_exactly_eq_ok h)
  exact hrest rfl

end ReplicatedLedger
