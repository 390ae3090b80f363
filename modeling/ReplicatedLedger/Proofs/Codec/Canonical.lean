import ReplicatedLedger.Proofs.Codec.Block

/-! # Reading only what was written

`Takes r R` says that whatever the reader `r` takes off the front of the bytes is related by `R` to the value that
it reads. It composes along the readers (`Takes.bind`), so that nothing but the encoding of a value is read as this
value; only the transactions of a block may come in any order (`Block.takes_block`). So a block has as many bytes as
it is read from (`Block.length_encode_of_decode`), and one that is read from a record has a record whose length
fits (`Block.Record.fits_of_decode`). -/

namespace ReplicatedLedger

namespace Wire

variable {α β : Type}

/-- What the reader takes off the front of the bytes is related to the value. -/
def Takes (r : Reader α) (R : α → Bytes → Prop) : Prop :=
  ∀ d a rest, r d = .ok (a, rest) → ∃ front, d = front ++ rest ∧ R a front

/-! ### Composition -/

theorem takes_pure {R : α → Bytes → Prop} {a : α} (h : R a []) : Takes (pure a) R := by
  intro d b rest hok
  cases hok
  exact ⟨[], rfl, h⟩

theorem takes_throw (R : α → Bytes → Prop) (e : DataError) : Takes (throw e) R := by
  intro d b rest hok
  cases hok

theorem takes_fail (R : α → Bytes → Prop) (cause : Malformed) : Takes (fail cause) R := takes_throw R _

/-- A computation that does not read takes nothing. -/
theorem takes_lift {R : α → Bytes → Prop} {x : Except DataError α} (h : ∀ a, x = .ok a → R a []) :
    Takes (liftM x) R := by
  cases x with
  | error e => exact takes_throw R e
  | ok a => exact takes_pure (h a rfl)

theorem Takes.bind {r : Reader α} {f : α → Reader β} {R : α → Bytes → Prop} {S : β → Bytes → Prop} (h : Takes r R)
    (k : ∀ a front, R a front → Takes (f a) fun b back => S b (front ++ back)) : Takes (r >>= f) S := by
  intro d b rest hok
  obtain ⟨a, t, hr, hf⟩ := exists_of_bind_eq_ok hok
  obtain ⟨front, rfl, hfront⟩ := h d a t hr
  obtain ⟨back, rfl, hback⟩ := k a front hfront t b rest hf
  exact ⟨front ++ back, (List.append_assoc front back rest).symm, hback⟩

theorem Takes.map {r : Reader α} {R : α → Bytes → Prop} {S : β → Bytes → Prop} {f : α → β} (h : Takes r R)
    (k : ∀ a front, R a front → S (f a) front) : Takes (f <$> r) S := by
  intro d b rest hok
  change StateT.map f r d = .ok (b, rest) at hok
  unfold StateT.map at hok
  cases hr : r d with
  | error e => simp [hr, Bind.bind, Except.bind] at hok
  | ok x =>
    obtain ⟨a, t⟩ := x
    simp only [hr, Bind.bind, Except.bind, pure, Except.pure, Except.ok.injEq, Prod.mk.injEq] at hok
    obtain ⟨rfl, rfl⟩ := hok
    obtain ⟨front, rfl, hfront⟩ := h d a t hr
    exact ⟨front, rfl, k a front hfront⟩

/-- Looking at the bytes that remain takes nothing. -/
theorem takes_get_bind {f : Bytes → Reader β} {S : β → Bytes → Prop} (k : ∀ d, Takes (f d) S) :
    Takes (get >>= f) S := fun d b rest hok => k d d b rest hok

/-- If nothing remains then all of the bytes are related to the value. -/
theorem Takes.exactly {r : Reader α} {R : α → Bytes → Prop} (h : Takes r R) {d : Bytes} {a : α}
    (hok : Wire.exactly r d = .ok a) : R a d := by
  obtain ⟨front, rfl, hfront⟩ := h d a [] (exists_of_exactly_eq_ok hok)
  rwa [List.append_nil]

/-! ### Fields -/

theorem takes_take (n : Nat) : Takes (take n) fun bs front => bs = front ∧ bs.length = n := by
  intro d a rest hok
  unfold take at hok
  dsimp only at hok
  split_ifs at hok with hlength
  cases hok
  exact ⟨d.take n, (List.take_append_drop n d).symm, rfl, hlength⟩

theorem takes_byte : Takes readByte fun b front => front = [b] := by
  refine (takes_take 1).bind fun bs front h => takes_pure ?_
  obtain ⟨rfl, hlength⟩ := h
  obtain ⟨b, rfl⟩ := List.length_eq_one_iff.mp hlength
  rfl

theorem bigEndian_of_length {n : Nat} {bs : Bytes} (h : bs.length = n) : Bytes.bigEndian n bs.toNat = bs :=
  h ▸ Bytes.bigEndian_toNat bs

theorem takes_u32 : Takes readU32 fun w front => front = u32 w := by
  refine (takes_take 4).bind fun bs front h => takes_pure ?_
  obtain ⟨rfl, hlength⟩ := h
  have hmod : bs.toNat % 2 ^ 32 = bs.toNat := by
    have hdigits := Bytes.toNat_bigEndian 4 bs.toNat
    rw [bigEndian_of_length hlength] at hdigits
    exact hdigits.symm
  rw [List.append_nil, u32, UInt32.toNat_ofNat', hmod, bigEndian_of_length hlength]

theorem takes_u64 : Takes readU64 fun w front => front = u64 w := by
  refine (takes_take 8).bind fun bs front h => takes_pure ?_
  obtain ⟨rfl, hlength⟩ := h
  have hmod : bs.toNat % 2 ^ 64 = bs.toNat := by
    have hdigits := Bytes.toNat_bigEndian 8 bs.toNat
    rw [bigEndian_of_length hlength] at hdigits
    exact hdigits.symm
  rw [List.append_nil, u64, UInt64.toNat_ofNat', hmod, bigEndian_of_length hlength]

theorem takes_i64 : Takes readI64 fun i front => front = i64 i := by
  refine takes_u64.bind fun w front h => takes_pure ?_
  rw [List.append_nil, h]
  rfl

theorem takes_flag : Takes readFlag fun b front => front = flag b := by
  refine takes_byte.bind fun b front h => ?_
  subst h
  split
  · exact takes_pure rfl
  · exact takes_pure rfl
  · exact takes_fail _ _

theorem takes_blob : Takes readBlob fun bs front => FitsSize bs.length ∧ front = blob bs := by
  refine takes_u32.bind fun w front h d bs rest hok => ?_
  obtain ⟨back, hd, rfl, hlength⟩ := takes_take w.toNat d bs rest hok
  refine ⟨bs, hd, hlength ▸ w.toNat_lt, ?_⟩
  rw [h, blob, size, hlength, Nat.toUInt32_eq, UInt32.ofNat_toNat]

theorem takes_text : Takes readText fun s front => FitsSize s.utf8ByteSize ∧ front = text s := by
  refine takes_blob.bind fun bs front h => ?_
  cases htext : Bytes.toText? bs with
  | none => exact takes_fail _ _
  | some s =>
    refine takes_pure ?_
    have hbytes : Bytes.ofText s = bs := by
      unfold Bytes.toText? String.fromUTF8? at htext
      split at htext
      · cases htext
        rfl
      · cases htext
    rw [List.append_nil, h.2, text, hbytes, ← length_ofText, hbytes]
    exact ⟨h.1, rfl⟩

theorem takes_digest : Takes readDigest fun h front => front = h.bytes := by
  refine (takes_take Digest.byteLength).bind fun bs front h => ?_
  obtain ⟨rfl, hlength⟩ := h
  cases hdigest : Digest.ofBytes? bs with
  | none => exact takes_fail _ _
  | some h =>
    refine takes_pure ?_
    unfold Digest.ofBytes? at hdigest
    split at hdigest
    · cases hdigest
      exact List.append_nil bs
    · cases hdigest

theorem takes_digest? : Takes readDigest? fun h front => front = digest? h := by
  refine takes_u32.bind fun w front h => ?_
  subst h
  dsimp only
  split_ifs with hzero hfull
  · refine takes_pure ?_
    rw [List.append_nil, UInt32.toNat_inj.mp (hzero.trans (Eq.refl (0 : UInt32).toNat))]
    rfl
  · refine takes_digest.bind fun h front hfront => takes_pure ?_
    rw [List.append_nil, hfront]
    have hlength : h.bytes.length = Digest.byteLength := h.length_eq
    have hw : w = h.bytes.length.toUInt32 := by
      rw [hlength, ← hfull, Nat.toUInt32_eq, UInt32.ofNat_toNat]
    rw [hw]
    rfl
  · exact takes_fail _ _

end Wire

open Wire

/-! ### Transactions -/

theorem Transaction.takes_transaction (max : Nat) :
    Takes (Transaction.read max) fun t front => (t.Fits ∧ t.size ≤ max) ∧ front = t.encode := by
  refine takes_text.bind fun version _ hversion => takes_i64.bind fun timestamp _ htime => ?_
  refine takes_blob.bind fun payload _ hpayload => takes_flag.bind fun signed _ hsigned => ?_
  subst htime hsigned
  obtain ⟨hversion, rfl⟩ := hversion
  obtain ⟨hpayload, rfl⟩ := hpayload
  cases signed with
  | false =>
    refine takes_lift fun t hok => ?_
    obtain ⟨hcontent, hsize⟩ := Transaction.content_of_bounded hok
    obtain ⟨content, _, _⟩ := t
    cases hcontent
    exact ⟨⟨⟨hversion, hpayload, fun s hs => nomatch hs⟩, hsize⟩, by simp [Transaction.encode]⟩
  | true =>
    have hsigned : Takes (some <$> readBlob) fun signature front =>
        ∃ s, signature = some s ∧ FitsSize s.length ∧ front = blob s :=
      takes_blob.map fun s front h => ⟨s, rfl, h⟩
    refine hsigned.bind fun signature front h => takes_lift fun t hok => ?_
    obtain ⟨s, rfl, hs, rfl⟩ := h
    obtain ⟨hcontent, hsize⟩ := Transaction.content_of_bounded hok
    obtain ⟨content, _, _⟩ := t
    cases hcontent
    refine ⟨⟨⟨hversion, hpayload, fun s' hs' => ?_⟩, hsize⟩, by simp [Transaction.encode]⟩
    cases hs'
    exact hs

/-- What is read back from a transaction is that transaction. -/
theorem Transaction.eq_of_decode_encode {t u : Transaction} {max : Nat} (hfits : FitsSize t.encode.length)
    (h : Transaction.decode t.encode max = .ok u) : u = t := by
  obtain ⟨⟨hu, -⟩, hencode⟩ := (takes_transaction max).exactly h
  have ht := Transaction.fits_of_length hfits
  have hdecode := Transaction.decode_encode hu (Transaction.size_le_noLimit hu)
  rw [← hencode, Transaction.decode_encode ht (Transaction.size_le_noLimit ht)] at hdecode
  exact (Except.ok.inj hdecode).symm

/-! ### Headers and blocks -/

theorem Header.takes_header : Takes Header.read fun h front => h.Fits ∧ front = h.encode := by
  refine takes_digest?.bind fun previous _ hprevious => takes_text.bind fun version _ hversion => ?_
  refine takes_i64.bind fun timestamp _ htime => takes_blob.bind fun nonce _ hnonce => ?_
  refine takes_digest?.bind fun root _ hroot => takes_pure ?_
  subst hprevious htime hroot
  obtain ⟨hversion, rfl⟩ := hversion
  obtain ⟨hnonce, rfl⟩ := hnonce
  exact ⟨⟨hversion, hnonce⟩, by simp [Header.encode]⟩

namespace Block

/-- Transactions that are read into a map have hashes of their own, and none was in the map. -/
theorem takes_transactions (n : Nat) (m : TxMap) : Takes (readTransactions n m) fun m' front =>
    ∃ ts : List Transaction, front = ts.flatMap Transaction.encode ∧ m' = TxMap.insertAll m ts ∧
      (ts.map (·.hash)).Nodup ∧ ∀ t ∈ ts, t.Fits ∧ m.contains t.hash = false := by
  induction n generalizing m with
  | zero => exact takes_pure ⟨[], rfl, rfl, List.nodup_nil, fun _ h => absurd h List.not_mem_nil⟩
  | succ n ih =>
    refine (Transaction.takes_transaction _).bind fun t front hfront => ?_
    obtain ⟨⟨hfits, -⟩, rfl⟩ := hfront
    cases hold : m.contains t.hash with
    | true => exact takes_throw _ _
    | false =>
      refine fun d m' rest hok => ?_
      obtain ⟨back, hd, ts, rfl, rfl, hnodup, hnew⟩ := ih _ d m' rest hok
      have hother : ∀ u ∈ ts, u.hash ≠ t.hash ∧ m.contains u.hash = false := by
        intro u hu
        have hnone := (hnew u hu).2
        rw [SortedMap.contains, SortedMap.get?_insert] at hnone
        split_ifs at hnone with hsame
        · cases hnone
        · exact ⟨hsame, hnone⟩
      refine ⟨_, hd, t :: ts, rfl, rfl, List.nodup_cons.mpr ⟨fun hmem => ?_, hnodup⟩, List.forall_mem_cons.mpr
        ⟨⟨hfits, hold⟩, fun u hu => ⟨(hnew u hu).1, (hother u hu).2⟩⟩⟩
      obtain ⟨u, hu, hhash⟩ := List.mem_map.mp hmem
      exact (hother u hu).1 hhash

/-- **A block is read from its encoding**, with the transactions in some order. -/
theorem takes_block : Takes Block.read fun b front =>
    b.Fits ∧ ∃ ts : List Transaction, ts.Perm b.ordered ∧ front = b.encodeIn ts := by
  refine Header.takes_header.bind fun header _ hheader => takes_u64.bind fun height _ hheight => ?_
  refine takes_u32.bind fun count _ hcount => takes_get_bind fun d => ?_
  split_ifs
  · exact takes_fail _ _
  · refine (takes_transactions _ _).bind fun m _ htxs => takes_lift fun b hok => ?_
    obtain ⟨ts, rfl, rfl, hnodup, hts⟩ := htxs
    obtain ⟨hheader, rfl⟩ := hheader
    subst hheight hcount
    rw [← TxMap.ofTransactions_eq_insertAll] at hok
    unfold ofParts at hok
    split_ifs at hok with hsize hkeyed hroot
    unfold assemble at hok
    split at hok
    · cases hok
      have hvalues : ts.Perm (TxMap.ofTransactions ts).values := (TxMap.values_ofTransactions_perm hnodup).symm
      refine ⟨⟨hheader, fun t ht => (hts t (hvalues.mem_iff.mpr ht)).1⟩, ts,
        hvalues.trans (List.mergeSort_perm _ _).symm, ?_⟩
      have hcount : count = (TxMap.ofTransactions ts).size.toUInt32 := by
        rw [← Decidable.not_not.mp hsize, Nat.toUInt32_eq, UInt32.ofNat_toNat]
      simp [encodeIn, Block.count, hcount]
    · cases hok

/-- A block has as many bytes as it is read from. -/
theorem length_encode_of_decode {d : Bytes} {b : Block} (h : Block.decode d = .ok b) : b.encode.length = d.length := by
  obtain ⟨-, ts, hperm, rfl⟩ := takes_block.exactly h
  exact (length_encodeIn hperm).symm

/-! ### Records -/

theorem Record.takes_frame : Takes Record.readFrame fun framed front =>
    FitsSize framed.length ∧ front = Wire.size framed.length ++ framed := by
  refine takes_u32.bind fun w front hfront => ?_
  subst hfront
  dsimp only
  split_ifs
  · exact takes_fail _ _
  · intro d framed rest hok
    obtain ⟨front, hd, rfl, hlength⟩ := takes_take _ d framed rest hok
    have hsize : framed.length.toUInt32 = w := by rw [hlength, Nat.toUInt32_eq, UInt32.ofNat_toNat]
    exact ⟨framed, hd, hlength ▸ w.toNat_lt, by rw [Wire.size, hsize]⟩

/-- What a record frames is the format version and the bytes of the block. -/
theorem Record.exists_of_decode {d : Bytes} {b : Block} (h : Record.decode d = .ok b) :
    ∃ body, exactly Record.readFrame d = .ok (Record.formatVersion :: body) ∧ Block.decode body = .ok b := by
  unfold Record.decode at h
  cases hframe : exactly Record.readFrame d with
  | error e => simp [hframe, bind, Except.bind] at h
  | ok framed =>
    simp only [hframe, bind, Except.bind] at h
    unfold unframe at h
    split at h
    · cases h
    · split_ifs at h with hversion
      subst hversion
      exact ⟨_, rfl, h⟩

/-- **A block that is read from a record** has a record whose length fits, and that is as long. -/
theorem Record.fits_of_decode {d : Bytes} {b : Block} (h : Record.decode d = .ok b) :
    FitsSize (1 + b.encode.length) ∧ d.length = (Record.encode b).length := by
  obtain ⟨body, hframe, hbody⟩ := Record.exists_of_decode h
  obtain ⟨hfits, rfl⟩ := Record.takes_frame.exactly hframe
  have hlength := length_encode_of_decode hbody
  rw [List.length_cons, ← hlength, Nat.add_comm] at hfits
  refine ⟨hfits, ?_⟩
  simp [Record.encode, hlength, Nat.add_comm]

/-- **What is taken off a stream** as a block is a record that is not too long. -/
theorem Record.exists_of_read {stream rest : Bytes} {b : Block} (h : Record.read stream = .ok (some b, rest)) :
    ∃ record, stream = record ++ rest ∧ Record.decode record = .ok b ∧ record.length ≤ 4 + Record.maxLength := by
  unfold Record.read at h
  cases hsize : readU32 stream with
  | error e => simp [hsize] at h
  | ok x =>
    obtain ⟨w, later⟩ := x
    simp only [hsize] at h
    split_ifs at h with hzero hlong
    · cases h
    · cases hframe : take w.toNat later with
      | error e => simp [hframe] at h
      | ok y =>
        obtain ⟨framed, tail⟩ := y
        cases hblock : Record.unframe framed with
        | error e => simp [hframe, hblock] at h
        | ok c =>
          simp only [hframe, hblock] at h
          cases h
          obtain ⟨front, rfl, rfl⟩ := takes_u32 stream w later hsize
          obtain ⟨_, rfl, rfl, hlength⟩ := takes_take _ later framed rest hframe
          have hread : Reads Record.readFrame (u32 w ++ framed) framed := by
            refine (reads_u32 w).bind ?_
            dsimp only
            rw [if_neg hzero]
            exact reads_take_of_length hlength
          refine ⟨u32 w ++ framed, (List.append_assoc _ _ _).symm, ?_, ?_⟩
          · rw [Record.decode, hread.exactly]
            exact hblock
          · rw [List.length_append, length_u32]
            omega

/-- What is read back from the record of a block is the block, and then the length of the record fits. -/
theorem Record.eq_of_decode_encode {b c : Block} (h : Record.decode (Record.encode b) = .ok c) :
    c = b ∧ FitsSize (1 + b.encode.length) := by
  obtain ⟨hfits, hlength⟩ := Record.fits_of_decode h
  have hsame : c.encode.length = b.encode.length := by
    simp only [Record.encode, List.length_append, length_size, List.length_cons] at hlength
    omega
  rw [hsame] at hfits
  rw [Record.decode_encode hfits] at h
  exact ⟨(Except.ok.inj h).symm, hfits⟩

end Block

end ReplicatedLedger
