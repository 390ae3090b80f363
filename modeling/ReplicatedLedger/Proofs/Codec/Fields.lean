import ReplicatedLedger.Wire

/-! # Reading back what was written: fields

`Reads r d a` says that the reader `r` takes the value `a` off the front of any bytes that start with
`d`. It composes along the readers (`Reads.bind`), so that the round trip of a format follows from those
of its fields. The guards of the readers never refuse what the encoders write: a number of elements is
at most the number of bytes behind it (`reads_list`), and nothing is left behind the last field
(`Reads.exactly`). Lengths and numbers of elements have to fit four bytes. -/

namespace ReplicatedLedger.Wire

variable {α β : Type}

/-- The reader takes the value off the front of bytes that start with the given ones. -/
def Reads (r : Reader α) (d : Bytes) (a : α) : Prop := ∀ rest, r (d ++ rest) = .ok (a, rest)

/-! ### Composition -/

theorem bind_ok {r : Reader α} {s t : Bytes} {a : α} (h : r s = .ok (a, t)) (f : α → Reader β) :
    (r >>= f) s = f a t := by
  simp only [bind, StateT.bind, h]
  rfl

theorem map_ok {r : Reader α} {s t : Bytes} {a : α} (h : r s = .ok (a, t)) (f : α → β) :
    (f <$> r) s = .ok (f a, t) := by
  change (StateT.map f r) s = _
  simp only [StateT.map, h]
  rfl

theorem exists_of_bind_eq_ok {r : Reader α} {f : α → Reader β} {s u : Bytes} {b : β}
    (h : (r >>= f) s = .ok (b, u)) : ∃ a t, r s = .ok (a, t) ∧ f a t = .ok (b, u) := by
  simp only [bind, StateT.bind] at h
  cases hr : r s with
  | error e => simp [hr, Except.bind] at h
  | ok x => exact ⟨x.1, x.2, rfl, by simpa [hr, Except.bind] using h⟩

theorem exists_of_exactly_eq_ok {r : Reader α} {d : Bytes} {a : α} (h : Wire.exactly r d = .ok a) :
    r d = .ok (a, []) := by
  unfold Wire.exactly at h
  cases hr : r d with
  | error e => simp [hr] at h
  | ok x =>
    obtain ⟨b, rest⟩ := x
    simp only [hr] at h
    split at h
    · simp_all
    · simp at h

theorem Reads.pure (a : α) : Reads (pure a) [] a := fun _ => rfl

theorem Reads.bind {r : Reader α} {f : α → Reader β} {d e : Bytes} {a : α} {b : β} (h : Reads r d a)
    (k : Reads (f a) e b) : Reads (r >>= f) (d ++ e) b := by
  intro rest
  rw [List.append_assoc, bind_ok (h (e ++ rest))]
  exact k rest

/-- A last field: nothing is read behind it. -/
theorem Reads.bind_pure {r : Reader α} {f : α → Reader β} {d : Bytes} {a : α} {b : β} (h : Reads r d a)
    (k : Reads (f a) [] b) : Reads (r >>= f) d b := by
  simpa using h.bind k

theorem Reads.map {r : Reader α} {d : Bytes} {a : α} (h : Reads r d a) (f : α → β) :
    Reads (f <$> r) d (f a) := fun rest => map_ok (h rest) f

/-- Behind the value there is nothing. -/
theorem Reads.exactly {r : Reader α} {d : Bytes} {a : α} (h : Reads r d a) :
    Wire.exactly r d = .ok a := by
  have h' : r d = .ok (a, []) := by simpa using h []
  simp [Wire.exactly, h']

/-! ### Numbers -/

theorem reads_take (d : Bytes) : Reads (take d.length) d d := by
  intro rest
  simp [take]

theorem reads_take_of_length {n : Nat} {d : Bytes} (h : d.length = n) : Reads (take n) d d :=
  h ▸ reads_take d

theorem reads_byte (b : UInt8) : Reads readByte [b] b :=
  (reads_take [b]).bind_pure (Reads.pure b)

/-- A first byte, which decides how the rest is read. -/
theorem Reads.tagged {f : UInt8 → Reader α} {b : UInt8} {d : Bytes} {a : α} (h : Reads (f b) d a) :
    Reads (readByte >>= f) (b :: d) a :=
  (reads_byte b).bind h

theorem reads_u32 (w : UInt32) : Reads readU32 (u32 w) w := by
  refine (reads_take_of_length (Bytes.length_bigEndian 4 w.toNat)).bind_pure ?_
  have hlt : w.toNat < 1 <<< (8 * 4) := w.toNat_lt
  have h : UInt32.ofNat (Bytes.bigEndian 4 w.toNat).toNat = w := by
    rw [Bytes.toNat_bigEndian, Nat.mod_eq_of_lt hlt, UInt32.ofNat_toNat]
  simp only [h]
  exact Reads.pure w

theorem reads_u64 (w : UInt64) : Reads readU64 (u64 w) w := by
  refine (reads_take_of_length (Bytes.length_bigEndian 8 w.toNat)).bind_pure ?_
  have hlt : w.toNat < 1 <<< (8 * 8) := w.toNat_lt
  have h : UInt64.ofNat (Bytes.bigEndian 8 w.toNat).toNat = w := by
    rw [Bytes.toNat_bigEndian, Nat.mod_eq_of_lt hlt, UInt64.ofNat_toNat]
  simp only [h]
  exact Reads.pure w

theorem reads_i64 (i : Int64) : Reads readI64 (i64 i) i :=
  (reads_u64 i.toUInt64).bind_pure (Reads.pure _)

theorem reads_flag (b : Bool) : Reads readFlag (flag b) b := by
  refine (reads_byte _).bind_pure ?_
  cases b <;> exact Reads.pure _

@[simp] theorem length_u32 (w : UInt32) : (u32 w).length = 4 := Bytes.length_bigEndian 4 _

@[simp] theorem length_u64 (w : UInt64) : (u64 w).length = 8 := Bytes.length_bigEndian 8 _

@[simp] theorem length_i64 (i : Int64) : (i64 i).length = 8 := length_u64 _

@[simp] theorem length_flag (b : Bool) : (flag b).length = 1 := rfl

/-! ### Lengths, byte strings, texts -/

/-- A length or number of elements that four bytes hold. -/
def FitsSize (n : Nat) : Prop := n < UInt32.size

instance (n : Nat) : Decidable (FitsSize n) := inferInstanceAs (Decidable (n < UInt32.size))

theorem FitsSize.mono {m n : Nat} (h : FitsSize n) (hmn : m ≤ n) : FitsSize m :=
  Nat.lt_of_le_of_lt hmn h

theorem FitsSize.toNat_toUInt32 {n : Nat} (h : FitsSize n) : n.toUInt32.toNat = n := by
  rw [Nat.toUInt32_eq, UInt32.toNat_ofNat']
  exact Nat.mod_eq_of_lt h

@[simp] theorem length_size (n : Nat) : (size n).length = 4 := length_u32 _

theorem reads_size (n : Nat) : Reads readU32 (size n) n.toUInt32 := reads_u32 _

theorem reads_blob {d : Bytes} (h : FitsSize d.length) : Reads readBlob (blob d) d := by
  refine (reads_size d.length).bind ?_
  rw [h.toNat_toUInt32]
  exact reads_take d

@[simp] theorem length_blob (d : Bytes) : (blob d).length = 4 + d.length := by simp [blob]

theorem toText?_ofText (s : String) : Bytes.toText? (Bytes.ofText s) = some s := by
  have h : (⟨(Bytes.ofText s).toArray⟩ : ByteArray) = s.toByteArray := by simp [Bytes.ofText]
  rw [Bytes.toText?, h, String.fromUTF8?, dif_pos s.isValidUTF8]
  rfl

@[simp] theorem length_ofText (s : String) : (Bytes.ofText s).length = s.utf8ByteSize := by
  simp [Bytes.ofText, ← String.size_toByteArray]

theorem reads_text {s : String} (h : FitsSize s.utf8ByteSize) : Reads readText (text s) s := by
  refine (reads_blob (d := Bytes.ofText s) (by simpa using h)).bind_pure ?_
  simp only [toText?_ofText]
  exact Reads.pure s

@[simp] theorem length_text (s : String) : (text s).length = 4 + s.utf8ByteSize := by simp [text]

/-! ### Digests -/

theorem ofBytes?_bytes (h : Digest) : Digest.ofBytes? h.bytes = some h := by
  simp [Digest.ofBytes?, h.length_eq]

theorem reads_digest (h : Digest) : Reads readDigest h.bytes h := by
  refine (reads_take_of_length h.length_eq).bind_pure ?_
  simp only [ofBytes?_bytes]
  exact Reads.pure h

theorem reads_digest? (h : Option Digest) : Reads readDigest? (digest? h) h := by
  cases h with
  | none =>
    exact (reads_size 0).bind (Reads.pure none)
  | some h =>
    refine (reads_size h.bytes.length).bind ?_
    have hl : h.bytes.length = Digest.byteLength := h.length_eq
    have hfit : FitsSize h.bytes.length := by rw [hl]; decide
    simp only [hfit.toNat_toUInt32]
    rw [if_neg (by rw [hl]; decide), if_pos hl]
    exact (reads_digest h).bind_pure (Reads.pure _)

theorem length_optional (h : Option Digest) :
    ((h.map Digest.bytes).getD []).length = if h.isSome then Digest.byteLength else 0 := by
  cases h with
  | none => rfl
  | some h => exact h.length_eq

@[simp] theorem length_digest? (h : Option Digest) :
    (digest? h).length = 4 + if h.isSome then Digest.byteLength else 0 := by
  rw [digest?, length_blob, length_optional]

/-! ### Lists -/

theorem reads_many {r : Reader α} {encode : α → Bytes} :
    ∀ {as : List α}, (∀ a ∈ as, Reads r (encode a) a) → Reads (many r as.length) (as.flatMap encode) as
  | [], _ => Reads.pure []
  | a :: as, h => by
    have ih : Reads (many r as.length) (as.flatMap encode) as :=
      reads_many fun b hb => h b (List.mem_cons_of_mem a hb)
    exact (h a List.mem_cons_self).bind (ih.bind_pure (Reads.pure _))

theorem mul_length_le_length_flatMap {encode : α → Bytes} {k : Nat} :
    ∀ {as : List α}, (∀ a ∈ as, k ≤ (encode a).length) → k * as.length ≤ (as.flatMap encode).length
  | [], _ => by simp
  | a :: as, h => by
    have ih := mul_length_le_length_flatMap fun b hb => h b (List.mem_cons_of_mem a hb)
    have ha := h a List.mem_cons_self
    simp only [List.length_cons, List.flatMap_cons, List.length_append, Nat.mul_add, Nat.mul_one]
    omega

/-- A number of elements passes the guard, if each of them takes four bytes at least. -/
theorem readCount_size {n : Nat} (hn : FitsSize n) {d : Bytes} (hd : 4 * n ≤ d.length) :
    readCount (size n ++ d) = .ok (n, d) := by
  have hguard : ¬ n > d.length / 4 + 1 := by omega
  rw [readCount, bind_ok (reads_size n d)]
  simp only [hn.toNat_toUInt32]
  rw [bind_ok (a := d) (t := d) rfl, if_neg hguard]
  rfl

theorem reads_list {r : Reader α} {encode : α → Bytes} {as : List α} (hn : FitsSize as.length)
    (hr : ∀ a ∈ as, Reads r (encode a) a) (hlen : ∀ a ∈ as, 4 ≤ (encode a).length) :
    Reads (readCount >>= many r) (size as.length ++ as.flatMap encode) as := by
  intro rest
  have hle : 4 * as.length ≤ (as.flatMap encode ++ rest).length := by
    rw [List.length_append]
    exact Nat.le_add_right_of_le (mul_length_le_length_flatMap hlen)
  rw [List.append_assoc, bind_ok (readCount_size hn hle)]
  exact reads_many hr rest

end ReplicatedLedger.Wire
