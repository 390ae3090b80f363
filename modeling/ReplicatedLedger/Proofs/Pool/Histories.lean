import ReplicatedLedger.Proofs.Maps
import ReplicatedLedger.Proofs.Pool

/-! # What a pool is after any use

A pool is used by adding, taking and putting back transactions, and it is started over with a list of them or with a
snapshot (`Use`). Whether an operation succeeds or fails, the pool stays one that can be reached from the empty one
(`Reachable.use`), so that its index is always right. Then the numbers that the operations check are right too: a batch
is accepted just if nothing of it is pending (`addBatch_eq_ok_iff`), and what is taken is as much as was asked for. All
this holds after every history (`exact_after`). -/

namespace ReplicatedLedger.Pool

/-! ### Histories -/

/-- What is done with a pool. -/
inductive Use where
  | add (t : Transaction)
  | addBatch (ts : List Transaction)
  | take (n : Nat)
  | requeue (ts : List Transaction)
  /-- Starts over with the transactions of a list. -/
  | ofList (ts : List Transaction)
  /-- Starts over with a snapshot, if it can be read. -/
  | ofSnapshot (d : Bytes) (max : Nat)

/-- The pool after an operation, successful or not. -/
def use (p : Pool) : Use → Pool
  | .add t => (p.add t).2
  | .addBatch ts => (p.addBatch ts).2
  | .take n => (p.take n).2
  | .requeue ts => (p.requeue ts).2
  | .ofList ts => ofList ts
  | .ofSnapshot d max =>
    match ofSnapshot d max with
    | .ok q => q
    | .error _ => p

/-- The pool after a history that starts with the empty one. -/
def after (us : List Use) : Pool := us.foldl use empty

theorem reachable_ofList (ts : List Transaction) : (ofList ts).Reachable := .addBatch .empty ts

theorem reachable_ofSnapshot {d : Bytes} {max : Nat} {q : Pool} (h : ofSnapshot d max = .ok q) : q.Reachable := by
  unfold ofSnapshot at h
  cases hdecode : Transaction.decodeList d max with
  | error e => simp [hdecode, Except.map] at h
  | ok ts =>
    obtain rfl : ofList ts = q := by simpa [hdecode, Except.map] using h
    exact reachable_ofList ts

/-- **One operation.** -/
theorem Reachable.use {p : Pool} (hp : p.Reachable) (u : Use) : (p.use u).Reachable := by
  cases u with
  | add t => exact hp.addBatch [t]
  | addBatch ts => exact hp.addBatch ts
  | take n => exact hp.take n
  | requeue ts => exact hp.requeue ts
  | ofList ts => exact reachable_ofList ts
  | ofSnapshot d max =>
    simp only [Pool.use]
    split
    · next q hq => exact reachable_ofSnapshot hq
    · exact hp

/-- **A history.** -/
theorem Reachable.foldl_use {p : Pool} (hp : p.Reachable) (us : List Use) : (us.foldl Pool.use p).Reachable := by
  induction us generalizing p with
  | nil => exact hp
  | cons u us ih => exact ih (hp.use u)

theorem reachable_after (us : List Use) : (after us).Reachable := Reachable.empty.foldl_use us

/-! ### Numbers -/

variable {p : Pool}

theorem mem_hashes_pushAll (hp : p.Consistent) (ts : List Transaction) (h : Digest) :
    h ∈ (p.pushAll ts).hashes ↔ h ∈ p.hashes ++ ts.map (·.hash) := by
  rw [← (hp.pushAll ts).contains_iff, contains_pushAll, hp.contains_iff, List.mem_append]

theorem length_hashes (p : Pool) : p.hashes.length = p.size := List.length_map _

theorem size_le_size_pushAll (hp : p.Consistent) (ts : List Transaction) : p.size ≤ (p.pushAll ts).size := by
  have hsub : p.hashes ⊆ (p.pushAll ts).hashes := by
    intro h hh
    exact (mem_hashes_pushAll hp ts h).mpr (List.mem_append_left _ hh)
  simpa [length_hashes] using (List.subperm_of_subset hp.nodup hsub).length_le

/-- **A batch is accepted** just if none of it is there twice and none is pending. -/
theorem addBatch_eq_ok_iff (hp : p.Consistent) (ts : List Transaction) :
    (∃ n, (p.addBatch ts).1 = .ok n) ↔ (ts.map (·.hash)).Nodup ∧ ∀ t ∈ ts, t.hash ∉ p.hashes := by
  have hmono := size_le_size_pushAll hp ts
  have hnumber : (∃ n, (p.addBatch ts).1 = .ok n) ↔ (p.pushAll ts).size - p.size = ts.length := by
    simp only [addBatch]
    split_ifs with h
    · simp [h]
    · simp [h]
  have hnodup : (p.hashes ++ ts.map (·.hash)).Nodup ↔ (p.pushAll ts).size = p.size + ts.length := by
    rw [nodup_iff_length_eq (hp.pushAll ts).nodup (mem_hashes_pushAll hp ts)]
    simp [length_hashes]
  have hsplit : (p.hashes ++ ts.map (·.hash)).Nodup ↔
      (ts.map (·.hash)).Nodup ∧ ∀ t ∈ ts, t.hash ∉ p.hashes := by
    rw [List.nodup_append_comm, List.nodup_append']
    simp [hp.nodup, List.Disjoint]
  rw [hnumber, ← hsplit, hnodup]
  omega

theorem take_ne_inconsistent (n requested actual : Nat) :
    (p.take n).1 ≠ .error (.inconsistent requested actual) := by
  rcases Nat.lt_or_ge p.size n with hlt | hle
  · simp [take_of_lt hlt]
  · simp [take_of_le hle]

/-! ### What can be relied on -/

/-- The index of the pool is right, and its operations do what they promise. -/
structure Exact (p : Pool) : Prop where
  /-- No hash is queued twice. -/
  nodup : p.hashes.Nodup
  /-- The index is the set of the hashes in the queue. -/
  mem_index_iff : ∀ h, h ∈ p.index ↔ h ∈ p.hashes
  contains_iff : ∀ h, p.contains h = true ↔ ∃ t ∈ p.queue, t.hash = h
  /-- The oldest arrivals are taken in their order, and the others stay in theirs. -/
  take_of_le : ∀ n ≤ p.size, (p.take n).1 = .ok (p.queue.take n) ∧ (p.take n).2.queue = p.queue.drop n
  /-- Nothing changes if there are too few. -/
  take_of_lt : ∀ n > p.size, p.take n = (.error (.insufficient n p.size), p)
  take_ne : ∀ n requested actual, (p.take n).1 ≠ .error (.inconsistent requested actual)
  addBatch_iff : ∀ ts : List Transaction, (∃ n, (p.addBatch ts).1 = .ok n) ↔
    (ts.map (·.hash)).Nodup ∧ ∀ t ∈ ts, t.hash ∉ p.hashes

theorem Consistent.exact (hp : p.Consistent) : p.Exact where
  nodup := hp.nodup
  mem_index_iff h := by rw [← hp.contains_iff, contains, Std.TreeSet.contains_iff_mem]
  contains_iff h := by rw [hp.contains_iff, hashes, List.mem_map]
  take_of_le n hn := by
    rw [Pool.take_of_le hn]
    exact ⟨rfl, rfl⟩
  take_of_lt n hn := Pool.take_of_lt hn
  take_ne := take_ne_inconsistent
  addBatch_iff := addBatch_eq_ok_iff hp

/-- **After every history** the index is right, and the operations do what they promise. -/
theorem exact_after (us : List Use) : (after us).Exact := (reachable_after us).consistent.exact

end ReplicatedLedger.Pool
