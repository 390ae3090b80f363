import ReplicatedLedger.Pool
import Mathlib.Data.List.Nodup

/-! # The queue and the index of a pool

A pool is consistent when its index holds exactly the hashes of its queue and no hash is queued twice.
The empty pool is, and every operation keeps it so; beside that, each operation is described by what it
does to the pending hashes. Taking the oldest transactions and putting them back in any order leaves the
pending hashes as they were (`contains_requeue_take`). -/

namespace ReplicatedLedger.Pool

/-- The hashes of the queued transactions, oldest arrival first. -/
def hashes (p : Pool) : List Digest := p.queue.map (·.hash)

/-- The index holds the hashes of the queue, and none is queued twice. -/
structure Consistent (p : Pool) : Prop where
  nodup : p.hashes.Nodup
  contains_iff : ∀ h, p.contains h = true ↔ h ∈ p.hashes

theorem consistent_empty : empty.Consistent :=
  ⟨List.nodup_nil, fun h => by simp [contains, empty, hashes]⟩

/-! ### Queueing -/

theorem contains_push (p : Pool) (t : Transaction) (h : Digest) :
    (p.push t).contains h = true ↔ p.contains h = true ∨ h = t.hash := by
  unfold push contains
  split
  · rename_i hin
    exact ⟨Or.inl, fun hor => hor.elim id fun e => e ▸ hin⟩
  · rw [Std.TreeSet.contains_insert]
    simp only [Bool.or_eq_true, beq_iff_eq, Std.LawfulEqOrd.compare_eq_iff_eq]
    exact ⟨fun hor => hor.symm.imp_right Eq.symm, fun hor => hor.symm.imp_left Eq.symm⟩

theorem Consistent.push {p : Pool} (hp : p.Consistent) (t : Transaction) : (p.push t).Consistent := by
  by_cases hin : p.contains t.hash = true
  · have hsame : p.push t = p := if_pos hin
    rw [hsame]
    exact hp
  · have hqueue : (p.push t).hashes = p.hashes ++ [t.hash] := by
      have hsame : p.push t = ⟨p.queue ++ [t], p.index.insert t.hash⟩ := if_neg hin
      simp [hsame, hashes]
    have hnew : t.hash ∉ p.hashes := fun h => hin ((hp.contains_iff _).mpr h)
    refine ⟨?_, fun h => ?_⟩
    · rw [hqueue, List.nodup_append]
      refine ⟨hp.nodup, List.nodup_singleton _, fun a ha b hb hab => hnew ?_⟩
      rwa [← List.mem_singleton.mp hb, ← hab]
    · rw [contains_push, hp.contains_iff, hqueue, List.mem_append, List.mem_singleton]

theorem contains_pushAll (p : Pool) (ts : List Transaction) (h : Digest) :
    (p.pushAll ts).contains h = true ↔ p.contains h = true ∨ h ∈ ts.map (·.hash) := by
  induction ts generalizing p with
  | nil => simp [pushAll]
  | cons t ts ih =>
    have hstep : p.pushAll (t :: ts) = (p.push t).pushAll ts := rfl
    rw [hstep, ih, contains_push, List.map_cons, List.mem_cons, or_assoc]

theorem Consistent.pushAll {p : Pool} (hp : p.Consistent) (ts : List Transaction) :
    (p.pushAll ts).Consistent := by
  induction ts generalizing p with
  | nil => exact hp
  | cons t ts ih => exact ih (hp.push t)

theorem Consistent.addBatch {p : Pool} (hp : p.Consistent) (ts : List Transaction) :
    (p.addBatch ts).2.Consistent := hp.pushAll ts

/-- Transactions that are pending are not queued again. -/
theorem pushAll_of_contains {p : Pool} {ts : List Transaction} (h : ∀ t ∈ ts, p.contains t.hash = true) :
    p.pushAll ts = p := by
  induction ts with
  | nil => rfl
  | cons t ts ih =>
    have hsame : p.push t = p := if_pos (h t List.mem_cons_self)
    have hstep : p.pushAll (t :: ts) = (p.push t).pushAll ts := rfl
    rw [hstep, hsame, ih fun s hs => h s (List.mem_cons_of_mem t hs)]

theorem pushAll_pushAll (p : Pool) (ts : List Transaction) : (p.pushAll ts).pushAll ts = p.pushAll ts :=
  pushAll_of_contains fun t ht => (contains_pushAll p ts t.hash).mpr (Or.inr (List.mem_map_of_mem ht))

theorem contains_congr {p q : Pool} (hp : p.Consistent) (hq : q.Consistent) (h : p.queue = q.queue)
    (hash : Digest) : p.contains hash = q.contains hash := by
  rw [Bool.eq_iff_iff, hp.contains_iff, hq.contains_iff, hashes, hashes, h]

/-- What is queued depends on the queue alone. -/
theorem queue_pushAll_congr {p q : Pool} (hp : p.Consistent) (hq : q.Consistent) (h : p.queue = q.queue)
    (ts : List Transaction) : (p.pushAll ts).queue = (q.pushAll ts).queue := by
  induction ts generalizing p q with
  | nil => exact h
  | cons t ts ih =>
    refine ih (hp.push t) (hq.push t) ?_
    have hsame : p.index.contains t.hash = q.index.contains t.hash := contains_congr hp hq h t.hash
    unfold push
    rw [hsame, h]
    split
    · exact h
    · rfl

/-! ### Taking -/

theorem take_of_lt {p : Pool} {n : Nat} (h : p.size < n) : p.take n = (.error (.insufficient n p.size), p) :=
  if_pos h

/-- As many transactions as there are can be taken. -/
theorem take_of_le {p : Pool} {n : Nat} (h : n ≤ p.size) :
    p.take n = (.ok (p.queue.take n),
      ⟨p.queue.drop n, (p.queue.take n).foldl (fun i t => i.erase t.hash) p.index⟩) := by
  have hle : n ≤ p.queue.length := h
  have hshrunk : p.queue.length - (p.queue.length - n) = n := by omega
  simp [take, size, hshrunk, hle]

theorem take_eq_ok {p : Pool} {n : Nat} (h : n ≤ p.size) : p.take n = (.ok (p.queue.take n), (p.take n).2) := by
  rw [take_of_le h]

theorem contains_foldl_erase (ts : List Transaction) (i : Std.TreeSet Digest) (h : Digest) :
    (ts.foldl (fun i t => i.erase t.hash) i).contains h = true ↔
      i.contains h = true ∧ h ∉ ts.map (·.hash) := by
  induction ts generalizing i with
  | nil => simp
  | cons t ts ih =>
    rw [List.foldl_cons, ih, Std.TreeSet.contains_erase, List.map_cons, List.mem_cons]
    have hne : (compare t.hash h != .eq) = true ↔ h ≠ t.hash := by
      rw [bne_iff_ne, ne_eq, Std.LawfulEqOrd.compare_eq_iff_eq, eq_comm]
    rw [Bool.and_eq_true, hne, not_or]
    constructor
    · rintro ⟨⟨h1, h2⟩, h3⟩
      exact ⟨h2, h1, h3⟩
    · rintro ⟨h1, h2, h3⟩
      exact ⟨⟨h2, h1⟩, h3⟩

theorem contains_take {p : Pool} {n : Nat} (hn : n ≤ p.size) (h : Digest) :
    (p.take n).2.contains h = true ↔ p.contains h = true ∧ h ∉ (p.queue.take n).map (·.hash) := by
  rw [take_of_le hn]
  exact contains_foldl_erase _ _ _

theorem nodup_map_hash_take {p : Pool} (hp : p.Consistent) (n : Nat) :
    ((p.queue.take n).map (·.hash)).Nodup :=
  hp.nodup.sublist ((List.take_sublist n p.queue).map _)

theorem contains_of_mem_take {p : Pool} (hp : p.Consistent) {n : Nat} {h : Digest}
    (hmem : h ∈ (p.queue.take n).map (·.hash)) : p.contains h = true :=
  (hp.contains_iff h).mpr (((List.take_sublist n p.queue).map _).subset hmem)

theorem Consistent.take {p : Pool} (hp : p.Consistent) (n : Nat) : (p.take n).2.Consistent := by
  rcases Nat.lt_or_ge p.size n with hlt | hle
  · rw [take_of_lt hlt]
    exact hp
  · have hsplit : p.hashes = (p.queue.take n).map (·.hash) ++ (p.take n).2.hashes := by
      rw [take_of_le hle, hashes, hashes, ← List.map_append, List.take_append_drop]
    have hnodup := hp.nodup
    rw [hsplit, List.nodup_append] at hnodup
    obtain ⟨-, hrest, hdisjoint⟩ := hnodup
    refine ⟨hrest, fun h => ?_⟩
    rw [contains_take hle, hp.contains_iff, hsplit, List.mem_append]
    constructor
    · rintro ⟨hin | hin, hout⟩
      · exact absurd hin hout
      · exact hin
    · exact fun hin => ⟨Or.inr hin, fun htaken => hdisjoint h htaken h hin rfl⟩

/-! ### Putting back -/

theorem Consistent.sort {p : Pool} (hp : p.Consistent) : p.sort.Consistent := by
  have hperm : p.sort.hashes.Perm p.hashes := (List.mergeSort_perm _ _).map _
  exact ⟨hperm.nodup_iff.mpr hp.nodup, fun h => (hp.contains_iff h).trans hperm.mem_iff.symm⟩

theorem Consistent.requeue {p : Pool} (hp : p.Consistent) (ts : List Transaction) :
    (p.requeue ts).2.Consistent := (hp.pushAll ts).sort

theorem contains_requeue (p : Pool) (ts : List Transaction) (h : Digest) :
    (p.requeue ts).2.contains h = true ↔ p.contains h = true ∨ h ∈ ts.map (·.hash) :=
  contains_pushAll p ts h

/-- Putting back what was taken restores the pending hashes. -/
theorem contains_requeue_take {p : Pool} (hp : p.Consistent) {n : Nat} (hn : n ≤ p.size)
    {ts : List Transaction} (hts : ∀ h, h ∈ ts.map (·.hash) ↔ h ∈ (p.queue.take n).map (·.hash)) (h : Digest) :
    ((p.take n).2.requeue ts).2.contains h = true ↔ p.contains h = true := by
  rw [contains_requeue, contains_take hn, hts]
  constructor
  · rintro (⟨hin, -⟩ | hmem)
    · exact hin
    · exact contains_of_mem_take hp hmem
  · intro hin
    by_cases hmem : h ∈ (p.queue.take n).map (·.hash)
    · exact Or.inr hmem
    · exact Or.inl ⟨hin, hmem⟩

/-! ### Pools that can be reached -/

/-- The pools that come of the empty one. -/
inductive Reachable : Pool → Prop where
  | empty : Reachable empty
  | addBatch {p : Pool} (h : Reachable p) (ts : List Transaction) : Reachable (p.addBatch ts).2
  | take {p : Pool} (h : Reachable p) (n : Nat) : Reachable (p.take n).2
  | requeue {p : Pool} (h : Reachable p) (ts : List Transaction) : Reachable (p.requeue ts).2

/-- **Whatever is done to a pool**, its index holds the hashes of its queue. -/
theorem Reachable.consistent {p : Pool} (h : p.Reachable) : p.Consistent := by
  induction h with
  | empty => exact consistent_empty
  | addBatch _ ts ih => exact ih.addBatch ts
  | take _ n ih => exact ih.take n
  | requeue _ ts ih => exact ih.requeue ts

end ReplicatedLedger.Pool
