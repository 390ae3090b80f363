import ReplicatedLedger.Proofs.Block.Order
import ReplicatedLedger.Proofs.Pool.Order

/-! # Putting a batch back

A refused proposal puts its batch back in the order in which its block lists the transactions, that is by key, and
behind what was left in the queue. Sorting by timestamp then leaves, of every timestamp, first what was not taken and
then what was, by hash (`atTime_requeue_byKey`). So the queue is sorted and no more just if no timestamp stands on both
sides of the cut and the batch was in the order of the hashes where it shares a timestamp (`Restorable`,
`queue_requeue_byKey`). Otherwise transactions of one timestamp lose their order of arrival (`exists_overtaken`). -/

namespace ReplicatedLedger

open Transaction

/-! ### Batches by key -/

theorem Transaction.byKey_eq_self_iff {ts : List Transaction} (h : (ts.map (·.hash)).Nodup) :
    byKey ts = ts ↔ ts.Pairwise Precedes := by
  constructor
  · intro heq
    rw [← heq]
    exact pairwise_byKey h
  · intro hsorted
    have hne : ts.Pairwise fun s t => s.hash ≠ t.hash := List.pairwise_map.mp h
    exact List.mergeSort_of_pairwise (hsorted.imp₂ (fun s t hst hne => (precedes_iff hne).mp hst) hne)

/-- The block over a batch lists it by key. -/
theorem Block.ordered_ofList {previous : Option Digest} {height : UInt64} {ts : List Transaction} {timestamp : Int64}
    {nonce : Bytes} {version : String} {b : Block}
    (h : ofList previous height ts timestamp nonce version = .ok b) : b.ordered = byKey ts := by
  obtain ⟨hnodup, hsize⟩ := (ofList_outcomes previous height ts timestamp nonce version).1.mp ⟨b, h⟩
  obtain ⟨b', hb', htxs, -⟩ := ofList_of_nodup previous height timestamp nonce version hnodup hsize
  obtain rfl : b = b' := by simpa [h] using hb'
  have hperm : b.txs.values.Perm ts := by
    rw [htxs]
    exact TxMap.values_ofTransactions_perm hnodup
  exact byKey_eq_of_perm hperm b.nodup_hash_values

namespace Pool

/-- What a batch by key has of one timestamp is by key. -/
theorem atTime_byKey {ts : List Transaction} (h : (ts.map (·.hash)).Nodup) (time : Int64) :
    atTime (byKey ts) time = byKey (atTime ts time) := by
  have hperm : (atTime (byKey ts) time).Perm (atTime ts time) := (byKey_perm ts).filter _
  have hnodup : ((atTime ts time).map (·.hash)).Nodup := h.sublist (List.filter_sublist.map _)
  have hsorted : (atTime (byKey ts) time).Pairwise Precedes := (pairwise_byKey h).filter _
  have hself := (byKey_eq_self_iff ((hperm.map _).nodup_iff.mpr hnodup)).mpr hsorted
  rw [← hself, byKey_eq_of_perm hperm ((hperm.map _).nodup_iff.mpr hnodup)]

/-! ### The queue -/

/-- The `n` oldest arrivals can be put back by key: the cut is not among those of one timestamp, and those of one
timestamp have arrived in the order of their hashes. -/
structure Restorable (p : Pool) (n : Nat) : Prop where
  apart : ∀ s ∈ p.queue.take n, ∀ t ∈ p.queue.drop n, s.timestamp ≠ t.timestamp
  byHash : (p.queue.take n).Pairwise fun s t => s.timestamp = t.timestamp → s.hash < t.hash

/-- Putting the front of a list behind the rest, in whatever order, restores the list just if one of both is empty and
the order is the old one. -/
theorem append_eq_append_iff {ts ts' us : List Transaction} (hperm : ts'.Perm ts) (hnodup : (ts ++ us).Nodup) :
    us ++ ts' = ts ++ us ↔ (ts = [] ∨ us = []) ∧ ts' = ts := by
  constructor
  · intro heq
    cases ts with
    | nil => exact ⟨Or.inl rfl, List.perm_nil.mp hperm⟩
    | cons t ts =>
      cases us with
      | nil => exact ⟨Or.inr rfl, by simpa using heq⟩
      | cons u us =>
        -- the first of the list would stand on both sides
        obtain rfl : u = t := by simpa using congrArg List.head? heq
        simp at hnodup
  · rintro ⟨hempty | hempty, rfl⟩
    · simp [hempty]
    · simp [hempty]

variable {p : Pool} {n : Nat}

/-- **Of each timestamp** there is first what was left in the queue and then what was put back, by hash. -/
theorem atTime_requeue_byKey (hp : p.Consistent) (hn : n ≤ p.size) (time : Int64) :
    atTime ((p.take n).2.requeue (byKey (p.queue.take n))).2.queue time =
      atTime (p.queue.drop n) time ++ byKey (atTime (p.queue.take n) time) := by
  have hqueue := queue_pushAll_take hp hn (byKey_perm (p.queue.take n))
  simp only [requeue, atTime_sort, hqueue, atTime_append, atTime_byKey (nodup_map_hash_take hp n)]

theorem restorable_iff (hp : p.Consistent) : p.Restorable n ↔
    ∀ time, (atTime (p.queue.take n) time = [] ∨ atTime (p.queue.drop n) time = []) ∧
      byKey (atTime (p.queue.take n) time) = atTime (p.queue.take n) time := by
  have hnodup : ∀ time, ((atTime (p.queue.take n) time).map (·.hash)).Nodup := fun time =>
    (nodup_map_hash_take hp n).sublist (List.filter_sublist.map _)
  simp only [byKey_eq_self_iff (hnodup _)]
  constructor
  · rintro ⟨hapart, hbyHash⟩ time
    constructor
    · by_contra hboth
      rw [not_or, List.eq_nil_iff_forall_not_mem, List.eq_nil_iff_forall_not_mem] at hboth
      push Not at hboth
      obtain ⟨⟨s, hs⟩, ⟨t, ht⟩⟩ := hboth
      rw [mem_atTime] at hs ht
      exact hapart s hs.1 t ht.1 (hs.2.trans ht.2.symm)
    · rw [atTime, List.pairwise_filter]
      refine hbyHash.imp ?_
      intro s t hst hs ht
      have htime : s.timestamp = t.timestamp := by simp_all
      exact Or.inr ⟨congrArg _ htime, hst htime⟩
  · intro hall
    constructor
    · intro s hs t ht htime
      have hs' : s ∈ atTime (p.queue.take n) t.timestamp := mem_atTime.mpr ⟨hs, htime⟩
      have ht' : t ∈ atTime (p.queue.drop n) t.timestamp := mem_atTime.mpr ⟨ht, rfl⟩
      rcases (hall t.timestamp).1 with hnone | hnone
      · simp [hnone] at hs'
      · simp [hnone] at ht'
    · rw [List.pairwise_iff_forall_sublist]
      intro s t hst htime
      have hsorted := (hall t.timestamp).2
      rw [atTime, List.pairwise_filter, List.pairwise_iff_forall_sublist] at hsorted
      rcases hsorted hst (by simpa using htime) (by simp) with hlt | ⟨-, hlt⟩
      · rw [htime] at hlt
        omega
      · exact hlt

/-- **Putting a batch back by key** leaves the queue in the order of the timestamps, of each one first what was left
and then the batch by hash. This is the queue, sorted and no more, just if the batch is restorable, and a queue that
was in order is then as it was. The block over the batch lists it in this order. -/
theorem queue_requeue_byKey (hp : p.Consistent) (hn : n ≤ p.size) :
    let q := ((p.take n).2.requeue (byKey (p.queue.take n))).2
    InOrder q.queue ∧
      (∀ time, atTime q.queue time = atTime (p.queue.drop n) time ++ byKey (atTime (p.queue.take n) time)) ∧
      (q.queue = p.sort.queue ↔ p.Restorable n) ∧ (InOrder p.queue → (q.queue = p.queue ↔ p.Restorable n)) ∧
      ∀ previous height timestamp nonce version b,
        Block.ofList previous height (p.queue.take n) timestamp nonce version = .ok b →
        b.ordered = byKey (p.queue.take n) := by
  intro q
  have hinOrder : InOrder q.queue := inOrder_sort _
  have htimes := atTime_requeue_byKey hp hn
  have hsorted : q.queue = p.sort.queue ↔ p.Restorable n := by
    rw [eq_queue_sort_iff hinOrder, restorable_iff hp]
    refine forall_congr' fun time => ?_
    have hnodup := hp.nodup_atTime time
    rw [atTime_queue p n] at hnodup
    rw [htimes, atTime_queue p n]
    exact append_eq_append_iff (byKey_perm _) hnodup
  refine ⟨hinOrder, htimes, hsorted, fun hp' => ?_, fun _ _ _ _ _ b hb => Block.ordered_ofList hb⟩
  rw [← hsorted, queue_sort_of_inOrder hp']

/-- Two of three transactions, each with a timestamp of its own, are taken and put back. -/
theorem queue_requeue_byKey_three :
    let p := ofList [TxMap.blank 0, TxMap.blank 1, TxMap.blank 2]
    let q := ((p.take 2).2.requeue (byKey (p.queue.take 2))).2
    p.Consistent ∧ 2 ≤ p.size ∧ InOrder p.queue ∧ p.Restorable 2 ∧ q.queue = p.queue := by
  intro p q
  have hp : p.Consistent := consistent_empty.pushAll _
  have hnodup : ([TxMap.blank 0, TxMap.blank 1, TxMap.blank 2].map (·.hash)).Nodup :=
    TxMap.nodup_hash_blank.sublist (List.sublist_append_left _ [(TxMap.blank 3).hash])
  have hqueue : p.queue = [TxMap.blank 0, TxMap.blank 1, TxMap.blank 2] :=
    queue_pushAll_of_new consistent_empty hnodup (by simp [hashes, empty])
  have htwo : 2 ≤ p.size := by simp [size, hqueue]
  have hinOrder : InOrder p.queue := by
    rw [hqueue]
    decide
  have hrestorable : p.Restorable 2 := by
    have htimes : (TxMap.blank 0).timestamp ≠ (TxMap.blank 1).timestamp := by decide
    constructor
    · rw [hqueue]
      decide
    · simp [hqueue, htimes]
  obtain ⟨-, -, -, hsame, -⟩ := queue_requeue_byKey hp htwo
  exact ⟨hp, htwo, hinOrder, hrestorable, (hsame hinOrder).mpr hrestorable⟩

/-! ### Transactions of one timestamp -/

/-- A transaction of the one time, with one byte for its payload. -/
def twin (payload : UInt8) : Transaction := .ofContent ⟨currentVersion, 5, [payload], none⟩

theorem hash_twin_ne : (twin 0).hash ≠ (twin 1).hash := by decide +kernel

/-- **The order of arrival is lost**: of two transactions of one timestamp the first is proposed, refused and put back,
and then it stands behind the second, in a queue that was in order before. -/
theorem exists_overtaken :
    let p := ofList [twin 0, twin 1]
    p.Consistent ∧ p.queue = [twin 0, twin 1] ∧ InOrder p.queue ∧ p.sort.queue = [twin 0, twin 1] ∧
      (∃ b, Block.ofList none 1 (p.queue.take 1) 0 [] currentVersion = .ok b ∧
        ((p.take 1).2.requeue b.ordered).2.queue = [twin 1, twin 0]) ∧
      [twin 1, twin 0] ≠ [twin 0, twin 1] := by
  intro p
  have hp : p.Consistent := consistent_empty.pushAll _
  have hqueue : p.queue = [twin 0, twin 1] :=
    queue_pushAll_of_new consistent_empty (by simpa using hash_twin_ne) (by simp [hashes, empty])
  have hone : 1 ≤ p.size := by simp [size, hqueue]
  have hinOrder : InOrder [twin 0, twin 1] := by decide
  have hinOrder' : InOrder [twin 1, twin 0] := by decide
  have hblock : ∃ b, Block.ofList none 1 [twin 0] 0 [] currentVersion = .ok b ∧ b.ordered = [twin 0] := by
    have hsingle : ([twin 0].map (·.hash)).Nodup := List.nodup_singleton _
    obtain ⟨b, hb, -⟩ := Block.ofList_of_nodup none 1 0 [] currentVersion hsingle (by decide)
    exact ⟨b, hb, (Block.ordered_ofList hb).trans (List.mergeSort_singleton _)⟩
  obtain ⟨b, hb, hordered⟩ := hblock
  have hback : ((p.take 1).2.pushAll [twin 0]).queue = [twin 1, twin 0] := by
    have hperm : [twin 0].Perm (p.queue.take 1) := by simp [hqueue]
    rw [queue_pushAll_take hp hone hperm, hqueue]
    rfl
  refine ⟨hp, hqueue, hqueue ▸ hinOrder, ?_, ⟨b, by simpa [hqueue] using hb, ?_⟩, ?_⟩
  · rw [queue_sort_of_inOrder (hqueue ▸ hinOrder), hqueue]
  · rw [hordered, requeue, queue_sort_of_inOrder (hback ▸ hinOrder'), hback]
  · intro heq
    have hsame : twin 1 = twin 0 := by simpa using congrArg List.head? heq
    exact hash_twin_ne (congrArg Transaction.hash hsame).symm

end Pool

end ReplicatedLedger
