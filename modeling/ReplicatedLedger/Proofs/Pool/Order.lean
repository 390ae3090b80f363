import ReplicatedLedger.Proofs.Pool

/-! # The order of a pool

New transactions go to the end of the queue, and transactions that are put back have the queue sorted by timestamp,
those of one timestamp in the order in which they stood (`atTime_sort`). A list in the order of its timestamps is
determined by what it has of each of them (`eq_of_inOrder`), so that putting back what was taken sorts the queue
and does no more, unless a timestamp is shared (`queue_requeue_take`). -/

namespace ReplicatedLedger.Pool

/-! ### Lists in order -/

/-- The transactions stand in the order of their timestamps. -/
def InOrder (ts : List Transaction) : Prop := ts.Pairwise fun s t => s.timestamp ≤ t.timestamp

instance : DecidablePred InOrder := fun ts => inferInstanceAs (Decidable (ts.Pairwise _))

/-- The transactions with a timestamp, in their order. -/
def atTime (ts : List Transaction) (time : Int64) : List Transaction := ts.filter fun t => t.timestamp = time

theorem inOrder_iff {ts : List Transaction} :
    InOrder ts ↔ ts.Pairwise fun s t => decide (s.timestamp ≤ t.timestamp) = true := by
  simp only [InOrder, decide_eq_true_eq]

theorem timestamp_le_trans (s t u : Transaction) : decide (s.timestamp ≤ t.timestamp) = true →
    decide (t.timestamp ≤ u.timestamp) = true → decide (s.timestamp ≤ u.timestamp) = true := by
  simp only [decide_eq_true_eq]
  exact Int64.le_trans

theorem timestamp_le_total (s t : Transaction) :
    (decide (s.timestamp ≤ t.timestamp) || decide (t.timestamp ≤ s.timestamp)) = true := by
  simp only [Bool.or_eq_true, decide_eq_true_eq]
  exact Int64.le_total _ _

theorem queue_sort_perm (p : Pool) : p.sort.queue.Perm p.queue := List.mergeSort_perm _ _

theorem inOrder_sort (p : Pool) : InOrder p.sort.queue :=
  inOrder_iff.mpr (List.pairwise_mergeSort timestamp_le_trans timestamp_le_total p.queue)

/-- A queue that is in order stays as it is. -/
theorem queue_sort_of_inOrder {p : Pool} (h : InOrder p.queue) : p.sort.queue = p.queue :=
  List.mergeSort_of_pairwise (inOrder_iff.mp h)

/-- Sorting keeps the order among the transactions of one timestamp. -/
theorem atTime_sort (p : Pool) (time : Int64) : atTime p.sort.queue time = atTime p.queue time := by
  have hinOrder : (atTime p.queue time).Pairwise fun s t => decide (s.timestamp ≤ t.timestamp) = true := by
    refine List.pairwise_iff_forall_sublist.mpr fun {s t} hst => decide_eq_true ?_
    have htime := fun u (hu : u ∈ [s, t]) => of_decide_eq_true (List.mem_filter.mp (hst.subset hu)).2
    rw [htime s (by simp), htime t (by simp)]
    exact Int64.le_refl _
  have hsub : (atTime p.queue time).Sublist p.sort.queue :=
    List.sublist_mergeSort timestamp_le_trans timestamp_le_total hinOrder List.filter_sublist
  have hfilter : (atTime p.queue time).Sublist (atTime p.sort.queue time) := by
    have hagain : (atTime p.queue time).filter (fun t => t.timestamp = time) = atTime p.queue time := by
      simp only [atTime, List.filter_filter, Bool.and_self]
    exact hagain ▸ hsub.filter _
  exact (hfilter.eq_of_length ((queue_sort_perm p).filter _).length_eq.symm).symm

/-- **A list in order** is determined by what it has of each timestamp. -/
theorem eq_of_inOrder {ts us : List Transaction} (hts : InOrder ts) (hus : InOrder us)
    (h : ∀ time, atTime ts time = atTime us time) : ts = us := by
  induction ts generalizing us with
  | nil =>
    cases us with
    | nil => rfl
    | cons u us => simpa [atTime] using h u.timestamp
  | cons t ts ih =>
    cases us with
    | nil => simpa [atTime] using h t.timestamp
    | cons u us =>
      obtain ⟨hfirst, hrest⟩ := List.pairwise_cons.mp hts
      obtain ⟨hfirst', hrest'⟩ := List.pairwise_cons.mp hus
      -- each of the heads occurs in the other list, so that neither is later
      have hle : t.timestamp ≤ u.timestamp := by
        have hmem : u ∈ atTime (t :: ts) u.timestamp := h u.timestamp ▸ List.mem_filter.mpr ⟨by simp, by simp⟩
        rcases List.mem_cons.mp (List.mem_filter.mp hmem).1 with rfl | hmem
        · exact Int64.le_refl _
        · exact hfirst u hmem
      have hge : u.timestamp ≤ t.timestamp := by
        have hmem : t ∈ atTime (u :: us) t.timestamp := h t.timestamp ▸ List.mem_filter.mpr ⟨by simp, by simp⟩
        rcases List.mem_cons.mp (List.mem_filter.mp hmem).1 with rfl | hmem
        · exact Int64.le_refl _
        · exact hfirst' t hmem
      have htime : t.timestamp = u.timestamp := Int64.le_antisymm hle hge
      have hhead : t = u := by
        have hboth := h u.timestamp
        simp only [atTime, htime, List.filter_cons, decide_true, if_true, List.cons.injEq] at hboth
        exact hboth.1
      subst hhead
      refine congrArg _ (ih hrest hrest' fun time => ?_)
      have hboth := h time
      by_cases hnow : t.timestamp = time
      · simpa [atTime, List.filter_cons, hnow] using hboth
      · simpa [atTime, List.filter_cons, hnow] using hboth

/-- A queue that is in order is the one of a pool, sorted, just if it agrees with it on each timestamp. -/
theorem eq_queue_sort_iff {ts : List Transaction} (hts : InOrder ts) (p : Pool) :
    ts = p.sort.queue ↔ ∀ time, atTime ts time = atTime p.queue time := by
  constructor
  · rintro rfl time
    exact atTime_sort p time
  · intro h
    refine eq_of_inOrder hts (inOrder_sort p) fun time => ?_
    rw [h, atTime_sort]

/-! ### Taking and putting back -/

theorem atTime_append (ts us : List Transaction) (time : Int64) :
    atTime (ts ++ us) time = atTime ts time ++ atTime us time := List.filter_append ..

theorem mem_atTime {ts : List Transaction} {time : Int64} {t : Transaction} :
    t ∈ atTime ts time ↔ t ∈ ts ∧ t.timestamp = time := by simp [atTime]

/-- What a queue has of a timestamp, before and after a cut. -/
theorem atTime_queue (p : Pool) (n : Nat) (time : Int64) :
    atTime p.queue time = atTime (p.queue.take n) time ++ atTime (p.queue.drop n) time := by
  rw [← atTime_append, List.take_append_drop]

theorem Consistent.nodup_atTime {p : Pool} (hp : p.Consistent) (time : Int64) : (atTime p.queue time).Nodup :=
  (List.Nodup.of_map _ hp.nodup).filter _

/-- None of the `n` oldest arrivals has its timestamp in common with another transaction. -/
def Unshared (p : Pool) (n : Nat) : Prop :=
  ∀ s ∈ p.queue.take n, ∀ t ∈ p.queue, t.timestamp = s.timestamp → t = s

instance (p : Pool) (n : Nat) : Decidable (p.Unshared n) :=
  inferInstanceAs (Decidable (∀ s ∈ p.queue.take n, ∀ t ∈ p.queue, _))

theorem queue_pushAll_of_new {p : Pool} (hp : p.Consistent) {ts : List Transaction}
    (hnodup : (ts.map (·.hash)).Nodup) (hnew : ∀ t ∈ ts, t.hash ∉ p.hashes) :
    (p.pushAll ts).queue = p.queue ++ ts := by
  induction ts generalizing p with
  | nil => exact (List.append_nil _).symm
  | cons t ts ih =>
    have hpush : p.push t = ⟨p.queue ++ [t], p.index.insert t.hash⟩ :=
      if_neg fun hin => hnew t List.mem_cons_self ((hp.contains_iff _).mp hin)
    have hstep : p.pushAll (t :: ts) = (p.push t).pushAll ts := rfl
    rw [List.map_cons, List.nodup_cons] at hnodup
    rw [hstep, ih (hp.push t) hnodup.2 fun s hs hin => ?_, hpush, List.append_assoc, List.singleton_append]
    rw [hashes, hpush, List.map_append, List.mem_append] at hin
    rcases hin with hold | hsame
    · exact hnew s (List.mem_cons_of_mem t hs) hold
    · have hagain : s.hash = t.hash := List.mem_singleton.mp hsame
      exact hnodup.1 (hagain ▸ List.mem_map_of_mem hs)

section

variable {p : Pool} {n : Nat} {ts : List Transaction} (hp : p.Consistent) (hn : n ≤ p.size)
  (hts : ts.Perm (p.queue.take n))

include hp hn hts

theorem queue_pushAll_take : ((p.take n).2.pushAll ts).queue = p.queue.drop n ++ ts := by
  have hqueue : (p.take n).2.queue = p.queue.drop n := by rw [take_of_le hn]
  have hhashes := hts.map (·.hash)
  rw [queue_pushAll_of_new (hp.take n) (hhashes.nodup_iff.mpr (nodup_map_hash_take hp n)) fun t ht hin => ?_, hqueue]
  exact ((contains_take hn t.hash).mp (((hp.take n).contains_iff t.hash).mpr hin)).2
    (hhashes.subset (List.mem_map_of_mem ht))

theorem queue_pushAll_take_perm : ((p.take n).2.pushAll ts).queue.Perm p.queue := by
  rw [queue_pushAll_take hp hn hts]
  exact (hts.append_left _).trans (List.perm_append_comm.trans (by rw [List.take_append_drop]))

/-- Putting back what was taken, in whatever order, leaves the transactions, in the order of their timestamps. -/
theorem requeue_take_perm : ((p.take n).2.requeue ts).2.queue.Perm p.queue :=
  (queue_sort_perm _).trans (queue_pushAll_take_perm hp hn hts)

/-- **Putting back** what was taken sorts the queue, if no timestamp of what was taken is shared. -/
theorem queue_requeue_take (hunshared : p.Unshared n) : ((p.take n).2.requeue ts).2.queue = p.sort.queue := by
  refine (eq_queue_sort_iff (inOrder_sort _) p).mpr fun time => ?_
  have hperm := (queue_pushAll_take_perm hp hn hts).filter fun t => t.timestamp = time
  rw [atTime_sort]
  by_cases htaken : ∃ s ∈ p.queue.take n, s.timestamp = time
  · -- the transaction of the batch is the only one with the timestamp
    obtain ⟨s, hs, rfl⟩ := htaken
    have hone : atTime p.queue s.timestamp = [s] := by
      have hnodup := hp.nodup_atTime s.timestamp
      refine List.perm_singleton.mp ((List.perm_ext_iff_of_nodup hnodup (List.nodup_singleton s)).mpr fun t => ?_)
      rw [mem_atTime, List.mem_singleton]
      refine ⟨fun ht => hunshared s hs t ht.1 ht.2, ?_⟩
      rintro rfl
      exact ⟨List.mem_of_mem_take hs, rfl⟩
    have hperm' : (atTime ((p.take n).2.pushAll ts).queue s.timestamp).Perm [s] := hone ▸ hperm
    rw [hone]
    exact List.perm_singleton.mp hperm'
  · have hno : atTime (p.queue.take n) time = [] := by
      rw [atTime, List.filter_eq_nil_iff]
      exact fun s hs heq => htaken ⟨s, hs, of_decide_eq_true heq⟩
    have hno' : atTime ts time = [] := List.perm_nil.mp (hno ▸ hts.filter _)
    rw [queue_pushAll_take hp hn hts, atTime_append, atTime_queue p n, hno, hno', List.nil_append, List.append_nil]

end

end ReplicatedLedger.Pool
