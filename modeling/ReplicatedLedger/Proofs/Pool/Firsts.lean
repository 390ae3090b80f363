import ReplicatedLedger.Proofs.Pool.Histories
import ReplicatedLedger.Proofs.Pool.Order

/-! # What a batch brings to a pool

Of the transactions of a batch those are queued whose hashes are not pending, the first one of each hash, in the order
of the batch (`queue_pushAll`). This holds of every pool, whether or not its index is that of its queue, and so does the
condition for a batch to be accepted (`addBatch_isOk_iff`). -/

namespace ReplicatedLedger

/-- The transactions of a list in their order, without those whose hash came before. -/
def Transaction.firsts (ts : List Transaction) : List Transaction := ts.eraseDupsBy fun s t => s.hash = t.hash

namespace Pool

open Transaction (firsts)

variable {p : Pool} {ts : List Transaction}

/-- The transactions whose hashes are not pending. -/
def fresh (p : Pool) (ts : List Transaction) : List Transaction := ts.filter fun t => !p.contains t.hash

theorem firsts_cons (t : Transaction) (ts : List Transaction) :
    firsts (t :: ts) = t :: firsts (ts.filter fun s => s.hash ≠ t.hash) := by
  rw [firsts, List.eraseDupsBy_cons, firsts]
  refine congrArg (fun us => t :: us.eraseDupsBy fun s t => s.hash = t.hash) (List.filter_congr fun s _ => ?_)
  simp

theorem firsts_sublist : ∀ ts : List Transaction, (firsts ts).Sublist ts
  | [] => List.Sublist.refl []
  | t :: ts => by
    have hlater := (firsts_sublist (ts.filter fun s => s.hash ≠ t.hash)).trans List.filter_sublist
    rw [firsts_cons]
    exact hlater.cons_cons t
termination_by ts => ts.length
decreasing_by exact Nat.lt_succ_of_le (List.length_filter_le _ _)

theorem firsts_fresh_sublist (p : Pool) (ts : List Transaction) : (firsts (p.fresh ts)).Sublist ts :=
  (firsts_sublist _).trans List.filter_sublist

/-- **What a batch brings** to a pool stands behind what was queued. -/
theorem queue_pushAll (p : Pool) (ts : List Transaction) : (p.pushAll ts).queue = p.queue ++ firsts (p.fresh ts) := by
  induction ts generalizing p with
  | nil => exact (List.append_nil p.queue).symm
  | cons t ts ih =>
    have hstep : p.pushAll (t :: ts) = (p.push t).pushAll ts := rfl
    rw [hstep, ih]
    by_cases hin : p.contains t.hash = true
    · have hsame : p.push t = p := if_pos hin
      rw [hsame, fresh, fresh, List.filter_cons_of_neg (by simp [hin])]
    · have hpush : p.push t = ⟨p.queue ++ [t], p.index.insert t.hash⟩ := if_neg hin
      -- what is fresh afterwards was fresh, and has another hash
      have hfresh : (p.push t).fresh ts = (p.fresh ts).filter fun s => s.hash ≠ t.hash := by
        rw [fresh, fresh, List.filter_filter]
        refine List.filter_congr fun s _ => ?_
        rw [Bool.eq_iff_iff, Bool.not_eq_true', Bool.eq_false_iff, ne_eq, contains_push, not_or]
        simp [and_comm]
      rw [hfresh, hpush, fresh, fresh, List.filter_cons_of_pos (by simp [hin]), firsts_cons, List.append_assoc]
      rfl

theorem fresh_empty (ts : List Transaction) : empty.fresh ts = ts :=
  List.filter_eq_self.mpr fun _ _ => rfl

theorem queue_ofList (ts : List Transaction) : (ofList ts).queue = firsts ts := by
  rw [ofList, queue_pushAll, fresh_empty]
  rfl

theorem contains_ofList (ts : List Transaction) (h : Digest) :
    (ofList ts).contains h = true ↔ h ∈ ts.map (·.hash) := by
  rw [ofList, contains_pushAll]
  exact or_iff_right Bool.false_ne_true

theorem nodup_firsts (ts : List Transaction) : ((firsts ts).map (·.hash)).Nodup :=
  queue_ofList ts ▸ (consistent_empty.pushAll ts).nodup

/-- A list stays as it is just if no hash comes twice. -/
theorem firsts_eq_self_iff : firsts ts = ts ↔ (ts.map (·.hash)).Nodup := by
  constructor
  · intro heq
    exact heq ▸ nodup_firsts ts
  · intro hnodup
    rw [← queue_ofList, ofList, queue_pushAll_of_new consistent_empty hnodup fun t _ hin => List.not_mem_nil hin]
    rfl

/-- **A batch is accepted** just if none of it is there twice and none is pending. -/
theorem addBatch_isOk_iff (p : Pool) (ts : List Transaction) :
    (p.addBatch ts).1.isOk = true ↔ (ts.map (·.hash)).Nodup ∧ ∀ t ∈ ts, p.contains t.hash = false := by
  have hgrown : (p.pushAll ts).size - p.size = (firsts (p.fresh ts)).length := by
    rw [size, size, queue_pushAll, List.length_append, Nat.add_sub_cancel_left]
  have hok : (p.addBatch ts).1.isOk = true ↔ firsts (p.fresh ts) = ts := by
    rw [← (firsts_fresh_sublist p ts).length_eq, ← hgrown, addBatch]
    dsimp only
    split_ifs with h <;> simp [h, Except.isOk, Except.toBool]
  rw [hok]
  constructor
  · intro heq
    -- nothing was left out, neither by the one nor by the other
    have hlength := (firsts_sublist (p.fresh ts)).length_le
    rw [heq] at hlength
    have hfresh : p.fresh ts = ts := List.filter_sublist.eq_of_length_le hlength
    rw [hfresh, firsts_eq_self_iff] at heq
    exact ⟨heq, fun t ht => by simpa using List.filter_eq_self.mp hfresh t ht⟩
  · rintro ⟨hnodup, hnew⟩
    have hfresh : p.fresh ts = ts := List.filter_eq_self.mpr fun t ht => by rw [hnew t ht, Bool.not_false]
    rw [hfresh, firsts_eq_self_iff.mpr hnodup]

end Pool

end ReplicatedLedger
