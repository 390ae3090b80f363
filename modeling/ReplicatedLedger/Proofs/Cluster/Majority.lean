import ReplicatedLedger.Proofs.Cluster.Telling
import Mathlib.Data.List.Induction

/-! # The reply of the majority

The replies to an ordered command are counted, and the reply that more than half of the members gave is the answer.
Two different replies cannot both have come from more than half (`count_add_count_le`), so that there is one answer at
most, and in whatever order the counted replies are searched, they are searched for the same one
(`find?_of_perm_tally`). So an ordered command is answered by the members that are there, by their number and by
nothing else (`decides`). -/

namespace ReplicatedLedger.Cluster

variable {c : Cluster} {command raw : Bytes} {replies : List Bytes}

/-! ### Counting replies -/

/-- Members with different replies are different members. -/
theorem count_add_count_le {raw raw' : Bytes} (hne : raw ≠ raw') (replies : List Bytes) :
    replies.count raw + replies.count raw' ≤ replies.length := by
  induction replies with
  | nil => exact Nat.le_refl 0
  | cons reply replies ih =>
    rw [List.count_cons, List.count_cons, List.length_cons]
    by_cases hreply : reply = raw
    · have hother : ¬ reply = raw' := fun h => hne (hreply.symm.trans h)
      rw [if_pos (beq_iff_eq.mpr hreply), if_neg (fun h => hother (beq_iff_eq.mp h))]
      omega
    · rw [if_neg (fun h => hreply (beq_iff_eq.mp h))]
      split <;> omega

/-- **The reply that more than half give** is that of the majority. -/
theorem majority?_eq_some_iff : majority? replies = some raw ↔ replies.length < 2 * replies.count raw := by
  constructor
  · intro h
    simpa using List.find?_some h
  · intro h
    have hmem : raw ∈ replies := List.count_pos_iff.mp (by omega)
    have hsome : (majority? replies).isSome := List.find?_isSome.mpr ⟨raw, hmem, by simpa using h⟩
    obtain ⟨raw', hfind⟩ := Option.isSome_iff_exists.mp hsome
    have h' : replies.length < 2 * replies.count raw' := by simpa using List.find?_some hfind
    by_cases hne : raw = raw'
    · exact hne ▸ hfind
    · have hle := count_add_count_le hne replies
      omega

theorem majority?_eq_none_iff : majority? replies = none ↔ ∀ raw, 2 * replies.count raw ≤ replies.length := by
  rw [Option.eq_none_iff_forall_ne_some]
  exact forall_congr' fun raw => (not_congr majority?_eq_some_iff).trans Nat.not_lt

/-- How often each reply was given. -/
def tally (replies : List Bytes) : SortedMap Bytes Nat :=
  replies.foldl (fun votes reply => votes.insert reply ((votes.get? reply).getD 0 + 1)) .empty

/-- The tally has every reply that was given, with its number. -/
theorem get?_tally (replies : List Bytes) (raw : Bytes) :
    (tally replies).get? raw = if raw ∈ replies then some (replies.count raw) else none := by
  induction replies using List.reverseRecOn generalizing raw with
  | nil => rfl
  | append_singleton replies reply ih =>
    have hstep : tally (replies ++ [reply]) =
        (tally replies).insert reply (((tally replies).get? reply).getD 0 + 1) := by
      rw [tally, List.foldl_append]
      rfl
    rw [hstep, SortedMap.get?_insert, ih, ih, List.count_append, List.count_singleton]
    by_cases hraw : raw = reply
    · -- one more of the same; there may have been none before
      rw [if_pos hraw, hraw, if_pos (List.mem_append_right replies List.mem_cons_self), if_pos (beq_self_eq_true reply)]
      split_ifs with hmem
      · rfl
      · rw [List.count_eq_zero_of_not_mem hmem]
        rfl
    · rw [if_neg hraw, if_neg (fun h => hraw (beq_iff_eq.mp h).symm), Nat.add_zero]
      simp only [List.mem_append, List.mem_singleton, hraw, or_false]

theorem mem_tally_iff {votes : Nat} :
    (raw, votes) ∈ (tally replies).entries ↔ raw ∈ replies ∧ votes = replies.count raw := by
  rw [← SortedMap.get?_eq_some_iff, get?_tally]
  split_ifs with hmem
  · rw [Option.some.injEq, eq_comm, and_iff_right hmem]
  · exact iff_of_false (fun h => nomatch h) fun h => hmem h.1

/-- **In whatever order the tally is searched**, an entry of more than half is that of the majority. -/
theorem find?_of_perm_tally {votes : List (Bytes × Nat)} (h : votes.Perm (tally replies).entries) :
    (votes.find? fun e => e.2 * 2 > replies.length).map Prod.fst = majority? replies := by
  cases hfind : votes.find? fun e => e.2 * 2 > replies.length with
  | none =>
    rw [Option.map_none, eq_comm, majority?_eq_none_iff]
    intro raw
    by_cases hmem : raw ∈ replies
    · have hentry := h.mem_iff.mpr (mem_tally_iff.mpr ⟨hmem, rfl⟩)
      have hfew := List.find?_eq_none.mp hfind _ hentry
      simp only [gt_iff_lt, decide_eq_true_eq, Nat.not_lt] at hfew
      omega
    · rw [List.count_eq_zero_of_not_mem hmem]
      exact Nat.zero_le _
  | some e =>
    obtain ⟨-, hcount⟩ := mem_tally_iff.mp (h.mem_iff.mp (List.mem_of_find?_eq_some hfind))
    have hmost := List.find?_some hfind
    simp only [gt_iff_lt, decide_eq_true_eq] at hmost
    rw [Option.map_some, eq_comm, majority?_eq_some_iff]
    omega

/-! ### The answer -/

/-- The answer to an ordered command, by what the members that are there replied. -/
structure Decides (c : Cluster) (replies : List Bytes) (answer : Except SubstrateError Bytes) : Prop where
  /-- Each of them gave one reply. -/
  length_eq : replies.length = c.live.length
  /-- A reply is the answer when more than half of them gave it. -/
  ok_iff : ∀ raw, answer = .ok raw ↔ c.live.length < 2 * replies.count raw
  /-- There is no answer when there is no such reply. -/
  noQuorum_iff : ∀ n, answer = .error (.noQuorum n) ↔
    n = c.live.length ∧ c.live ≠ [] ∧ ∀ raw, 2 * replies.count raw ≤ c.live.length
  noReplicas_iff : answer = .error .noReplicas ↔ c.live = []
  /-- The order in which the tally is searched does not matter. -/
  eq_of_perm : ∀ votes : List (Bytes × Nat), votes.Perm (tally replies).entries → c.live ≠ [] →
    answer = match votes.find? fun e => e.2 * 2 > c.live.length with
      | some e => .ok e.1
      | none => .error (.noQuorum c.live.length)

theorem fst_order (c : Cluster) (command : Bytes) : (c.order command).1 = if c.live = [] then .error .noReplicas else
    (majority? (c.tellLive command).1).elim (.error (.noQuorum c.live.length)) .ok := by
  rw [order_eq, List.length_map]
  simp only [List.map_eq_nil_iff]
  split_ifs
  · rfl
  · cases majority? (c.tellLive command).1 <;> rfl

/-- **An ordered command** is answered with the reply of the majority. -/
theorem decides (c : Cluster) (command : Bytes) : c.Decides (c.tellLive command).1 (c.order command).1 := by
  have hlength := c.length_tellLive command
  refine ⟨hlength, fun raw => ?_, fun n => ?_, ?_, fun votes hperm hne => ?_⟩
  · rw [fst_order, ← hlength, ← majority?_eq_some_iff]
    split_ifs with hempty
    · -- nobody is asked, and no reply is that of the majority
      have hnobody : (c.tellLive command).1 = [] := List.length_eq_zero_iff.mp (by rw [hlength, hempty, List.length_nil])
      simp [hnobody, majority?]
    · cases majority? (c.tellLive command).1 <;> simp
  · rw [fst_order]
    split_ifs with hempty
    · simp [hempty]
    · rw [and_iff_right hempty, ← hlength, ← majority?_eq_none_iff]
      cases majority? (c.tellLive command).1 <;> simp [eq_comm]
  · rw [fst_order]
    split_ifs with hempty
    · exact iff_of_true rfl hempty
    · refine iff_of_false (fun h => ?_) hempty
      cases hmajority : majority? (c.tellLive command).1 <;> simp [hmajority] at h
  · rw [fst_order, if_neg hne, ← hlength, ← find?_of_perm_tally hperm]
    cases votes.find? fun e => e.2 * 2 > (c.tellLive command).1.length <;> rfl

end ReplicatedLedger.Cluster
