import ReplicatedLedger.Merkle
import Mathlib.Algebra.Group.Nat.Defs
import Mathlib.Data.List.Basic
import Mathlib.Data.Nat.Log
import Mathlib.Order.Bounds.Defs

/-! # Merkle roots from the top down

The tree over a sequence of leaves can also be split from the top: on the left stand as many leaves as the largest
power of two that is smaller than their number (`isGreatest_splitSize`), on the right the others, and either side is
split again (`splitRoot`). Above two leaves this power is even, and half of it is that of the next level
(`splitSize_eq_two_mul`), so that reducing the leaves by one level changes neither the split nor the root
(`splitRoot_nextLevel`). The root that is left in the end is therefore that of the split tree
(`root?_eq_splitRoot`). -/

namespace ReplicatedLedger.Merkle

/-! ### The place of the split -/

/-- The largest power of two that is smaller than `n`, for `n` from two on. -/
def splitSize (n : Nat) : Nat := 2 ^ Nat.log 2 (n - 1)

theorem splitSize_pos (n : Nat) : 0 < splitSize n := Nat.two_pow_pos _

theorem splitSize_lt {n : Nat} (h : 1 < n) : splitSize n < n := by
  have hle : splitSize n ≤ n - 1 := Nat.pow_log_le_self 2 (by omega)
  omega

theorem isGreatest_splitSize {n : Nat} (h : 1 < n) : IsGreatest {k | k.isPowerOfTwo ∧ k < n} (splitSize n) := by
  refine ⟨⟨⟨_, rfl⟩, splitSize_lt h⟩, ?_⟩
  rintro _ ⟨⟨e, rfl⟩, hlt⟩
  have hexponent : e ≤ Nat.log 2 (n - 1) := Nat.le_log_of_pow_le (by decide) (by omega)
  exact Nat.pow_le_pow_right (by decide) hexponent

theorem splitSize_two : splitSize 2 = 1 := by simp [splitSize]

theorem splitSize_eq_two_mul {n : Nat} (h : 2 < n) : splitSize n = 2 * splitSize ((n + 1) / 2) := by
  have hhalf : (n + 1) / 2 - 1 = (n - 1) / 2 := by omega
  have hlog : Nat.log 2 (n - 1) = Nat.log 2 ((n - 1) / 2) + 1 := Nat.log_of_one_lt_of_le (by decide) (by omega)
  rw [splitSize, splitSize, hhalf, hlog, Nat.pow_succ']

/-! ### The split tree -/

theorem take_ne_nil {l : List Digest} {n : Nat} (h : l ≠ []) (hpos : 0 < n) : l.take n ≠ [] := by
  simp [h, Nat.ne_of_gt hpos]

theorem drop_ne_nil {l : List Digest} {n : Nat} (h : n < l.length) : l.drop n ≠ [] := by
  simpa using h

/-- The root of the tree that is split from the top: a single leaf is its own root. -/
def splitRoot (l : List Digest) (h : l ≠ []) : Digest :=
  if hlong : 1 < l.length then
    Digest.ofPair (splitRoot (l.take (splitSize l.length)) (take_ne_nil h (splitSize_pos _)))
      (splitRoot (l.drop (splitSize l.length)) (drop_ne_nil (splitSize_lt hlong)))
  else l.head h
termination_by l.length
decreasing_by
  · rw [List.length_take]
    exact Nat.lt_of_le_of_lt (Nat.min_le_left _ _) (splitSize_lt hlong)
  · have hpos := splitSize_pos l.length
    rw [List.length_drop]
    omega

theorem splitRoot_singleton (x : Digest) (h : [x] ≠ []) : splitRoot [x] h = x := by simp [splitRoot]

theorem splitRoot_of_lt {l : List Digest} (hlong : 1 < l.length) (h : l ≠ []) : splitRoot l h =
    Digest.ofPair (splitRoot (l.take (splitSize l.length)) (take_ne_nil h (splitSize_pos _)))
      (splitRoot (l.drop (splitSize l.length)) (drop_ne_nil (splitSize_lt hlong))) := by
  rw [splitRoot, dif_pos hlong]

/-! ### One level -/

theorem nextLevel_take : ∀ (l : List Digest) (k : Nat), nextLevel (l.take (2 * k)) = (nextLevel l).take k
  | [], _ => by simp [nextLevel]
  | [_], 0 => rfl
  | [_], k + 1 => by simp [nextLevel, Nat.mul_succ]
  | _ :: _ :: _, 0 => rfl
  | a :: b :: r, k + 1 => by
    have hstep : (a :: b :: r).take (2 * (k + 1)) = a :: b :: r.take (2 * k) := rfl
    rw [hstep, nextLevel, nextLevel_take r k, nextLevel, List.take_succ_cons]

theorem nextLevel_drop : ∀ (l : List Digest) (k : Nat), nextLevel (l.drop (2 * k)) = (nextLevel l).drop k
  | [], _ => by simp [nextLevel]
  | [_], 0 => rfl
  | [_], k + 1 => by simp [nextLevel, Nat.mul_succ]
  | _ :: _ :: _, 0 => rfl
  | a :: b :: r, k + 1 => by
    have hstep : (a :: b :: r).drop (2 * (k + 1)) = r.drop (2 * k) := rfl
    rw [hstep, nextLevel_drop r k, nextLevel, List.drop_succ_cons]

theorem nextLevel_ne_nil {l : List Digest} (h : l ≠ []) : nextLevel l ≠ [] := by
  have hpos := List.length_pos_iff.mpr h
  refine List.length_pos_iff.mp ?_
  rw [length_nextLevel]
  omega

/-- **One level of the reduction** does not change the root of the split tree. -/
theorem splitRoot_nextLevel {l : List Digest} (h : l ≠ []) :
    splitRoot (nextLevel l) (nextLevel_ne_nil h) = splitRoot l h := by
  induction l, h using splitRoot.induct with
  | case1 l h hlong hleft hright =>
    rw [splitRoot_of_lt hlong]
    rcases Nat.eq_or_lt_of_le hlong with htwo | hmore
    · obtain ⟨x, y, rfl⟩ := List.length_eq_two.mp htwo.symm
      simp [nextLevel, splitRoot_singleton, splitSize_two]
    · have hlong' : 1 < (nextLevel l).length := by rw [length_nextLevel]; omega
      have hsize : splitSize l.length = 2 * splitSize (nextLevel l).length := by
        rw [length_nextLevel, splitSize_eq_two_mul hmore]
      -- both sides of the split, reduced, are the sides of the next level
      rw [splitRoot_of_lt hlong', ← hleft, ← hright]
      simp only [hsize, nextLevel_take, nextLevel_drop]
  | case2 l h hshort =>
    have hpos := List.length_pos_iff.mpr h
    obtain ⟨x, rfl⟩ := List.length_eq_one_iff.mp (show l.length = 1 by omega)
    rfl

theorem root?_eq_some_splitRoot {l : List Digest} (h : l ≠ []) : root? l = some (splitRoot l h) := by
  induction l using root?.induct with
  | case1 => exact absurd rfl h
  | case2 x => rw [root?, splitRoot_singleton]
  | case3 x y r ih => rw [root?, ih (nextLevel_ne_nil h), splitRoot_nextLevel]

/-- **The root is that of the split tree**: one leaf is its own root, and the root of more leaves is the digest of the
pair of the roots of the first ones and of the others, where the first ones are as many as the largest power of two
that is smaller than their number. -/
theorem root?_eq_splitRoot {l : List Digest} (h : l ≠ []) :
    root? l = some (splitRoot l h) ∧ (∀ x, l = [x] → splitRoot l h = x) ∧
      (1 < l.length → ∃ k hfirst hrest, IsGreatest {k | k.isPowerOfTwo ∧ k < l.length} k ∧
        splitRoot l h = Digest.ofPair (splitRoot (l.take k) hfirst) (splitRoot (l.drop k) hrest)) := by
  refine ⟨root?_eq_some_splitRoot h, ?_, fun hlong => ?_⟩
  · rintro x rfl
    exact splitRoot_singleton x h
  · exact ⟨_, _, _, isGreatest_splitSize hlong, splitRoot_of_lt hlong h⟩

/-- Five leaves: the last one moves up alone twice, and it is the whole right side of the split. -/
theorem root?_eq_splitRoot_five :
    let l := ([0, 1, 2, 3, 4] : Bytes).map fun b => Digest.of [b]
    ∃ h : l ≠ [], root? l = some (splitRoot l h) ∧ 1 < l.length ∧
      ∃ k hfirst hrest, IsGreatest {k | k.isPowerOfTwo ∧ k < l.length} k ∧
        splitRoot l h = Digest.ofPair (splitRoot (l.take k) hfirst) (splitRoot (l.drop k) hrest) := by
  intro l
  have h : l ≠ [] := List.cons_ne_nil _ _
  have hlong : 1 < l.length := by decide
  obtain ⟨hroot, -, hsplit⟩ := root?_eq_splitRoot h
  exact ⟨h, hroot, hlong, hsplit hlong⟩

end ReplicatedLedger.Merkle
