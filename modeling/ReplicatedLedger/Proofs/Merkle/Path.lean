import ReplicatedLedger.Proofs.Merkle.Tree
import Mathlib.Data.Nat.Log

/-! # Proofs of membership and what they bind

The path of a leaf goes through one node of every level below the root (`ascent`). At each of them the node is
hashed with its sibling or, as the odd last node, moves up alone (`step?`), and either way the result stands at
half the index one level higher (`getElem?_nextLevel`).

* `root?_eq_foldl_path`: so climbing from a leaf along its path ends at the root.
* `length_path_le`: the path is no longer than the binary logarithm of the number of leaves, rounded up.
* `inBounds_of_mem_ascent`: every index on the way is one of its level.
* `foldl_climb_eq_or_collision`: two climbs with the same sides to the same node start at the same leaf and pass
  the same siblings, unless somewhere on the way they hash different pairs to the same digest. -/

namespace ReplicatedLedger.Merkle

/-! ### One level -/

/-- The index of the neighbour that the node at index `i` is paired with. -/
def siblingIndex (i : Nat) : Nat := if i % 2 == 0 then i + 1 else i - 1

/-- The sibling of the node at index `i`, with whether the node is the left one; none for an odd last node. -/
def step? (level : List Digest) (i : Nat) : Option (Digest × Bool) :=
  level[siblingIndex i]?.map fun s => (s, i % 2 == 0)

theorem siblingIndex_add_two (i : Nat) : siblingIndex (i + 2) = siblingIndex i + 2 := by
  unfold siblingIndex
  simp only [Nat.add_mod_right, beq_iff_eq]
  split_ifs <;> omega

theorem step?_add_two (a b : Digest) (r : List Digest) (i : Nat) : step? (a :: b :: r) (i + 2) = step? r i := by
  simp [step?, siblingIndex_add_two]

/-- Half the index, one level higher: the digest of the node and its sibling, or the node itself. -/
theorem getElem?_nextLevel : ∀ {level : List Digest} {i : Nat} {node : Digest}, level[i]? = some node →
    (nextLevel level)[i / 2]? = some ((step? level i).toList.foldl Proof.climb node)
  | [_], 0, _, h => by simpa [nextLevel, step?, siblingIndex] using h
  | a :: b :: r, 0, node, h => by
    obtain rfl : a = node := by simpa using h
    simp [nextLevel, step?, siblingIndex, Proof.climb]
  | a :: b :: r, 1, node, h => by
    obtain rfl : b = node := by simpa using h
    simp [nextLevel, step?, siblingIndex, Proof.climb]
  | a :: b :: r, i + 2, node, h => by
    have ih := @getElem?_nextLevel r i node (by simpa using h)
    have hhalf : (i + 2) / 2 = i / 2 + 1 := by omega
    rw [step?_add_two, hhalf, nextLevel, List.getElem?_cons_succ, ih]

/-! ### The way up -/

/-- The levels that are passed on the way from the leaf at index `i` to the root, each with the index of the own
node. -/
def ascent (leaves : List Digest) (i : Nat) : List (List Digest × Nat) :=
  if leaves.length ≤ 1 then [] else (leaves, i) :: ascent (nextLevel leaves) (i / 2)
termination_by leaves.length
decreasing_by simp [length_nextLevel]; omega

theorem path_of_lt {leaves : List Digest} (h : 1 < leaves.length) (i : Nat) :
    path leaves i = (step? leaves i).toList ++ path (nextLevel leaves) (i / 2) := by
  rw [path, if_neg (by omega), step?, siblingIndex]
  dsimp only
  split
  · next s hs => rw [hs]; rfl
  · next hs => rw [hs]; rfl

/-- The path is what the levels on the way contribute. -/
theorem path_eq_filterMap_ascent (leaves : List Digest) (i : Nat) :
    path leaves i = (ascent leaves i).filterMap fun v => step? v.1 v.2 := by
  induction leaves, i using ascent.induct with
  | case1 leaves i h => rw [path, ascent, if_pos h, if_pos h, List.filterMap_nil]
  | case2 leaves i h ih =>
    rw [path_of_lt (by omega), ascent, if_neg h, List.filterMap_cons, ih]
    cases step? leaves i <;> rfl

/-- **Climbing from a leaf** along its path ends at the root. -/
theorem root?_eq_foldl_path {leaves : List Digest} {i : Nat} {leaf : Digest} (h : leaves[i]? = some leaf) :
    root? leaves = some ((path leaves i).foldl Proof.climb leaf) := by
  induction leaves using root?.induct generalizing i leaf with
  | case1 => simp at h
  | case2 x =>
    obtain ⟨rfl, rfl⟩ : i = 0 ∧ x = leaf := by simpa [List.getElem?_singleton] using h
    simp [root?, path]
  | case3 x y r ih =>
    have hlength : 1 < (x :: y :: r).length := by simp
    rw [root?, path_of_lt hlength, List.foldl_append]
    exact ih (getElem?_nextLevel h)

/-! ### Lengths and indices -/

/-- Every level halves the number of nodes, rounded up. -/
theorem length_ascent (leaves : List Digest) (i : Nat) : (ascent leaves i).length = Nat.clog 2 leaves.length := by
  induction leaves, i using ascent.induct with
  | case1 leaves i h => rw [ascent, if_pos h, List.length_nil, Nat.clog_of_right_le_one h]
  | case2 leaves i h ih =>
    have hhalf : Nat.clog 2 leaves.length = Nat.clog 2 ((leaves.length + 1) / 2) + 1 :=
      Nat.clog_of_two_le (by decide) (by omega)
    rw [ascent, if_neg h, List.length_cons, ih, length_nextLevel, hhalf]

theorem length_path_le (leaves : List Digest) (i : Nat) : (path leaves i).length ≤ Nat.clog 2 leaves.length := by
  rw [path_eq_filterMap_ascent, ← length_ascent leaves i]
  exact List.length_filterMap_le _ _

/-- The indices that are used at a level: the own one is in range, the one before it is there for a right node, and
the sibling's is in range unless the own node is the odd last one. -/
structure InBounds (level : List Digest) (i : Nat) : Prop where
  own : i < level.length
  before : i % 2 = 1 → 1 ≤ i
  sibling : siblingIndex i < level.length ∨ i % 2 = 0 ∧ i + 1 = level.length

theorem inBounds_of_lt {level : List Digest} {i : Nat} (h : i < level.length) : InBounds level i where
  own := h
  before hodd := by omega
  sibling := by
    unfold siblingIndex
    simp only [beq_iff_eq]
    split_ifs <;> omega

/-- **Every index on the way up is in range.** -/
theorem inBounds_of_mem_ascent {leaves : List Digest} {i : Nat} (h : i < leaves.length) :
    ∀ v ∈ ascent leaves i, InBounds v.1 v.2 := by
  induction leaves, i using ascent.induct with
  | case1 leaves i hshort => simp [ascent, hshort]
  | case2 leaves i hlong ih =>
    rw [ascent, if_neg hlong]
    intro v hv
    rcases List.mem_cons.mp hv with rfl | hv
    · exact inBounds_of_lt h
    · exact ih (by rw [length_nextLevel]; omega) v hv

namespace Proof

/-! ### Genuine proofs -/

variable {leaves : List Digest} {i : Nat} {leaf root : Digest}

theorem length_siblings_ofIndex : (ofIndex leaves i leaf).siblings.length = (path leaves i).length := by
  simp [ofIndex]

theorem length_pathBits_ofIndex : (ofIndex leaves i leaf).pathBits.length = (path leaves i).length := by
  simp [ofIndex]

theorem zip_ofIndex : (ofIndex leaves i leaf).siblings.zip (ofIndex leaves i leaf).pathBits = path leaves i := by
  simp [ofIndex, List.zip_map']

theorem verify_iff {p : Proof} : p.verify root = true ↔
    p.siblings.length = p.pathBits.length ∧ (p.siblings.zip p.pathBits).foldl climb p.leaf = root := by
  simp [verify]

/-- The proof for a leaf leads to the root. -/
theorem verify_ofIndex (hleaf : leaves[i]? = some leaf) (hroot : root? leaves = some root) :
    (ofIndex leaves i leaf).verify root = true := by
  have hclimb := Option.some.inj (hroot.symm.trans (root?_eq_foldl_path hleaf))
  rw [verify_iff, zip_ofIndex, length_siblings_ofIndex, length_pathBits_ofIndex]
  exact ⟨rfl, hclimb.symm⟩

/-! ### What a proof binds -/

/-- The bytes that are hashed for the node above `node` and a sibling. -/
def pairBytes (node : Digest) (step : Digest × Bool) : Bytes :=
  if step.2 then node.bytes ++ step.1.bytes else step.1.bytes ++ node.bytes

/-- The pairs that are hashed on a climb, from `node` up. -/
def climbPairs (node : Digest) : List (Digest × Bool) → List Bytes
  | [] => []
  | step :: steps => pairBytes node step :: climbPairs (climb node step) steps

/-- The pairs that are hashed to verify the proof, from the leaf up. -/
def pairs (p : Proof) : List Bytes := climbPairs p.leaf (p.siblings.zip p.pathBits)

theorem length_pairBytes (node : Digest) (step : Digest × Bool) : (pairBytes node step).length = 40 := by
  unfold pairBytes
  split_ifs
  · rw [List.length_append, node.length_eq, step.1.length_eq]
  · rw [List.length_append, step.1.length_eq, node.length_eq]

theorem length_of_mem_climbPairs : ∀ {steps : List (Digest × Bool)} {node : Digest} {m : Bytes},
    m ∈ climbPairs node steps → m.length = 40
  | step :: _, node, m, h => by
    rcases List.mem_cons.mp h with rfl | h
    · exact length_pairBytes node step
    · exact length_of_mem_climbPairs h

theorem climb_eq_of_pairBytes (node : Digest) (step : Digest × Bool) :
    climb node step = Digest.of (pairBytes node step) := by
  unfold climb pairBytes
  split_ifs <;> rfl

/-- The pair tells the node and the sibling, once it is known which side the node is on. -/
theorem pairBytes_inj {a b s t : Digest} {isLeft : Bool} (h : pairBytes a (s, isLeft) = pairBytes b (t, isLeft)) :
    a = b ∧ s = t := by
  cases isLeft with
  | true => exact Digest.append_bytes_inj h
  | false => exact (Digest.append_bytes_inj h).symm

/-- **Two climbs** with the same sides to the same node are the same, unless somewhere on the way they hash
different pairs to the same digest. -/
theorem foldl_climb_eq_or_collision : ∀ {steps steps' : List (Digest × Bool)} {a b : Digest},
    steps.map Prod.snd = steps'.map Prod.snd → steps.foldl climb a = steps'.foldl climb b →
      (a = b ∧ steps = steps') ∨ CollidesWith (climbPairs a steps) (climbPairs b steps')
  | [], [], _, _, _, h => Or.inl ⟨h, rfl⟩
  | (s, isLeft) :: steps, (t, isLeft') :: steps', a, b, hsides, h => by
    obtain ⟨rfl, hrest⟩ : isLeft = isLeft' ∧ steps.map Prod.snd = steps'.map Prod.snd := by
      simpa using hsides
    -- Down from the root: the nodes above are the same, or the collision is higher up.
    rcases foldl_climb_eq_or_collision hrest h with ⟨habove, rfl⟩ | ⟨e, he, hcollides⟩
    · rw [climb_eq_of_pairBytes, climb_eq_of_pairBytes] at habove
      by_cases hpair : pairBytes a (s, isLeft) = pairBytes b (t, isLeft)
      · obtain ⟨rfl, rfl⟩ := pairBytes_inj hpair
        exact Or.inl ⟨rfl, rfl⟩
      · exact Or.inr ⟨_, List.mem_cons_self, hpair, habove⟩
    · exact Or.inr ⟨e, List.mem_cons_of_mem _ he, hcollides⟩

/-- At step `k` verifying the two proofs hashes different pairs, of forty bytes each, to the same digest. -/
def CollideAt (p q : Proof) (k : Nat) : Prop :=
  ∃ m n, p.pairs[k]? = some m ∧ q.pairs[k]? = some n ∧ m.length = 40 ∧ n.length = 40 ∧ m ≠ n ∧
    Digest.of m = Digest.of n

theorem exists_collideAt {p q : Proof} (h : CollidesWith p.pairs q.pairs) : ∃ k, CollideAt p q k := by
  obtain ⟨⟨m, n⟩, hmem, hcollides⟩ := h
  obtain ⟨k, hk⟩ := List.mem_iff_getElem?.mp hmem
  obtain ⟨hm, hn⟩ := List.getElem?_zip_eq_some.mp hk
  obtain ⟨hpm, hqn⟩ := List.of_mem_zip hmem
  exact ⟨k, m, n, hm, hn, length_of_mem_climbPairs hpm, length_of_mem_climbPairs hqn, hcollides⟩

/-- **A proof binds leaf and siblings**: a proof with the sides of the genuine one that leads to the root has its
leaf and its siblings, unless at some step verifying the two hashes different pairs to the same digest. -/
theorem eq_or_collision_of_verify {p : Proof} (hleaf : leaves[i]? = some leaf) (hroot : root? leaves = some root)
    (hsides : p.pathBits = (ofIndex leaves i leaf).pathBits) (hverify : p.verify root = true) :
    (p.leaf = leaf ∧ p.siblings = (ofIndex leaves i leaf).siblings) ∨ ∃ k, CollideAt p (ofIndex leaves i leaf) k := by
  obtain ⟨hlength, hclimb⟩ := verify_iff.mp hverify
  obtain ⟨hlength', hclimb'⟩ := verify_iff.mp (verify_ofIndex hleaf hroot)
  have hsnd : (p.siblings.zip p.pathBits).map Prod.snd =
      ((ofIndex leaves i leaf).siblings.zip (ofIndex leaves i leaf).pathBits).map Prod.snd := by
    rw [List.map_snd_zip hlength.ge, List.map_snd_zip hlength'.ge, hsides]
  rcases foldl_climb_eq_or_collision hsnd (hclimb.trans hclimb'.symm) with ⟨hstart, hsteps⟩ | hcollides
  · refine Or.inl ⟨hstart, ?_⟩
    have hfst := congrArg (List.map Prod.fst) hsteps
    rwa [List.map_fst_zip hlength.le, List.map_fst_zip hlength'.le] at hfst
  · exact Or.inr (exists_collideAt hcollides)

theorem root?_three (a b c : Digest) : root? [a, b, c] = some (Digest.ofPair (Digest.ofPair a b) c) := by
  simp [root?, nextLevel]

theorem ofIndex_second (a b c : Digest) : ofIndex [a, b, c] 1 b = ⟨b, [a, c], [false, true]⟩ := by
  simp [ofIndex, path, nextLevel]

/-- The second of three leaves, a right node at first and a left one above. -/
theorem eq_or_collision_of_verify_second :
    let a := Digest.of [0]
    let b := Digest.of [1]
    let c := Digest.of [2]
    let root := Digest.ofPair (Digest.ofPair a b) c
    let p : Proof := ⟨b, [a, c], [false, true]⟩
    [a, b, c][1]? = some b ∧ root? [a, b, c] = some root ∧ p.pathBits = (ofIndex [a, b, c] 1 b).pathBits ∧
      p.verify root = true ∧ ((p.leaf = b ∧ p.siblings = (ofIndex [a, b, c] 1 b).siblings) ∨
        ∃ k, CollideAt p (ofIndex [a, b, c] 1 b) k) := by
  intro a b c root p
  have hleaf : [a, b, c][1]? = some b := rfl
  have hroot := root?_three a b c
  have hsides : p.pathBits = (ofIndex [a, b, c] 1 b).pathBits := by rw [ofIndex_second]
  have hverify := verify_ofIndex hleaf hroot
  rw [ofIndex_second] at hverify
  exact ⟨hleaf, hroot, hsides, hverify, eq_or_collision_of_verify hleaf hroot hsides hverify⟩

end Proof

/-! ### Looking a leaf up -/

theorem prove?_eq_none_iff {leaves : List Digest} {leaf : Digest} : prove? leaves leaf = none ↔ leaf ∉ leaves := by
  rw [prove?, Option.map_eq_none_iff, List.idxOf?_eq_none_iff]

/-- A leaf is proved from where it stands first. -/
theorem exists_prove?_eq_ofIndex {leaves : List Digest} {leaf : Digest} (h : leaf ∈ leaves) :
    ∃ i, leaves[i]? = some leaf ∧ prove? leaves leaf = some (.ofIndex leaves i leaf) := by
  obtain ⟨i, hi⟩ := Option.isSome_iff_exists.mp (List.isSome_idxOf?.mpr h)
  obtain ⟨hlt, heq, -⟩ := List.idxOf?_eq_some_iff.mp hi
  exact ⟨i, List.getElem?_eq_some_iff.mpr ⟨hlt, heq⟩, by rw [prove?, hi, Option.map_some]⟩

end ReplicatedLedger.Merkle
