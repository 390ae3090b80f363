import ReplicatedLedger.Merkle
import Mathlib.Logic.Function.Iterate

/-! # Merkle roots and what they bind

The reduction of leaves to a root hashes pairs of digests, level by level (`pairs`). Leaves of one number
with the same root are the same, unless two different pairs in the same place have the same digest
(`eq_or_collision_of_length`), that is, at the same position of the same level (`exists_pairAt_of_collidesWith`). Leaves
of any number are the leaves of a binary tree with the same root
(`root?_eq_root_ofLeaves?`); trees with the same root and no collision among their pairs are equal, unless a leaf
of one stands where the other has an inner node, so that the leaf is the digest of a pair
(`eq_or_meets_of_root?_eq`). Leaves and inner nodes are hashed alike, and nothing rules that out. -/

namespace ReplicatedLedger

/-! ### Collisions -/

/-- No two different ones of the byte strings have the same digest. -/
def Digest.CollisionFree (ms : List Bytes) : Prop := ∀ x ∈ ms, ∀ y ∈ ms, Digest.of x = Digest.of y → x = y

instance (ms : List Bytes) : Decidable (Digest.CollisionFree ms) :=
  inferInstanceAs (Decidable (∀ x ∈ ms, ∀ y ∈ ms, Digest.of x = Digest.of y → x = y))

theorem Digest.CollisionFree.mono {ms ns : List Bytes} (h : CollisionFree ns) (hsub : ms ⊆ ns) :
    CollisionFree ms := fun x hx y hy => h x (hsub hx) y (hsub hy)

theorem Digest.CollisionFree.mono_append {ms ms' ns ns' : List Bytes} (h : CollisionFree (ms' ++ ns'))
    (hms : ms ⊆ ms') (hns : ns ⊆ ns') : CollisionFree (ms ++ ns) :=
  h.mono (List.append_subset.mpr
    ⟨List.Subset.trans hms (List.subset_append_left _ _), List.Subset.trans hns (List.subset_append_right _ _)⟩)

/-- Two digests have the same bytes as two others, one behind the other, only if they are the same. -/
theorem Digest.append_bytes_inj {a b c d : Digest} (h : a.bytes ++ b.bytes = c.bytes ++ d.bytes) :
    a = c ∧ b = d := by
  obtain ⟨hleft, hright⟩ := List.append_inj h (a.length_eq.trans c.length_eq.symm)
  exact ⟨Digest.ext hleft, Digest.ext hright⟩

namespace Merkle

/-! ### Pairs -/

/-- The pairs that are hashed for the level above. -/
def levelPairs : List Digest → List Bytes
  | a :: b :: r => (a.bytes ++ b.bytes) :: levelPairs r
  | _ => []

/-- The pairs that are hashed on the way to the root, level by level. -/
def pairs (leaves : List Digest) : List Bytes :=
  match leaves with
  | [] => []
  | [_] => []
  | x :: y :: r => levelPairs (x :: y :: r) ++ pairs (nextLevel (x :: y :: r))
termination_by leaves.length
decreasing_by simp [length_nextLevel]; omega

theorem length_levelPairs : ∀ l : List Digest, (levelPairs l).length = l.length / 2
  | [] => rfl
  | [_] => by simp [levelPairs]
  | _ :: _ :: r => by simp [levelPairs, length_levelPairs r]; omega

/-! ### Leaves of one number -/

/-- In the same place of the two lists there are different byte strings with the same digest. -/
def CollidesWith (ms ns : List Bytes) : Prop := ∃ e ∈ ms.zip ns, e.1 ≠ e.2 ∧ Digest.of e.1 = Digest.of e.2

theorem not_collidesWith {ms ns : List Bytes} (hfree : Digest.CollisionFree (ms ++ ns)) : ¬ CollidesWith ms ns := by
  rintro ⟨⟨x, y⟩, he, hne, heq⟩
  obtain ⟨hx, hy⟩ := List.of_mem_zip he
  exact hne (hfree x (List.mem_append_left ns hx) y (List.mem_append_right ms hy) heq)

theorem CollidesWith.append {ms ns ms' ns' : List Bytes} (hlen : ms.length = ns.length)
    (h : CollidesWith ms ns ∨ CollidesWith ms' ns') : CollidesWith (ms ++ ms') (ns ++ ns') := by
  unfold CollidesWith
  rw [List.zip_append hlen]
  rcases h with ⟨e, he, hcollides⟩ | ⟨e, he, hcollides⟩
  · exact ⟨e, List.mem_append_left _ he, hcollides⟩
  · exact ⟨e, List.mem_append_right _ he, hcollides⟩

/-- A level of one length binds the level below. -/
theorem eq_or_collision_of_nextLevel_eq : ∀ {l m : List Digest}, l.length = m.length → nextLevel l = nextLevel m →
    l = m ∨ CollidesWith (levelPairs l) (levelPairs m)
  | [], [], _, _ => Or.inl rfl
  | [_], [_], _, h => Or.inl h
  | a :: b :: l, c :: d :: m, hlen, h => by
    obtain ⟨hpair, hrest⟩ := List.cons.inj h
    by_cases hbytes : a.bytes ++ b.bytes = c.bytes ++ d.bytes
    · obtain ⟨rfl, rfl⟩ := Digest.append_bytes_inj hbytes
      rcases eq_or_collision_of_nextLevel_eq (by simpa using hlen) hrest with rfl | ⟨e, he, hcollides⟩
      · exact Or.inl rfl
      · exact Or.inr ⟨e, List.mem_cons_of_mem _ he, hcollides⟩
    · exact Or.inr ⟨_, List.mem_cons_self, hbytes, hpair⟩

/-- **Leaves of one number** with the same root are the same, unless two different pairs in the same place
have the same digest. -/
theorem eq_or_collision_of_length {l m : List Digest} (hlen : l.length = m.length) (h : root? l = root? m) :
    l = m ∨ CollidesWith (pairs l) (pairs m) := by
  induction l using pairs.induct generalizing m with
  | case1 => exact Or.inl (List.eq_nil_of_length_eq_zero hlen.symm).symm
  | case2 x =>
    obtain ⟨y, rfl⟩ := List.length_eq_one_iff.mp hlen.symm
    rw [root?, root?] at h
    exact Or.inl (congrArg (fun d => [d]) (Option.some.inj h))
  | case3 x y r ih =>
    rcases m with _ | ⟨x', _ | ⟨y', r'⟩⟩
    · cases hlen
    · cases hlen
    · rw [root?, root?] at h
      rw [pairs, pairs]
      have hnext : (nextLevel (x :: y :: r)).length = (nextLevel (x' :: y' :: r')).length := by
        rw [length_nextLevel, length_nextLevel, hlen]
      have hpairs : (levelPairs (x :: y :: r)).length = (levelPairs (x' :: y' :: r')).length := by
        rw [length_levelPairs, length_levelPairs, hlen]
      rcases ih hnext h with hsame | hcollides
      · rcases eq_or_collision_of_nextLevel_eq hlen hsame with heq | hcollides
        · exact Or.inl heq
        · exact Or.inr (.append hpairs (Or.inl hcollides))
      · exact Or.inr (.append hpairs (Or.inr hcollides))

/-! ### The place of a collision -/

/-- At level `k`, the leaves being level zero, `a` and `b` are the pair at position `j`. -/
def PairAt (leaves : List Digest) (k j : Nat) (a b : Digest) : Prop :=
  (nextLevel^[k] leaves)[2 * j]? = some a ∧ (nextLevel^[k] leaves)[2 * j + 1]? = some b

theorem PairAt.succ {leaves : List Digest} {k j : Nat} {a b : Digest} (h : PairAt (nextLevel leaves) k j a b) :
    PairAt leaves (k + 1) j a b := h

theorem exists_of_getElem?_levelPairs : ∀ {l : List Digest} {j : Nat} {bs : Bytes}, (levelPairs l)[j]? = some bs →
    ∃ a b, PairAt l 0 j a b ∧ bs = a.bytes ++ b.bytes
  | a :: b :: r, 0, bs, h => ⟨a, b, ⟨rfl, rfl⟩, by simpa [levelPairs] using h.symm⟩
  | _ :: _ :: r, j + 1, bs, h => exists_of_getElem?_levelPairs (l := r) (j := j) (by simpa [levelPairs] using h)

theorem pairs_of_lt : ∀ {l : List Digest}, 1 < l.length → pairs l = levelPairs l ++ pairs (nextLevel l)
  | x :: y :: r, _ => by rw [pairs]

/-- **The place of a collision** on the way from two sequences of one length to their roots: a level and a position
at which the pairs differ and their digests do not. -/
theorem exists_pairAt_of_collidesWith {l m : List Digest} (hlen : l.length = m.length)
    (h : CollidesWith (pairs l) (pairs m)) :
    ∃ k j a b c d, PairAt l k j a b ∧ PairAt m k j c d ∧ (a, b) ≠ (c, d) ∧ Digest.ofPair a b = Digest.ofPair c d := by
  induction l using pairs.induct generalizing m with
  | case1 => simp [pairs, CollidesWith] at h
  | case2 x => simp [pairs, CollidesWith] at h
  | case3 x y r ih =>
    have hlong : 1 < (x :: y :: r).length := by simp
    have hpairs : (levelPairs (x :: y :: r)).length = (levelPairs m).length := by
      rw [length_levelPairs, length_levelPairs, hlen]
    have hlong' : 1 < m.length := hlen ▸ hlong
    rw [pairs_of_lt hlong, pairs_of_lt hlong'] at h
    obtain ⟨⟨bs, bs'⟩, he, hne, heq⟩ := h
    rw [List.zip_append hpairs] at he
    rcases List.mem_append.mp he with hlevel | habove
    · obtain ⟨j, hj⟩ := List.mem_iff_getElem?.mp hlevel
      obtain ⟨hj, hj'⟩ := List.getElem?_zip_eq_some.mp hj
      obtain ⟨a, b, hab, rfl⟩ := exists_of_getElem?_levelPairs hj
      obtain ⟨c, d, hcd, rfl⟩ := exists_of_getElem?_levelPairs hj'
      refine ⟨0, j, a, b, c, d, hab, hcd, ?_, heq⟩
      rintro ⟨⟩
      exact hne rfl
    · have hnext : (nextLevel (x :: y :: r)).length = (nextLevel m).length := by
        rw [length_nextLevel, length_nextLevel, hlen]
      obtain ⟨k, j, a, b, c, d, hab, hcd, hcollides⟩ := ih hnext ⟨_, habove, hne, heq⟩
      exact ⟨k + 1, j, a, b, c, d, hab.succ, hcd.succ, hcollides⟩

/-- **A root binds the leaves** of one number: sequences of the same length with the same root are the same, unless
at some level and position their reductions hash two different pairs to the same digest. -/
theorem eq_or_collision_at_level {l m : List Digest} (hlen : l.length = m.length) (hroot : root? l = root? m) :
    l = m ∨ ∃ k j a b c d, PairAt l k j a b ∧ PairAt m k j c d ∧ (a, b) ≠ (c, d) ∧
      Digest.ofPair a b = Digest.ofPair c d := by
  rcases eq_or_collision_of_length hlen hroot with heq | hcollides
  · exact Or.inl heq
  · exact Or.inr (exists_pairAt_of_collidesWith hlen hcollides)

/-- Three leaves, of which the last one moves up alone. -/
theorem eq_or_collision_at_level_three :
    let l := [Digest.of [0], Digest.of [1], Digest.of [2]]
    let m := ([0, 1, 2] : Bytes).map fun b => Digest.of [b]
    l.length = m.length ∧ root? l = root? m ∧
      (l = m ∨ ∃ k j a b c d, PairAt l k j a b ∧ PairAt m k j c d ∧ (a, b) ≠ (c, d) ∧
        Digest.ofPair a b = Digest.ofPair c d) := by
  intro l m
  have hlen : l.length = m.length := rfl
  have hroot : root? l = root? m := rfl
  exact ⟨hlen, hroot, eq_or_collision_at_level hlen hroot⟩

/-! ### Trees -/

/-- A binary tree with digests at its leaves. -/
inductive Tree where
  | leaf (digest : Digest)
  | node (left right : Tree)

namespace Tree

/-- The digest of a tree. -/
def root : Tree → Digest
  | leaf d => d
  | node s t => Digest.ofPair s.root t.root

/-- The leaves, from left to right. -/
def leaves : Tree → List Digest
  | leaf d => [d]
  | node s t => s.leaves ++ t.leaves

/-- The pairs that are hashed for the root. -/
def pairs : Tree → List Bytes
  | leaf _ => []
  | node s t => (s.root.bytes ++ t.root.bytes) :: (s.pairs ++ t.pairs)

/-- Neighbours become one tree, and an odd last tree stays as it is. -/
def join : List Tree → List Tree
  | s :: t :: r => node s t :: join r
  | r => r

theorem length_join : ∀ ts : List Tree, (join ts).length = (ts.length + 1) / 2
  | [] => rfl
  | [_] => by simp [join]
  | _ :: _ :: r => by simp [join, length_join r]; omega

/-- The tree that is left when neighbours are joined again and again. -/
def ofForest? (ts : List Tree) : Option Tree :=
  match ts with
  | [] => none
  | [t] => some t
  | s :: t :: r => ofForest? (join (s :: t :: r))
termination_by ts.length
decreasing_by simp [length_join]; omega

/-- The tree over a sequence of leaves. -/
def ofLeaves? (l : List Digest) : Option Tree := ofForest? (l.map leaf)

/-! ### Levels of trees -/

theorem map_root_join : ∀ ts : List Tree, (join ts).map root = nextLevel (ts.map root)
  | [] => rfl
  | [_] => rfl
  | s :: t :: r => congrArg (Digest.ofPair s.root t.root :: ·) (map_root_join r)

theorem flatMap_leaves_join : ∀ ts : List Tree, (join ts).flatMap leaves = ts.flatMap leaves
  | [] => rfl
  | [_] => rfl
  | s :: t :: r => by simp [join, leaves, flatMap_leaves_join r]

theorem flatMap_pairs_join_subset :
    ∀ ts : List Tree, (join ts).flatMap pairs ⊆ levelPairs (ts.map root) ++ ts.flatMap pairs
  | [] => List.Subset.refl _
  | [_] => List.Subset.refl _
  | s :: t :: r => by
    have ih := flatMap_pairs_join_subset r
    intro p hp
    simp only [join, List.flatMap_cons, pairs, List.cons_append, List.mem_cons, List.mem_append] at hp
    simp only [List.map_cons, levelPairs, List.flatMap_cons, List.cons_append, List.mem_cons, List.mem_append]
    rcases hp with rfl | (hs | ht) | hr
    · exact Or.inl rfl
    · exact Or.inr (Or.inr (Or.inl hs))
    · exact Or.inr (Or.inr (Or.inr (Or.inl ht)))
    · rcases List.mem_append.mp (ih hr) with hlevel | hbelow
      · exact Or.inr (Or.inl hlevel)
      · exact Or.inr (Or.inr (Or.inr (Or.inr hbelow)))

/-- Joining trees is reducing their roots. -/
theorem root?_map_root (ts : List Tree) : root? (ts.map root) = (ofForest? ts).map root := by
  induction ts using ofForest?.induct with
  | case1 => simp [ofForest?, root?]
  | case2 t => simp [ofForest?, root?]
  | case3 s t r ih =>
    rw [ofForest?, ← ih, map_root_join]
    exact Merkle.root?.eq_3 _ _ _

/-- The tree has the leaves of the forest, and hashes its pairs and those of the levels above. -/
theorem leaves_ofForest? {ts : List Tree} {t : Tree} (h : ofForest? ts = some t) :
    t.leaves = ts.flatMap leaves ∧ t.pairs ⊆ Merkle.pairs (ts.map root) ++ ts.flatMap pairs := by
  induction ts using ofForest?.induct with
  | case1 => rw [ofForest?] at h; cases h
  | case2 s => rw [ofForest?] at h; cases h; simp [Merkle.pairs]
  | case3 s s' r ih =>
    rw [ofForest?] at h
    obtain ⟨hleaves, hpairs⟩ := ih h
    refine ⟨hleaves.trans (flatMap_leaves_join _), fun p hp => ?_⟩
    have hlevels : Merkle.pairs ((s :: s' :: r).map root) =
        levelPairs ((s :: s' :: r).map root) ++ Merkle.pairs ((join (s :: s' :: r)).map root) := by
      rw [map_root_join]
      exact Merkle.pairs.eq_3 _ _ _
    rw [hlevels, List.append_assoc]
    rcases List.mem_append.mp (hpairs hp) with habove | hjoined
    · exact List.mem_append_right _ (List.mem_append_left _ habove)
    · rcases List.mem_append.mp (flatMap_pairs_join_subset _ hjoined) with hlevel | hbelow
      · exact List.mem_append_left _ hlevel
      · exact List.mem_append_right _ (List.mem_append_right _ hbelow)

end Tree

/-! ### Trees with one root -/

/-- One of the digests is that of one of the byte strings. -/
def Meets (ds : List Digest) (ms : List Bytes) : Prop := ∃ m ∈ ms, Digest.of m ∈ ds

theorem Meets.mono {ds es : List Digest} {ms ns : List Bytes} (h : Meets ds ms) (hds : ds ⊆ es) (hms : ms ⊆ ns) :
    Meets es ns := by
  obtain ⟨m, hm, hd⟩ := h
  exact ⟨m, hms hm, hds hd⟩

/-- **Trees with the same root** are the same, unless a leaf of one is the digest of a pair of the other. -/
theorem Tree.eq_or_meets {s t : Tree} (hroot : s.root = t.root)
    (hfree : Digest.CollisionFree (s.pairs ++ t.pairs)) :
    s = t ∨ Meets s.leaves t.pairs ∨ Meets t.leaves s.pairs := by
  induction s generalizing t with
  | leaf d =>
    cases t with
    | leaf e => exact Or.inl (congrArg leaf hroot)
    | node t u => exact Or.inr (Or.inl ⟨_, List.mem_cons_self, List.mem_singleton.mpr hroot.symm⟩)
  | node s s' ih ih' =>
    cases t with
    | leaf e => exact Or.inr (Or.inr ⟨_, List.mem_cons_self, List.mem_singleton.mpr hroot⟩)
    | node t t' =>
      have hbytes := hfree _ (List.mem_append_left _ List.mem_cons_self) _
        (List.mem_append_right _ List.mem_cons_self) hroot
      obtain ⟨hleft, hright⟩ := Digest.append_bytes_inj hbytes
      have hs : s.pairs ⊆ (node s s').pairs := fun p hp => List.mem_cons_of_mem _ (List.mem_append_left _ hp)
      have hs' : s'.pairs ⊆ (node s s').pairs := fun p hp => List.mem_cons_of_mem _ (List.mem_append_right _ hp)
      have ht : t.pairs ⊆ (node t t').pairs := fun p hp => List.mem_cons_of_mem _ (List.mem_append_left _ hp)
      have ht' : t'.pairs ⊆ (node t t').pairs := fun p hp => List.mem_cons_of_mem _ (List.mem_append_right _ hp)
      rcases ih hleft (hfree.mono_append hs ht) with rfl | hmeets | hmeets
      · rcases ih' hright (hfree.mono_append hs' ht') with rfl | hmeets | hmeets
        · exact Or.inl rfl
        · exact Or.inr (Or.inl (hmeets.mono (List.subset_append_right _ _) ht'))
        · exact Or.inr (Or.inr (hmeets.mono (List.subset_append_right _ _) hs'))
      · exact Or.inr (Or.inl (hmeets.mono (List.subset_append_left _ _) ht))
      · exact Or.inr (Or.inr (hmeets.mono (List.subset_append_left _ _) hs))

/-- Only no leaves have no root. -/
theorem root?_eq_none_iff {l : List Digest} : root? l = none ↔ l = [] := by
  induction l using root?.induct with
  | case1 => simp [root?]
  | case2 x => simp [root?]
  | case3 x y r ih =>
    rw [root?, ih]
    simp [nextLevel]

/-- A root is that of the tree over the leaves. -/
theorem root?_eq_root_ofLeaves? (l : List Digest) : root? l = (Tree.ofLeaves? l).map Tree.root := by
  have hroots : (l.map Tree.leaf).map Tree.root = l := by simp [Tree.root, Function.comp_def]
  rw [Tree.ofLeaves?, ← Tree.root?_map_root, hroots]

theorem leaves_ofLeaves? {l : List Digest} {t : Tree} (h : Tree.ofLeaves? l = some t) :
    t.leaves = l ∧ t.pairs ⊆ pairs l := by
  obtain ⟨hleaves, hpairs⟩ := Tree.leaves_ofForest? h
  have hroots : (l.map Tree.leaf).map Tree.root = l := by simp [Tree.root, Function.comp_def]
  have hforest : (l.map Tree.leaf).flatMap Tree.leaves = l := by
    simp [List.flatMap_map, Tree.leaves]
  have hnone : (l.map Tree.leaf).flatMap Tree.pairs = [] := by
    simp [List.flatMap_map, Tree.pairs]
  rw [hroots, hnone, List.append_nil] at hpairs
  exact ⟨hleaves.trans hforest, hpairs⟩

/-- **Leaves with the same root** and no collision among their pairs are the same, unless a leaf on one side
is the digest of a pair of the other. -/
theorem eq_or_meets_of_root?_eq {l m : List Digest} (h : root? l = root? m)
    (hfree : Digest.CollisionFree (pairs l ++ pairs m)) : l = m ∨ Meets l (pairs m) ∨ Meets m (pairs l) := by
  cases hroot : root? l with
  | none => exact Or.inl ((root?_eq_none_iff.mp hroot).trans (root?_eq_none_iff.mp (h ▸ hroot)).symm)
  | some d =>
    obtain ⟨s, hs, hsd⟩ := Option.map_eq_some_iff.mp ((root?_eq_root_ofLeaves? l).symm.trans hroot)
    obtain ⟨t, ht, htd⟩ := Option.map_eq_some_iff.mp ((root?_eq_root_ofLeaves? m).symm.trans (h ▸ hroot))
    obtain ⟨rfl, hsp⟩ := leaves_ofLeaves? hs
    obtain ⟨rfl, htp⟩ := leaves_ofLeaves? ht
    rcases Tree.eq_or_meets (hsd.trans htd.symm) (hfree.mono_append hsp htp) with heq | hmeets | hmeets
    · exact Or.inl (congrArg Tree.leaves heq)
    · exact Or.inr (Or.inl (hmeets.mono (List.Subset.refl _) htp))
    · exact Or.inr (Or.inr (hmeets.mono (List.Subset.refl _) hsp))

end Merkle

end ReplicatedLedger
