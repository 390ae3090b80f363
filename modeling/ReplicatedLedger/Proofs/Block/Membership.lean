import ReplicatedLedger.Proofs.Block.Commitment
import ReplicatedLedger.Proofs.Merkle.Path

/-! # Proofs for transactions

In a map in which every transaction stands under its own hash the leaves are the keys. So a proof is found for the
keys and for nothing else, and it does what a proof has to do (`ProvedBy`): this is `proves_exactly_keys`. -/

namespace ReplicatedLedger.TxMap

theorem Keyed.length_leaves {m : TxMap} (h : m.Keyed) : m.leaves.length = m.size := by
  rw [h.leaves_perm_keys.length_eq, SortedMap.length_keys]

theorem Keyed.checkedRoot_eq {m : TxMap} (h : m.Keyed) : m.checkedRoot = .ok m.root? := by
  rw [checkedRoot, checkedLeaves, if_pos h]
  rfl

theorem Keyed.prove?_eq {m : TxMap} (h : m.Keyed) (x : Digest) : m.prove? x = .ok (Merkle.prove? m.leaves x) := by
  rw [prove?, checkedLeaves, if_pos h]
  rfl

/-- The proof that is found for `x`, and what it has to do. -/
structure ProvedBy (m : TxMap) (x : Digest) (p : Merkle.Proof) : Prop where
  found : m.prove? x = .ok (some p)
  leaf_eq : p.leaf = x
  /-- It leads to the root of the map. -/
  verified : ∃ root, m.checkedRoot = .ok (some root) ∧ p.verify root = true
  /-- Every sibling has a side. -/
  length_eq : p.siblings.length = p.pathBits.length
  /-- There are at most as many as the binary logarithm of the number of transactions, rounded up. -/
  length_le : p.siblings.length ≤ Nat.clog 2 m.size
  /-- It is collected on the way up from a leaf that is `x`, and the indices used on this way are in range. -/
  collected : ∃ i, m.leaves[i]? = some x ∧
    p.siblings.zip p.pathBits = (Merkle.ascent m.leaves i).filterMap (fun v => Merkle.step? v.1 v.2) ∧
    ∀ v ∈ Merkle.ascent m.leaves i, Merkle.InBounds v.1 v.2

theorem Keyed.exists_provedBy {m : TxMap} (h : m.Keyed) {x : Digest} (hx : x ∈ m.keys) : ∃ p, ProvedBy m x p := by
  obtain ⟨i, hi, hp⟩ := Merkle.exists_prove?_eq_ofIndex (h.leaves_perm_keys.mem_iff.mpr hx)
  obtain ⟨hlt, -⟩ := List.getElem?_eq_some_iff.mp hi
  have hroot : m.root? = some ((Merkle.path m.leaves i).foldl Merkle.Proof.climb x) := Merkle.root?_eq_foldl_path hi
  refine ⟨.ofIndex m.leaves i x, ?_, rfl, ⟨_, ?_, Merkle.Proof.verify_ofIndex hi hroot⟩, ?_, ?_, i, hi, ?_, ?_⟩
  · rw [h.prove?_eq, hp]
  · rw [h.checkedRoot_eq, hroot]
  · rw [Merkle.Proof.length_siblings_ofIndex, Merkle.Proof.length_pathBits_ofIndex]
  · rw [Merkle.Proof.length_siblings_ofIndex, ← h.length_leaves]
    exact Merkle.length_path_le _ _
  · rw [Merkle.Proof.zip_ofIndex, Merkle.path_eq_filterMap_ascent]
  · exact Merkle.inBounds_of_mem_ascent hlt

/-- **Completeness of proofs.** In a map in which every transaction stands under its own hash, there is no proof for
what is no key, and for every key there is one that leads to the root. -/
theorem proves_exactly_keys {m : TxMap} (h : m.Keyed) (x : Digest) :
    (m.prove? x = .ok none ↔ x ∉ m.keys) ∧ (x ∈ m.keys → ∃ p, ProvedBy m x p) := by
  constructor
  · rw [h.prove?_eq, Except.ok.injEq, Merkle.prove?_eq_none_iff, h.leaves_perm_keys.mem_iff]
  · exact h.exists_provedBy

/-- A transaction without payload. -/
def blank (timestamp : Int64) : Transaction := .ofContent ⟨Transaction.currentVersion, timestamp, [], none⟩

theorem nodup_hash_blank : ([blank 0, blank 1, blank 2, blank 3].map (·.hash)).Nodup := by decide +kernel

/-- Three transactions, of which the leaf of the last one moves up alone, and a fourth one that is not among them. -/
theorem proves_exactly_keys_three :
    let m := ofTransactions [blank 0, blank 1, blank 2]
    m.Keyed ∧ (blank 2).hash ∈ m.keys ∧ (∃ p, ProvedBy m (blank 2).hash p) ∧
      (blank 3).hash ∉ m.keys ∧ m.prove? (blank 3).hash = .ok none := by
  intro m
  have hkeyed : m.Keyed := keyed_ofTransactions _
  obtain ⟨hthree, -, hfresh⟩ := List.nodup_append.mp
    (show ([blank 0, blank 1, blank 2].map (·.hash) ++ [(blank 3).hash]).Nodup from nodup_hash_blank)
  have hkeys := keys_ofTransactions_perm hthree
  have hin : (blank 2).hash ∈ m.keys := hkeys.mem_iff.mpr (by simp)
  have hout : (blank 3).hash ∉ m.keys := fun hmem =>
    hfresh _ (hkeys.mem_iff.mp hmem) _ (List.mem_singleton.mpr rfl) rfl
  exact ⟨hkeyed, hin, (proves_exactly_keys hkeyed _).2 hin, hout, (proves_exactly_keys hkeyed _).1.mpr hout⟩

end ReplicatedLedger.TxMap
