import ReplicatedLedger.Proofs.Codec.Block
import ReplicatedLedger.Proofs.Transaction.Identity

/-! # What a header commits to

A header holds the Merkle root over the hashes of the transactions, but not their number. Blocks with the same
header hold the same hashes, if nothing that is hashed for them collides, unless one holds more transactions
than the other and a transaction of one has a pair of the other's tree for its identity bytes
(`keys_eq_or_confused`). Such a transaction is easily made: beside every block with two or more transactions
there is one with the same header and a single transaction (`exists_forged`). -/

namespace ReplicatedLedger

/-! ### Leaves -/

namespace Transaction.OrderKey

theorem le_iff {a b : OrderKey} : le a b = true ↔ a.1 < b.1 ∨ a.1 = b.1 ∧ a.2 ≤ b.2 := by simp [le]

theorem le_trans {a b c : OrderKey} (h : le a b = true) (h' : le b c = true) : le a c = true := by
  rw [le_iff] at *
  rcases h with hlt | ⟨heq, hle⟩
  · rcases h' with hlt' | ⟨heq', -⟩
    · exact Or.inl (Std.lt_trans hlt hlt')
    · exact Or.inl (heq' ▸ hlt)
  · rcases h' with hlt' | ⟨heq', hle'⟩
    · exact Or.inl (heq ▸ hlt')
    · exact Or.inr ⟨heq.trans heq', Std.le_trans hle hle'⟩

theorem le_total (a b : OrderKey) : (le a b || le b a) = true := by
  rw [Bool.or_eq_true, le_iff, le_iff]
  rcases Std.lt_trichotomy a.1 b.1 with hlt | heq | hgt
  · exact Or.inl (Or.inl hlt)
  · rcases Std.le_total (a := a.2) (b := b.2) with hle | hge
    · exact Or.inl (Or.inr ⟨heq, hle⟩)
    · exact Or.inr (Or.inr ⟨heq.symm, hge⟩)
  · exact Or.inr (Or.inl hgt)

theorem le_antisymm {a b : OrderKey} (h : le a b = true) (h' : le b a = true) : a = b := by
  rw [le_iff] at *
  rcases h with hlt | ⟨heq, hle⟩
  · rcases h' with hlt' | ⟨heq', -⟩
    · exact absurd (Std.lt_trans hlt hlt') Std.lt_irrefl
    · exact absurd (heq' ▸ hlt) Std.lt_irrefl
  · rcases h' with hlt' | ⟨-, hle'⟩
    · exact absurd (heq ▸ hlt') Std.lt_irrefl
    · exact Prod.ext heq (Std.le_antisymm hle hle')

theorem pairwise_mergeSort (l : List Transaction.OrderKey) :
    (l.mergeSort le).Pairwise fun a b => le a b = true := by
  refine List.pairwise_mergeSort (fun a b c h h' => ?_) (fun a b => ?_) l
  · exact le_trans h h'
  · exact le_total a b

end Transaction.OrderKey

namespace TxMap

theorem leaves_perm (m : TxMap) : m.leaves.Perm (m.values.map (·.hash)) := by
  have hsorted := (List.mergeSort_perm (m.values.map Transaction.orderKey) Transaction.OrderKey.le).map Prod.snd
  rw [List.map_map] at hsorted
  exact hsorted

theorem Keyed.leaves_perm_keys {m : TxMap} (h : m.Keyed) : m.leaves.Perm m.keys := h.map_hash_values ▸ m.leaves_perm

/-- Transactions that are in order already are the leaves in their order. -/
theorem leaves_ofTransactions {ts : List Transaction} (h : (ts.map (·.hash)).Nodup)
    (hsorted : ts.Pairwise fun s t => Transaction.OrderKey.le s.orderKey t.orderKey = true) :
    (ofTransactions ts).leaves = ts.map (·.hash) := by
  have hperm := (List.mergeSort_perm ((ofTransactions ts).values.map Transaction.orderKey)
    Transaction.OrderKey.le).trans ((values_ofTransactions_perm h).map _)
  have hkeys : (ts.map Transaction.orderKey).Pairwise fun a b => Transaction.OrderKey.le a b = true :=
    List.pairwise_map.mpr hsorted
  have heq := hperm.eq_of_pairwise (fun _ _ _ _ => Transaction.OrderKey.le_antisymm)
    (Transaction.OrderKey.pairwise_mergeSort _) hkeys
  rw [leaves, heq, List.map_map]
  exact List.map_congr_left fun _ _ => rfl

end TxMap

/-! ### Roots -/

theorem TxMap.root?_singleton (t : Transaction) : (ofTransactions [t]).root? = some t.hash := by
  have hvalues : (ofTransactions [t]).values = [t] := rfl
  rw [root?, leaves, hvalues, List.map_singleton, List.mergeSort_singleton, List.map_singleton, Merkle.root?]
  rfl

/-- A root over two or more leaves is the digest of a pair. -/
theorem Merkle.exists_pair_of_root? {l : List Digest} {d : Digest} (h : root? l = some d) (hlen : 2 ≤ l.length) :
    ∃ m ∈ pairs l, Digest.of m = d := by
  induction l using pairs.induct with
  | case1 => simp at hlen
  | case2 x => simp at hlen
  | case3 x y r ih =>
    rw [root?] at h
    rw [pairs]
    cases r with
    | nil =>
      have htop : nextLevel [x, y] = [Digest.ofPair x y] := rfl
      rw [htop, root?] at h
      exact ⟨_, List.mem_append_left _ List.mem_cons_self, Option.some.inj h⟩
    | cons z r =>
      have hnext : 2 ≤ (nextLevel (x :: y :: z :: r)).length := by
        rw [length_nextLevel]
        simp only [List.length_cons]
        omega
      obtain ⟨m, hm, hd⟩ := ih h hnext
      exact ⟨m, List.mem_append_right _ hm, hd⟩

theorem Merkle.length_of_mem_levelPairs : ∀ {l : List Digest} {m : Bytes}, m ∈ levelPairs l → m.length = 40
  | a :: b :: _, m, h => by
    rcases List.mem_cons.mp h with rfl | h
    · rw [List.length_append, a.length_eq, b.length_eq]
    · exact length_of_mem_levelPairs h

theorem Merkle.length_of_mem_pairs {l : List Digest} {m : Bytes} (h : m ∈ pairs l) : m.length = 40 := by
  induction l using pairs.induct with
  | case1 => simp [pairs] at h
  | case2 x => simp [pairs] at h
  | case3 x y r ih =>
    rw [pairs] at h
    rcases List.mem_append.mp h with hlevel | habove
    · exact length_of_mem_levelPairs hlevel
    · exact ih habove

namespace Block

/-- The pairs that are hashed for the root. -/
def pairs (b : Block) : List Bytes := Merkle.pairs b.txs.leaves

/-- What is hashed when the block is built. -/
def hashed (b : Block) : List Bytes := b.identities ++ b.pairs ++ [b.header.data]

theorem identities_subset_hashed (b : Block) : b.identities ⊆ b.hashed :=
  List.Subset.trans (List.subset_append_left _ _) (List.subset_append_left _ _)

theorem pairs_subset_hashed (b : Block) : b.pairs ⊆ b.hashed :=
  List.Subset.trans (List.subset_append_right _ _) (List.subset_append_left _ _)

theorem leaves_perm_keys (b : Block) : b.txs.leaves.Perm b.txs.keys := b.keyed.leaves_perm_keys

theorem keys_eq_of_leaves_eq {a b : Block} (h : a.txs.leaves = b.txs.leaves) : a.txs.keys = b.txs.keys := by
  rw [SortedMap.keys_eq_iff]
  intro k
  rw [← a.leaves_perm_keys.mem_iff, h, b.leaves_perm_keys.mem_iff]

/-- A leaf that is the digest of a pair is that of a transaction with the pair for its identity bytes. -/
theorem exists_identity_of_meets {a b : Block} (hfree : Digest.CollisionFree (a.identities ++ b.pairs))
    (h : Merkle.Meets a.txs.leaves b.pairs) : ∃ m ∈ a.identities, m ∈ b.pairs := by
  obtain ⟨m, hm, hleaf⟩ := h
  rw [a.leaves_perm_keys.mem_iff, keys_eq_map_identities, List.mem_map] at hleaf
  obtain ⟨n, hn, hsame⟩ := hleaf
  obtain rfl := hfree n (List.mem_append_left _ hn) m (List.mem_append_right _ hm) hsame
  exact ⟨n, hn, hm⟩

/-- **A header commits to the hashes of the transactions**, if nothing that is hashed for the blocks collides:
blocks with the same header hold the same hashes, unless they hold different numbers of transactions and a
transaction of one has a pair of the other's tree for its identity bytes. -/
theorem keys_eq_or_confused {a b : Block} (hheader : a.header = b.header)
    (hfree : Digest.CollisionFree (a.hashed ++ b.hashed)) :
    a.txs.keys = b.txs.keys ∨
      a.count ≠ b.count ∧ ((∃ m ∈ a.identities, m ∈ b.pairs) ∨ ∃ m ∈ b.identities, m ∈ a.pairs) := by
  have hroot : Merkle.root? a.txs.leaves = Merkle.root? b.txs.leaves :=
    a.root_eq.symm.trans ((congrArg Header.root hheader).trans b.root_eq)
  have hpairs : Digest.CollisionFree (a.pairs ++ b.pairs) :=
    hfree.mono_append a.pairs_subset_hashed b.pairs_subset_hashed
  by_cases hcount : a.count = b.count
  · have hlen : a.txs.leaves.length = b.txs.leaves.length := by
      rw [a.leaves_perm_keys.length_eq, b.leaves_perm_keys.length_eq, SortedMap.length_keys,
        SortedMap.length_keys, ← toNat_count, ← toNat_count, hcount]
    rcases Merkle.eq_or_collision_of_length hlen hroot with hsame | hcollides
    · exact Or.inl (keys_eq_of_leaves_eq hsame)
    · exact absurd hcollides (Merkle.not_collidesWith hpairs)
  · rcases Merkle.eq_or_meets_of_root?_eq hroot hpairs with hsame | hmeets | hmeets
    · exact Or.inl (keys_eq_of_leaves_eq hsame)
    · have hfree' := hfree.mono_append a.identities_subset_hashed b.pairs_subset_hashed
      exact Or.inr ⟨hcount, Or.inl (exists_identity_of_meets hfree' hmeets)⟩
    · have hfree' : Digest.CollisionFree (b.identities ++ a.pairs) :=
        hfree.mono (List.append_subset.mpr
          ⟨List.Subset.trans b.identities_subset_hashed (List.subset_append_right _ _),
            List.Subset.trans a.pairs_subset_hashed (List.subset_append_left _ _)⟩)
      exact Or.inr ⟨hcount, Or.inr (exists_identity_of_meets hfree' hmeets)⟩

end Block

/-! ### Blocks with a forged transaction -/

/-- The transaction whose identity bytes are the given ones: an empty version, eight bytes of timestamp, and the
rest for the payload. -/
def Transaction.forge (m : Bytes) : Transaction :=
  .ofContent ⟨"", (Bytes.toNat (m.take 8)).toUInt64.toInt64, m.drop 8, none⟩

theorem Transaction.identity_forge {m : Bytes} (h : 8 ≤ m.length) : (forge m).identity = m := by
  have hdigits := Bytes.bigEndian_toNat (m.take 8)
  rw [List.length_take, Nat.min_eq_left h] at hdigits
  have hword : (Bytes.toNat (m.take 8)).toUInt64.toNat = Bytes.toNat (m.take 8) := by
    have hread := Bytes.toNat_bigEndian 8 (Bytes.toNat (m.take 8))
    have hsize : 1 <<< (8 * 8) = UInt64.size := rfl
    rw [hdigits, hsize] at hread
    rw [Nat.toUInt64_eq, UInt64.toNat_ofNat']
    exact hread.symm
  have hempty : Bytes.ofText "" = [] := rfl
  simp only [forge, ofContent, Content.identity, UInt64.toUInt64_toInt64, hword, hdigits, hempty,
    Option.getD_none, List.nil_append, List.append_nil, List.take_append_drop]

namespace Block

/-- **A header does not commit to the number of transactions**: beside every block with two or more there is one,
of any height, with the same header, and so with the same hash, that holds a single transaction. -/
theorem exists_forged {a : Block} (h : 2 ≤ a.txs.size) (height : UInt64) :
    ∃ m ∈ a.pairs, ∃ b, ofList a.header.previous height [.forge m] a.header.timestamp a.header.nonce
      a.header.version = .ok b ∧ b.header = a.header ∧ b.identities = [m] := by
  have hlen : 2 ≤ a.txs.leaves.length := by rwa [a.leaves_perm_keys.length_eq, SortedMap.length_keys]
  cases hroot : Merkle.root? a.txs.leaves with
  | none =>
    rw [Merkle.root?_eq_none_iff.mp hroot] at hlen
    exact absurd hlen (by decide)
  | some d =>
    obtain ⟨m, hm, hd⟩ := Merkle.exists_pair_of_root? hroot hlen
    have hidentity : (Transaction.forge m).identity = m :=
      Transaction.identity_forge (by rw [Merkle.length_of_mem_pairs hm]; decide)
    have hnodup : ([Transaction.forge m].map (·.hash)).Nodup := List.nodup_singleton _
    have hone : 1 < UInt32.size := by decide
    obtain ⟨b, hb, htxs, hheader⟩ := ofList_of_nodup a.header.previous height a.header.timestamp
      a.header.nonce a.header.version hnodup hone
    have hleaf : (TxMap.ofTransactions [.forge m]).root? = some d := by
      rw [TxMap.root?_singleton, Transaction.hash_eq, hidentity, hd]
    refine ⟨m, hm, b, hb, ?_, ?_⟩
    · rw [hheader, hleaf, ← hroot]
      exact congrArg (fun r => { a.header with root := r }) a.root_eq.symm
    · rw [identities, htxs]
      exact congrArg (fun n => [n]) hidentity

/-! ### Two transactions and one -/

/-- What is hashed for the block over two transactions with the given identity bytes, the earlier one first. -/
def hashedForTwo (m n : Bytes) : List Bytes :=
  [m, n, (Digest.of m).bytes ++ (Digest.of n).bytes,
    Header.data ⟨none, Transaction.currentVersion, 0, [], some (Digest.ofPair (Digest.of m) (Digest.of n))⟩]

theorem ofList_two {s t : Transaction} (hne : s.hash ≠ t.hash) (htime : s.timestamp < t.timestamp) :
    ∃ b, ofList none 1 [s, t] 0 [] Transaction.currentVersion = .ok b ∧ b.txs.size = 2 ∧
      b.header = ⟨none, Transaction.currentVersion, 0, [], some (Digest.ofPair s.hash t.hash)⟩ ∧
      b.pairs = [s.hash.bytes ++ t.hash.bytes] ∧ b.hashed ⊆ hashedForTwo s.identity t.identity := by
  have hnodup : ([s, t].map (·.hash)).Nodup := by simpa using hne
  have htwo : 2 < UInt32.size := by decide
  obtain ⟨b, hb, htxs, hheader⟩ := ofList_of_nodup none 1 0 [] Transaction.currentVersion hnodup htwo
  have hleaves : b.txs.leaves = [s.hash, t.hash] := by
    rw [htxs]
    refine TxMap.leaves_ofTransactions hnodup ?_
    rw [List.pairwise_pair, Transaction.OrderKey.le_iff]
    exact Or.inl htime
  have hpairs : b.pairs = [s.hash.bytes ++ t.hash.bytes] := by
    have htop : Merkle.nextLevel [s.hash, t.hash] = [Digest.ofPair s.hash t.hash] := rfl
    rw [pairs, hleaves, Merkle.pairs, htop, Merkle.pairs]
    rfl
  have hroot : (TxMap.ofTransactions [s, t]).root? = some (Digest.ofPair s.hash t.hash) := by
    have htop : Merkle.nextLevel [s.hash, t.hash] = [Digest.ofPair s.hash t.hash] := rfl
    rw [← htxs, TxMap.root?, hleaves, Merkle.root?, htop, Merkle.root?]
  have hsize : b.txs.size = 2 := by rw [← SortedMap.length_keys, ← b.leaves_perm_keys.length_eq, hleaves]; rfl
  rw [hroot] at hheader
  refine ⟨b, hb, hsize, hheader, hpairs, fun m hm => ?_⟩
  rw [hashedForTwo, ← s.hash_eq, ← t.hash_eq]
  rcases List.mem_append.mp hm with hm | hdata
  · rcases List.mem_append.mp hm with hidentity | hpair
    · obtain ⟨u, hu, rfl⟩ := List.mem_map.mp hidentity
      have hmem : u ∈ [s, t] := (TxMap.values_ofTransactions_perm hnodup).mem_iff.mp (htxs ▸ hu)
      rcases List.mem_pair.mp hmem with rfl | rfl
      · exact List.mem_cons_self
      · exact List.mem_cons_of_mem _ List.mem_cons_self
    · rw [hpairs] at hpair
      rw [List.mem_singleton.mp hpair]
      exact List.mem_cons_of_mem _ (List.mem_cons_of_mem _ List.mem_cons_self)
  · rw [hheader] at hdata
    rw [List.mem_singleton.mp hdata]
    exact List.mem_cons_of_mem _ (List.mem_cons_of_mem _ (List.mem_cons_of_mem _ List.mem_cons_self))

theorem collisionFree_hashedForTwo : Digest.CollisionFree
    (hashedForTwo Transaction.unsignedLong.identity genesisTransaction.identity) := by decide +kernel

theorem hash_unsignedLong_ne : Transaction.unsignedLong.hash ≠ genesisTransaction.hash := by decide +kernel

open Transaction in
/-- Blocks with the same header that differ in a signature hold the same hashes. -/
theorem keys_eq_of_signedShort :
    ∃ a b, ofList none 1 [unsignedLong, genesisTransaction] 0 [] currentVersion = .ok a ∧
      ofList none 1 [signedShort, genesisTransaction] 0 [] currentVersion = .ok b ∧
      a.header = b.header ∧ Digest.CollisionFree (a.hashed ++ b.hashed) ∧ a.txs.keys = b.txs.keys := by
  have hne : signedShort.hash ≠ genesisTransaction.hash := by
    rw [← hash_unsignedLong]
    exact hash_unsignedLong_ne
  obtain ⟨a, ha, hasize, haheader, -, hahashed⟩ := ofList_two hash_unsignedLong_ne (by decide)
  obtain ⟨b, hb, hbsize, hbheader, -, hbhashed⟩ := ofList_two hne (by decide)
  have hheader : a.header = b.header := by rw [haheader, hbheader, hash_unsignedLong]
  have hfree := collisionFree_hashedForTwo.mono (List.append_subset.mpr ⟨hahashed, hbhashed⟩)
  refine ⟨a, b, ha, hb, hheader, hfree, ?_⟩
  rcases keys_eq_or_confused hheader hfree with hkeys | ⟨hcount, -⟩
  · exact hkeys
  · exact absurd (by rw [count, count, hasize, hbsize]) hcount

open Transaction in
/-- **Blocks with the same header can hold different hashes**: the one over two transactions, and the one over the
transaction that is forged from their pair. Nothing that is hashed for them collides. -/
theorem exists_same_header :
    ∃ a b, ofList none 1 [unsignedLong, genesisTransaction] 0 [] currentVersion = .ok a ∧
      ofList none 1 [forge (unsignedLong.hash.bytes ++ genesisTransaction.hash.bytes)] 0 [] currentVersion = .ok b ∧
      a.header = b.header ∧ a.hash = b.hash ∧ Digest.CollisionFree (a.hashed ++ b.hashed) ∧
      a.txs.keys ≠ b.txs.keys := by
  obtain ⟨a, ha, hsize, hheader, hpairs, hhashed⟩ := ofList_two hash_unsignedLong_ne (by decide)
  obtain ⟨m, hm, b, hb, hsame, hidentities⟩ := exists_forged (Nat.le_of_eq hsize.symm) 1
  rw [hpairs] at hm
  obtain rfl := List.mem_singleton.mp hm
  have hkeys : b.txs.keys.length = 1 := by rw [keys_eq_map_identities, hidentities]; rfl
  have hnone : b.pairs = [] := by
    obtain ⟨d, hd⟩ := List.length_eq_one_iff.mp (b.leaves_perm_keys.length_eq.trans hkeys)
    rw [pairs, hd, Merkle.pairs]
  have hsubset : b.hashed ⊆ a.hashed := by
    rw [hashed, hidentities, hnone, hsame, hashed, hpairs, List.append_nil, List.append_assoc]
    exact List.subset_append_right _ _
  refine ⟨a, b, ha, ?_, hsame.symm, ?_, ?_, ?_⟩
  · rw [hheader] at hb
    exact hb
  · rw [a.hash_eq, b.hash_eq, hsame]
  · exact collisionFree_hashedForTwo.mono (List.append_subset.mpr ⟨hhashed, List.Subset.trans hsubset hhashed⟩)
  · intro heq
    rw [← heq, SortedMap.length_keys, hsize] at hkeys
    exact absurd hkeys (by decide)

end Block

end ReplicatedLedger
