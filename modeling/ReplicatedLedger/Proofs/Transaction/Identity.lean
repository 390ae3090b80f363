import ReplicatedLedger.Proofs.Codec.Transaction
import ReplicatedLedger.Proofs.Maps
import ReplicatedLedger.Proofs.Merkle.Tree
import ReplicatedLedger.Proofs.Pool
import ReplicatedLedger.Block.Basic

/-! # What the hash of a transaction identifies

The identity bytes of a transaction are its fields without separators, so they do not say where the version
or the payload ends, nor whether there is a signature. That is the `shape` of a transaction; identity bytes and
shape together are the transaction (`ext_identity`), and the bytes alone are those of another one too
(`exists_ne_identity_eq`). Unless two identity bytes collide, a hash stands for identity bytes, for transactions
as for the blocks and the pools that tell them apart by their hashes (`hash_identifies_bytes`). Transactions of
different shapes can share them (`exists_same_hash`). -/

namespace ReplicatedLedger

/-! ### Cutting identity bytes -/

namespace Transaction

/-- How the identity bytes are cut: the lengths of version and payload, and whether there is a signature. -/
def Content.shape (c : Content) : Nat × Nat × Bool :=
  (c.version.utf8ByteSize, c.payload.length, c.signature.isSome)

theorem ofText_injective {s t : String} (h : Bytes.ofText s = Bytes.ofText t) : s = t := by
  have htext := congrArg Bytes.toText? h
  rw [Wire.toText?_ofText, Wire.toText?_ofText] at htext
  exact Option.some.inj htext

theorem i64_injective {t u : Int64} (h : Wire.i64 t = Wire.i64 u) : t = u := by
  have hread : Except.ok (t, []) = Except.ok (u, []) :=
    (Wire.reads_i64 t []).symm.trans ((congrArg (fun d => Wire.readI64 (d ++ [])) h).trans (Wire.reads_i64 u []))
  exact congrArg Prod.fst (Except.ok.inj hread)

/-- Identity bytes that are cut alike are those of one content. -/
theorem Content.ext_identity {c d : Content} (h : c.identity = d.identity) (hshape : c.shape = d.shape) : c = d := by
  obtain ⟨version, timestamp, payload, signature⟩ := c
  obtain ⟨version', timestamp', payload', signature'⟩ := d
  obtain ⟨hversion, hrest⟩ := Prod.mk.inj hshape
  obtain ⟨hpayload, hsigned⟩ := Prod.mk.inj hrest
  simp only at hversion hpayload hsigned
  have hlength : (Bytes.ofText version).length = (Bytes.ofText version').length := by
    rw [Wire.length_ofText, Wire.length_ofText, hversion]
  -- The signature is what is left behind fields of known lengths, from the back to the front.
  obtain ⟨hfront, hsignature⟩ := List.append_inj h (by simp [hlength, hpayload])
  obtain ⟨hfront, rfl⟩ := List.append_inj hfront (by simp [hlength])
  obtain ⟨htext, hdigits⟩ := List.append_inj hfront hlength
  obtain rfl := ofText_injective htext
  obtain rfl := i64_injective hdigits
  cases signature with
  | none =>
    cases signature' with
    | none => rfl
    | some s => cases hsigned
  | some s =>
    cases signature' with
    | none => cases hsigned
    | some s' =>
      obtain rfl : s = s' := hsignature
      rfl

theorem ext_identity {s t : Transaction} (h : s.identity = t.identity) (hshape : s.shape = t.shape) : s = t :=
  ext_content (Content.ext_identity h hshape)

/-- Nothing in the identity bytes says whether they end in a signature, so every transaction shares its own. -/
theorem exists_ne_identity_eq (t : Transaction) : ∃ s : Transaction, s ≠ t ∧ s.identity = t.identity := by
  cases hsignature : t.signature with
  | none =>
    refine ⟨.ofContent { t.toContent with signature := some [] }, fun heq => ?_, ?_⟩
    · rw [← heq] at hsignature
      cases hsignature
    · simp [ofContent, Content.identity, hsignature]
  | some g =>
    refine ⟨.ofContent { t.toContent with payload := t.payload ++ g, signature := none }, fun heq => ?_, ?_⟩
    · rw [← heq] at hsignature
      cases hsignature
    · simp [ofContent, Content.identity, hsignature]

theorem eq_iff_shape {s t : Transaction} (h : s.identity = t.identity) : s = t ↔ s.shape = t.shape :=
  ⟨fun heq => heq ▸ rfl, ext_identity h⟩

theorem hash_eq_of_identity {s t : Transaction} (h : s.identity = t.identity) : s.hash = t.hash := by
  rw [s.hash_eq, t.hash_eq, h]

theorem identity_eq {ms : List Bytes} (hfree : Digest.CollisionFree ms) {s t : Transaction}
    (hs : s.identity ∈ ms) (ht : t.identity ∈ ms) (h : s.hash = t.hash) : s.identity = t.identity := by
  rw [s.hash_eq, t.hash_eq] at h
  exact hfree _ hs _ ht h

end Transaction

/-! ### Blocks -/

namespace Block

/-- The identity bytes of the transactions. -/
def identities (b : Block) : List Bytes := b.txs.values.map (·.identity)

/-- Transactions with different hashes make a block. -/
theorem ofList_of_nodup (previous : Option Digest) (height : UInt64) {ts : List Transaction} (timestamp : Int64)
    (nonce : Bytes) (version : String) (h : (ts.map (·.hash)).Nodup) (hsize : ts.length < UInt32.size) :
    ∃ b, ofList previous height ts timestamp nonce version = .ok b ∧ b.txs = .ofTransactions ts ∧
      b.header = ⟨previous, version, timestamp, nonce, (TxMap.ofTransactions ts).root?⟩ := by
  have hlength : (TxMap.ofTransactions ts).size = ts.length := by
    rw [← SortedMap.length_keys, (TxMap.keys_ofTransactions_perm h).length_eq, List.length_map]
  have hfits : (TxMap.ofTransactions ts).size < UInt32.size := hlength ▸ hsize
  refine ⟨⟨_, height, .ofTransactions ts, _, TxMap.keyed_ofTransactions ts, hfits, rfl, rfl⟩, ?_, rfl, rfl⟩
  rw [ofList, if_neg (fun hne => hne hlength), assemble, dif_pos hfits]

theorem keys_eq_map_identities (b : Block) : b.txs.keys = b.identities.map Digest.of := by
  rw [← b.keyed.map_hash_values, identities, List.map_map]
  exact List.map_congr_left fun t _ => t.hash_eq

theorem identities_subset {a b : Block} (hfree : Digest.CollisionFree (a.identities ++ b.identities))
    (h : a.txs.keys ⊆ b.txs.keys) : a.identities ⊆ b.identities := by
  intro m hm
  rw [keys_eq_map_identities, keys_eq_map_identities] at h
  obtain ⟨n, hn, hhash⟩ := List.mem_map.mp (h (List.mem_map_of_mem hm))
  have hsame : n = m := hfree n (List.mem_append_right _ hn) m (List.mem_append_left _ hm) hhash
  exact hsame ▸ hn

/-- Blocks whose identity bytes do not collide hold the same hashes exactly if they hold the same identity
bytes. -/
theorem keys_eq_iff_identities {a b : Block} (hfree : Digest.CollisionFree (a.identities ++ b.identities)) :
    a.txs.keys = b.txs.keys ↔ ∀ m, m ∈ a.identities ↔ m ∈ b.identities := by
  constructor
  · intro h m
    have hfree' : Digest.CollisionFree (b.identities ++ a.identities) :=
      hfree.mono (List.append_subset.mpr ⟨List.subset_append_right _ _, List.subset_append_left _ _⟩)
    exact ⟨fun hm => identities_subset hfree (h ▸ List.Subset.refl _) hm,
      fun hm => identities_subset hfree' (h ▸ List.Subset.refl _) hm⟩
  · intro h
    rw [SortedMap.keys_eq_iff, keys_eq_map_identities, keys_eq_map_identities]
    intro k
    rw [List.mem_map, List.mem_map]
    simp only [h]

/-- Blocks with the same hashes hold the same transactions, if the ones with the same identity bytes are cut
alike. -/
theorem txs_eq_of_shape {a b : Block} (hfree : Digest.CollisionFree (a.identities ++ b.identities))
    (hkeys : a.txs.keys = b.txs.keys)
    (hshape : ∀ s ∈ a.txs.values, ∀ t ∈ b.txs.values, s.identity = t.identity → s.shape = t.shape) :
    a.txs = b.txs := by
  have hmem := (keys_eq_iff_identities hfree).mp hkeys
  have hvalues : ∀ t, t ∈ a.txs.values ↔ t ∈ b.txs.values := by
    intro t
    constructor
    · intro ht
      obtain ⟨s, hs, hst⟩ := List.mem_map.mp ((hmem _).mp (List.mem_map_of_mem ht))
      exact Transaction.ext_identity hst (hshape t ht s hs hst.symm).symm ▸ hs
    · intro ht
      obtain ⟨s, hs, hst⟩ := List.mem_map.mp ((hmem _).mpr (List.mem_map_of_mem ht))
      exact Transaction.ext_identity hst (hshape s hs t ht hst) ▸ hs
  refine SortedMap.ext_get? fun k => Option.ext fun t => ?_
  rw [a.keyed.get?_eq_some_iff, b.keyed.get?_eq_some_iff, hvalues]

end Block

/-! ### Pools -/

namespace Pool

/-- A transaction is refused if its hash is pending, and queued last otherwise. -/
theorem add_cases {p : Pool} (t : Transaction) :
    p.contains t.hash = true ∧ p.add t = (.error (.inconsistent 1 0), p) ∨
      p.contains t.hash = false ∧ (p.add t).1 = .ok () ∧ (p.add t).2.queue = p.queue ++ [t] := by
  cases hin : p.contains t.hash with
  | true =>
    have hpush : p.push t = p := if_pos hin
    exact Or.inl ⟨rfl, by simp [add, addBatch, pushAll, hpush, Except.map]⟩
  | false =>
    have hpush : p.push t = ⟨p.queue ++ [t], p.index.insert t.hash⟩ := if_neg (Bool.eq_false_iff.mp hin)
    exact Or.inr ⟨rfl, by simp [add, addBatch, pushAll, hpush, size, Except.map],
      by simp [add, addBatch, pushAll, hpush]⟩

/-- Among transactions whose identity bytes do not collide those with the bytes of a pending one are refused, and
no others. -/
theorem add_eq_of_collisionFree {p : Pool} (hp : p.Reachable) (t : Transaction)
    (hfree : Digest.CollisionFree (t.identity :: p.queue.map (·.identity))) :
    p.add t = (.error (.inconsistent 1 0), p) ∧ (∃ s ∈ p.queue, s.identity = t.identity) ∨
      (p.add t).1 = .ok () ∧ (p.add t).2.queue = p.queue ++ [t] ∧ ∀ s ∈ p.queue, s.identity ≠ t.identity := by
  have hindex := hp.consistent.contains_iff t.hash
  rcases add_cases (p := p) t with ⟨hin, hadd⟩ | ⟨hout, hok, hqueue⟩
  · obtain ⟨s, hs, hhash⟩ := List.mem_map.mp (hindex.mp hin)
    have hpending : s.identity ∈ t.identity :: p.queue.map (·.identity) :=
      List.mem_cons_of_mem _ (List.mem_map_of_mem hs)
    exact Or.inl ⟨hadd, s, hs, Transaction.identity_eq hfree hpending List.mem_cons_self hhash⟩
  · refine Or.inr ⟨hok, hqueue, fun s hs hsame => ?_⟩
    have hin := hindex.mpr (List.mem_map.mpr ⟨s, hs, Transaction.hash_eq_of_identity hsame⟩)
    exact Bool.false_ne_true (hout.symm.trans hin)

end Pool

/-! ### What hashes tell apart -/

namespace Transaction

/-- **A hash identifies identity bytes.** Without collisions transactions of the same hash have the same identity
bytes, and are equal exactly if these are cut alike; blocks are told to have the same transactions exactly if
they hold the same identity bytes, and then have equal ones exactly if all that are shared are cut alike; a pool
refuses exactly the transactions with the identity bytes of a pending one. -/
theorem hash_identifies_bytes :
    (∀ s t : Transaction, s.hash = t.hash → Digest.CollisionFree [s.identity, t.identity] →
      s.identity = t.identity ∧ (s = t ↔ s.shape = t.shape)) ∧
    (∀ a b : Block, Digest.CollisionFree (a.identities ++ b.identities) →
      (a.sameTransactions b = true ↔ ∀ m, m ∈ a.identities ↔ m ∈ b.identities) ∧
      (a.txs = b.txs ↔ a.sameTransactions b = true ∧
        ∀ s ∈ a.txs.values, ∀ t ∈ b.txs.values, s.identity = t.identity → s.shape = t.shape)) ∧
    (∀ p : Pool, p.Reachable → ∀ t : Transaction,
      Digest.CollisionFree (t.identity :: p.queue.map (·.identity)) →
      p.add t = (.error (.inconsistent 1 0), p) ∧
        (∃ s ∈ p.queue, s.identity = t.identity ∧ (s = t ↔ s.shape = t.shape)) ∨
      (p.add t).1 = .ok () ∧ (p.add t).2.queue = p.queue ++ [t] ∧
        ∀ s ∈ p.queue, s.identity ≠ t.identity) := by
  refine ⟨fun s t hhash hfree => ?_, fun a b hfree => ⟨?_, ?_, ?_⟩, fun p hp t hfree => ?_⟩
  · have hsame := identity_eq hfree List.mem_cons_self (List.mem_cons_of_mem _ List.mem_cons_self) hhash
    exact ⟨hsame, eq_iff_shape hsame⟩
  · rw [Block.sameTransactions, beq_iff_eq]
    exact Block.keys_eq_iff_identities hfree
  · intro htxs
    rw [Block.sameTransactions, beq_iff_eq]
    refine ⟨congrArg SortedMap.keys htxs, fun s hs t ht hsame => ?_⟩
    -- Both stand under their hash in the one map.
    have hs' := a.keyed.get?_eq_some_iff.mpr ⟨hs, rfl⟩
    have ht' := b.keyed.get?_eq_some_iff.mpr ⟨ht, (hash_eq_of_identity hsame).symm⟩
    rw [htxs] at hs'
    rw [Option.some.inj (hs'.symm.trans ht')]
  · rintro ⟨hkeys, hshape⟩
    exact Block.txs_eq_of_shape hfree (beq_iff_eq.mp hkeys) hshape
  · rcases Pool.add_eq_of_collisionFree hp t hfree with ⟨hadd, s, hs, hsame⟩ | haccepted
    · exact Or.inl ⟨hadd, s, hs, hsame, eq_iff_shape hsame⟩
    · exact Or.inr haccepted

/-- An unsigned transaction whose payload ends in the signature of `signedShort`. -/
def unsignedLong : Transaction := .ofContent ⟨currentVersion, 0, Bytes.ofText "ab", none⟩

/-- A signed transaction with the identity bytes of `unsignedLong`. -/
def signedShort : Transaction := .ofContent ⟨currentVersion, 0, Bytes.ofText "a", some (Bytes.ofText "b")⟩

/-- A pool in which `unsignedLong` is pending. -/
def pending : Pool := (Pool.empty.addBatch [unsignedLong]).2

theorem hash_unsignedLong : unsignedLong.hash = signedShort.hash := hash_eq_of_identity rfl

theorem collisionFree_pair (m : Bytes) : Digest.CollisionFree [m, m] := by simp [Digest.CollisionFree]

theorem reachable_pending : pending.Reachable := .addBatch .empty _

theorem queue_pending : pending.queue = [unsignedLong] := by
  simp [pending, Pool.addBatch, Pool.pushAll, Pool.push, Pool.empty]

/-- Beside a pending `unsignedLong` the pool refuses `signedShort`, which is not pending but has the same bytes,
and takes the transaction of the first block, which has others. -/
theorem hash_identifies_bytes_pending :
    (unsignedLong.identity = signedShort.identity ∧
      (unsignedLong = signedShort ↔ unsignedLong.shape = signedShort.shape)) ∧
    (Block.genesis.sameTransactions Block.genesis = true ↔
      ∀ m, m ∈ Block.genesis.identities ↔ m ∈ Block.genesis.identities) ∧
    pending.add signedShort = (.error (.inconsistent 1 0), pending) ∧
    (pending.add Block.genesisTransaction).2.queue = [unsignedLong, Block.genesisTransaction] := by
  have hpair := hash_identifies_bytes.1 unsignedLong signedShort hash_unsignedLong (collisionFree_pair _)
  have hblocks := hash_identifies_bytes.2.1 Block.genesis Block.genesis
    (collisionFree_pair Block.genesisTransaction.identity)
  have hrefused := hash_identifies_bytes.2.2 _ reachable_pending signedShort
    (by rw [queue_pending]; exact collisionFree_pair unsignedLong.identity)
  have htaken := hash_identifies_bytes.2.2 _ reachable_pending Block.genesisTransaction
    (by rw [queue_pending]; decide +kernel)
  rw [queue_pending] at hrefused htaken
  refine ⟨hpair, hblocks.1, ?_, ?_⟩
  · rcases hrefused with ⟨hadd, -⟩ | ⟨-, -, hnone⟩
    · exact hadd
    · exact absurd hpair.1 (hnone _ List.mem_cons_self)
  · rcases htaken with ⟨-, s, hs, hsame, -⟩ | ⟨-, hqueue, -⟩
    · rw [List.mem_singleton.mp hs] at hsame
      exact absurd hsame (by decide)
    · exact hqueue

/-- **A hash does not identify a transaction.** Both transactions can be built and read under the default limit,
their hash is the same without a collision, the blocks that hold one of them each are told to hold the same
transactions, and a pool in which one is pending refuses the other. -/
theorem exists_same_hash :
    bounded unsignedLong.toContent defaultMaxSize = .ok unsignedLong ∧
    bounded signedShort.toContent defaultMaxSize = .ok signedShort ∧
    decode signedShort.encode defaultMaxSize = .ok signedShort ∧
    Digest.CollisionFree [unsignedLong.identity, signedShort.identity] ∧
    unsignedLong.hash = signedShort.hash ∧ unsignedLong ≠ signedShort ∧
    (∃ a b, Block.ofList none 1 [unsignedLong] 0 [] currentVersion = .ok a ∧
      Block.ofList none 1 [signedShort] 0 [] currentVersion = .ok b ∧
      a.sameTransactions b = true ∧ a.txs ≠ b.txs) ∧
    pending.add signedShort = (.error (.inconsistent 1 0), pending) ∧ signedShort ∉ pending.queue := by
  have hne : unsignedLong ≠ signedShort := by decide
  have hone : 1 < UInt32.size := by decide
  have hkeys : ∀ t : Transaction, (TxMap.ofTransactions [t]).keys = [t.hash] := fun _ => rfl
  have hvalues : ∀ t : Transaction, (TxMap.ofTransactions [t]).values = [t] := fun _ => rfl
  have hnodup : ∀ t : Transaction, ([t].map (·.hash)).Nodup := fun _ => List.nodup_singleton _
  obtain ⟨a, ha, hatxs, -⟩ := Block.ofList_of_nodup none 1 0 [] currentVersion (hnodup unsignedLong) hone
  obtain ⟨b, hb, hbtxs, -⟩ := Block.ofList_of_nodup none 1 0 [] currentVersion (hnodup signedShort) hone
  have hrefused := Pool.add_eq_of_collisionFree reachable_pending signedShort
    (by rw [queue_pending]; exact collisionFree_pair unsignedLong.identity)
  refine ⟨bounded_of_size_le (by decide), bounded_of_size_le (by decide), decode_encode (by decide) (by decide),
    collisionFree_pair unsignedLong.identity, hash_unsignedLong, hne, ⟨a, b, ha, hb, ?_, ?_⟩, ?_, ?_⟩
  · rw [Block.sameTransactions, hatxs, hbtxs, hkeys, hkeys, hash_unsignedLong, beq_self_eq_true]
  · intro heq
    have hsame := congrArg SortedMap.values heq
    rw [hatxs, hbtxs, hvalues, hvalues] at hsame
    exact hne (List.cons.inj hsame).1
  · rcases hrefused with ⟨hadd, -⟩ | ⟨-, -, hnone⟩
    · exact hadd
    · exact absurd rfl (hnone unsignedLong (by rw [queue_pending]; exact List.mem_cons_self))
  · rw [queue_pending, List.mem_singleton]
    exact hne.symm

end Transaction

end ReplicatedLedger
