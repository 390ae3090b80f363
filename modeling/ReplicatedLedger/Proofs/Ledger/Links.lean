import ReplicatedLedger.Proofs.Block.Commitment
import ReplicatedLedger.Proofs.Ledger.Window
import ReplicatedLedger.Proofs.Ledger.Search

/-! # Links between blocks

The data of a header are its fields without separators, so they do not say where the version ends, nor whether
there are a parent and a root. That is the `shape` of a header; data and shape together are the header
(`ext_data`). A block names its parent by the hash of the parent's data, and a chain is valid when the blocks at
all neighbouring heights are linked so (`isChainValid_iff_linkedAt`). Unless data collide, a link therefore
stands for the parent's data (`hash_identifies_data`). It does not stand for the parent: blocks with another
parent hash, another nonce and another root can take its place (`exists_link_to_others`). -/

namespace ReplicatedLedger

/-! ### Cutting header data -/

namespace Header

/-- How the data of a header are cut: the length of the version, and whether there are a parent and a root. -/
def shape (h : Header) : Nat × Bool × Bool := (h.version.utf8ByteSize, h.previous.isSome, h.root.isSome)

/-- A digest has bytes, so that they tell whether it is there. -/
theorem optional_injective {d e : Option Digest} (h : (d.map Digest.bytes).getD [] = (e.map Digest.bytes).getD []) :
    d = e := by
  have hlength := congrArg List.length h
  rw [Wire.length_optional, Wire.length_optional] at hlength
  match d, e with
  | none, none => rfl
  | some d, some e => exact congrArg some (Digest.ext h)
  | none, some e => cases hlength
  | some d, none => cases hlength

/-- Data that are cut alike are those of one header. -/
theorem ext_data {g h : Header} (hdata : g.data = h.data) (hshape : g.shape = h.shape) : g = h := by
  obtain ⟨previous, version, timestamp, nonce, root⟩ := g
  obtain ⟨previous', version', timestamp', nonce', root'⟩ := h
  obtain ⟨hversion, hrest⟩ := Prod.mk.inj hshape
  obtain ⟨hprevious, hroot⟩ := Prod.mk.inj hrest
  simp only at hversion hprevious hroot
  have hlength : (Bytes.ofText version).length = (Bytes.ofText version').length := by
    rw [Wire.length_ofText, Wire.length_ofText, hversion]
  -- The nonce is what is left between a front and a root of known lengths.
  obtain ⟨hfront, hbytes⟩ := List.append_inj' hdata (by rw [Wire.length_optional, Wire.length_optional, hroot])
  obtain ⟨hfront, rfl⟩ := List.append_inj hfront
    (by simp [Wire.length_optional, hlength, hprevious])
  obtain ⟨hfront, hparent⟩ := List.append_inj' hfront (by rw [Wire.length_optional, Wire.length_optional, hprevious])
  obtain ⟨htext, hdigits⟩ := List.append_inj hfront hlength
  obtain rfl := Transaction.ofText_injective htext
  obtain rfl := Transaction.i64_injective hdigits
  obtain rfl := optional_injective hparent
  obtain rfl := optional_injective hbytes
  rfl

theorem eq_iff_shape {g h : Header} (hdata : g.data = h.data) : g = h ↔ g.shape = h.shape :=
  ⟨fun heq => heq ▸ rfl, ext_data hdata⟩

theorem data_eq {g h : Header} (hfree : Digest.CollisionFree [g.data, h.data]) (hhash : g.hash = h.hash) :
    g.data = h.data :=
  hfree _ List.mem_cons_self _ (List.mem_cons_of_mem _ List.mem_cons_self) hhash

end Header

/-! ### Neighbouring heights -/

/-- The blocks at a height and at the next one are there, and the upper one names the lower one as its parent. -/
def LinkedAt (blocks : UInt64 → Option Block) (height : UInt64) : Prop :=
  ∃ parent child, blocks height = some parent ∧ blocks (height + 1) = some child ∧
    child.header.previous = some parent.hash

theorem linkedAt_congr {blocks blocks' : UInt64 → Option Block} {height : UInt64}
    (h : blocks height = blocks' height) (h' : blocks (height + 1) = blocks' (height + 1)) :
    LinkedAt blocks height ↔ LinkedAt blocks' height := by
  unfold LinkedAt
  rw [h, h']

theorem toNat_add_one {height top : UInt64} (h : height < top) : (height + 1).toNat = height.toNat + 1 := by
  have hlt := UInt64.lt_iff_toNat_lt.mp h
  have hbound := top.toNat_lt
  rw [UInt64.toNat_add, UInt64.toNat_one]
  omega

theorem add_one_le_iff {height k top : UInt64} (h : height < top) : height + 1 ≤ k ↔ height < k := by
  rw [UInt64.le_iff_toNat_le, UInt64.lt_iff_toNat_lt, toNat_add_one h]
  exact Nat.succ_le_iff

namespace Ledger

variable {l : Ledger}

theorem linkedFrom_iff_linkedAt {n : Nat} {b : Block} (hb : l.block? n.toUInt64 = some b) :
    l.linkedFrom n b = true ↔ ∀ k < n, LinkedAt l.block? k.toUInt64 := by
  induction n generalizing b with
  | zero => simp [linkedFrom]
  | succ n ih =>
    have hnext : (n + 1).toUInt64 = n.toUInt64 + 1 := by simp [Nat.toUInt64_eq]
    rw [hnext] at hb
    rw [linkedFrom]
    cases hparent : l.block? n.toUInt64 with
    | none =>
      refine iff_of_false Bool.false_ne_true fun hlinked => ?_
      obtain ⟨parent, -, hthere, -⟩ := hlinked n (Nat.lt_succ_self n)
      exact Option.some_ne_none _ (hthere.symm.trans hparent)
    | some parent =>
      rw [Bool.and_eq_true, beq_iff_eq, ih hparent]
      constructor
      · rintro ⟨hprevious, hbelow⟩ k hk
        rcases Nat.lt_succ_iff_lt_or_eq.mp hk with hlt | rfl
        · exact hbelow k hlt
        · exact ⟨parent, b, hparent, hb, hprevious⟩
      · intro hlinked
        refine ⟨?_, fun k hk => hlinked k (Nat.lt_succ_of_lt hk)⟩
        obtain ⟨parent', child, hthere, hchild, hprevious⟩ := hlinked n (Nat.lt_succ_self n)
        obtain rfl := Option.some.inj (hthere.symm.trans hparent)
        obtain rfl := Option.some.inj (hchild.symm.trans hb)
        exact hprevious

/-- **A chain is valid** when the blocks at all heights below the tip are linked to the next ones. -/
theorem isChainValid_iff_linkedAt : l.isChainValid = true ↔ ∀ height < l.tipHeight, LinkedAt l.block? height := by
  have htip : l.block? l.tipHeight.toNat.toUInt64 = some l.tip :=
    (congrArg l.block? UInt64.ofNat_toNat).trans l.block?_tipHeight
  rw [isChainValid, linkedFrom_iff_linkedAt htip]
  constructor
  · intro h height hlt
    have hheight : height.toNat.toUInt64 = height := UInt64.ofNat_toNat
    exact hheight ▸ h height.toNat (UInt64.lt_iff_toNat_lt.mp hlt)
  · intro h k hk
    exact h _ (UInt64.lt_iff_toNat_lt.mpr (by rwa [toNat_toUInt64_of_le (Nat.le_of_lt hk)]))

end Ledger

/-! ### What links tell apart -/

/-- **A hash identifies header data.** Without a collision headers of the same hash have the same data, and are
equal exactly if these are cut alike. So in a valid chain every block below the tip is named by the one above it,
and a block that this one names as well has its data, and its header exactly if these are cut alike. -/
theorem Header.hash_identifies_data :
    (∀ g h : Header, g.hash = h.hash → Digest.CollisionFree [g.data, h.data] →
      g.data = h.data ∧ (g = h ↔ g.shape = h.shape)) ∧
    ∀ l : Ledger, l.isChainValid = true → ∀ height < l.tipHeight,
      ∃ parent child, l.block? height = some parent ∧ l.block? (height + 1) = some child ∧
        child.header.previous = some parent.hash ∧
        ∀ b : Block, child.header.previous = some b.hash →
          Digest.CollisionFree [b.header.data, parent.header.data] →
          b.header.data = parent.header.data ∧
            (b.header = parent.header ↔ b.header.shape = parent.header.shape) := by
  have hheaders : ∀ g h : Header, g.hash = h.hash → Digest.CollisionFree [g.data, h.data] →
      g.data = h.data ∧ (g = h ↔ g.shape = h.shape) := fun g h hhash hfree =>
    ⟨data_eq hfree hhash, eq_iff_shape (data_eq hfree hhash)⟩
  refine ⟨hheaders, fun l hvalid height hlt => ?_⟩
  obtain ⟨parent, child, hparent, hchild, hprevious⟩ := Ledger.isChainValid_iff_linkedAt.mp hvalid height hlt
  refine ⟨parent, child, hparent, hchild, hprevious, fun b hb hfree => hheaders _ _ ?_ hfree⟩
  have hhash : b.hash = parent.hash := Option.some.inj (hb.symm.trans hprevious)
  rw [← b.hash_eq, ← parent.hash_eq, hhash]

namespace Block

/-- A block that carries at most one transaction. -/
def carrying (t : Option Transaction) (previous : Option Digest) (height : UInt64) (nonce : Bytes) : Block :=
  let txs := TxMap.ofTransactions t.toList
  let header : Header := ⟨previous, Transaction.currentVersion, 0, nonce, txs.root?⟩
  have hsize : txs.size < UInt32.size := by
    cases t with
    | none => decide
    | some t => exact (by decide : 1 < UInt32.size)
  ⟨header, height, txs, header.hash, TxMap.keyed_ofTransactions _, hsize, rfl, rfl⟩

/-- A block on the first one with one transaction. -/
def full : Block := carrying (some genesisTransaction) (some genesis.hash) 1 []

/-- A block on the first one without transactions, with the root of `full` for its nonce. -/
def hollow : Block := carrying none (some genesis.hash) 1 genesisTransaction.hash.bytes

/-- A block without parent and transactions, with the parent and the root of `full` for its nonce. -/
def rootless : Block := carrying none none 1 (genesis.hash.bytes ++ genesisTransaction.hash.bytes)

/-- A block that is built on `full`. -/
def above : Block := carrying none (some full.hash) 2 []

theorem root?_nil : (TxMap.ofTransactions []).root? = none := by decide +kernel

theorem data_full : full.header.data = Bytes.ofText Transaction.currentVersion ++ Wire.i64 0 ++ genesis.hash.bytes ++
    genesisTransaction.hash.bytes := by
  have hroot : full.header.root = some genesisTransaction.hash := TxMap.root?_singleton genesisTransaction
  rw [Header.data, hroot]
  exact congrArg (· ++ genesisTransaction.hash.bytes) (List.append_nil _)

theorem data_hollow : hollow.header.data = full.header.data := by
  have hroot : hollow.header.root = none := root?_nil
  rw [data_full, Header.data, hroot]
  exact List.append_nil _

theorem data_rootless : rootless.header.data = full.header.data := by
  have hprevious : rootless.header.previous = none := rfl
  have hroot : rootless.header.root = none := root?_nil
  rw [data_full, Header.data, hprevious, hroot, List.append_assoc _ genesis.hash.bytes]
  refine (List.append_nil _).trans ?_
  exact congrArg (· ++ (genesis.hash.bytes ++ genesisTransaction.hash.bytes)) (List.append_nil _)

theorem hash_eq_full {b : Block} (h : b.header.data = full.header.data) : b.hash = full.hash := by
  rw [b.hash_eq, full.hash_eq, Header.hash, h, Header.hash]

theorem collisionFree_full {b : Block} (h : b.header.data = full.header.data) :
    Digest.CollisionFree [b.header.data, full.header.data] := h ▸ Transaction.collisionFree_pair _

/-- A ledger in an empty directory, then with `hollow` and `above` on the first block: the chain is valid. -/
theorem exists_hollow_chain : ∃ l dir, Ledger.openIn .standard Ledger.defaultBudget .fresh = (.ok l, dir) ∧
    (l.after [.add hollow, .add above]).tipHeight = 2 ∧
    (l.after [.add hollow, .add above]).block? 1 = some hollow ∧
    (l.after [.add hollow, .add above]).block? 2 = some above ∧
    (l.after [.add hollow, .add above]).isChainValid = true := by
  have htest : (Ledger.openIn .standard Ledger.defaultBudget .fresh).1.toOption.any fun l =>
      let m := l.after [.add hollow, .add above]
      m.tipHeight == 2 && (m.block? 1 == some hollow && (m.block? 2 == some above && m.isChainValid)) := by
    decide +kernel
  cases hopen : Ledger.openIn .standard Ledger.defaultBudget .fresh with
  | mk result dir =>
    rw [hopen] at htest
    cases result with
    | error e => cases htest
    | ok l =>
      simp only [Except.toOption, Option.any_some, Bool.and_eq_true, beq_iff_eq] at htest
      exact ⟨l, dir, rfl, htest⟩

/-- The tip of the chain names `hollow`, and names `full`, which has its data and is cut otherwise. -/
theorem hash_identifies_data_hollow :
    (rootless.header.data = full.header.data ∧
      (rootless.header = full.header ↔ rootless.header.shape = full.header.shape)) ∧
    ∃ l : Ledger, l.isChainValid = true ∧ 1 < l.tipHeight ∧ l.block? 1 = some hollow ∧ l.block? 2 = some above ∧
      above.header.previous = some full.hash ∧ full.header.data = hollow.header.data ∧
      (full.header = hollow.header ↔ full.header.shape = hollow.header.shape) := by
  have hfree : Digest.CollisionFree [full.header.data, hollow.header.data] :=
    data_hollow ▸ Transaction.collisionFree_pair _
  refine ⟨Header.hash_identifies_data.1 _ _ (congrArg Digest.of data_rootless) (collisionFree_full data_rootless), ?_⟩
  obtain ⟨l, -, -, hheight, hbelow, htip, hvalid⟩ := exists_hollow_chain
  have hlt : 1 < (l.after [.add hollow, .add above]).tipHeight := hheight ▸ (by decide : (1 : UInt64) < 2)
  obtain ⟨parent, child, hparent, hchild, -, hall⟩ := Header.hash_identifies_data.2 _ hvalid 1 hlt
  obtain rfl := Option.some.inj (hbelow.symm.trans hparent)
  obtain rfl := Option.some.inj (htip.symm.trans hchild)
  exact ⟨_, hvalid, hlt, hbelow, htip, rfl, hall full rfl hfree⟩

/-- **A link does not identify the parent.** In a valid chain the block that is built on `full` stands on `hollow`,
which has another nonce and another root, and names `rootless` as well, which has another parent hash. Nothing that
is hashed for their headers collides. -/
theorem exists_link_to_others : ∃ l dir, Ledger.openIn .standard Ledger.defaultBudget .fresh = (.ok l, dir) ∧
    (l.after [.add hollow, .add above]).isChainValid = true ∧
    (l.after [.add hollow, .add above]).block? 1 = some hollow ∧
    (l.after [.add hollow, .add above]).block? 2 = some above ∧
    (∀ b ∈ [full, hollow, rootless], above.header.previous = some b.hash) ∧
    Digest.CollisionFree [full.header.data, hollow.header.data, rootless.header.data] ∧
    full.header.nonce ≠ hollow.header.nonce ∧ full.header.root ≠ hollow.header.root ∧
    full.header.previous ≠ rootless.header.previous := by
  obtain ⟨l, dir, hopen, -, hbelow, htip, hvalid⟩ := exists_hollow_chain
  refine ⟨l, dir, hopen, hvalid, hbelow, htip, fun b hb => ?_, ?_, ?_, ?_, Option.some_ne_none _⟩
  · have hdata : b.header.data = full.header.data := by
      simp only [List.mem_cons, List.not_mem_nil, or_false] at hb
      rcases hb with rfl | rfl | rfl
      · rfl
      · exact data_hollow
      · exact data_rootless
    exact congrArg some (hash_eq_full hdata).symm
  · rw [data_hollow, data_rootless]
    simp [Digest.CollisionFree]
  · exact fun hsame => absurd (congrArg List.length hsame) (by decide +kernel)
  · have hroot : full.header.root = some genesisTransaction.hash := TxMap.root?_singleton genesisTransaction
    have hnone : hollow.header.root = none := root?_nil
    rw [hroot, hnone]
    exact Option.some_ne_none _

end Block

end ReplicatedLedger
