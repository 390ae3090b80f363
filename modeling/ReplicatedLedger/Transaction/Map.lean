import ReplicatedLedger.Merkle
import ReplicatedLedger.SortedMap
import ReplicatedLedger.Transaction

/-! # Transactions by key

In a keyed map every transaction stands under its own hash. The leaves of a map are the hashes of its
transactions in the order of timestamp and hash; they are the leaves of its Merkle tree. -/

namespace ReplicatedLedger

/-- A finite map from digests to transactions. -/
abbrev TxMap := SortedMap Digest Transaction

namespace TxMap

/-- The map with every transaction under its own hash. -/
def ofTransactions (ts : List Transaction) : TxMap := SortedMap.ofList (ts.map fun t => (t.hash, t))

/-- Whether every transaction stands under its own hash. -/
def Keyed (m : TxMap) : Prop := ∀ e ∈ m.entries, e.1 = e.2.hash

instance (m : TxMap) : Decidable m.Keyed := inferInstanceAs (Decidable (∀ e ∈ m.entries, e.1 = e.2.hash))

theorem keyed_empty : Keyed SortedMap.empty := by simp [Keyed, SortedMap.empty]

theorem Keyed.insert {m : TxMap} (h : m.Keyed) (t : Transaction) : Keyed (m.insert t.hash t) := by
  intro e he
  rcases SortedMap.mem_insertEntry he with rfl | he
  · rfl
  · exact h e he

theorem keyed_ofTransactions (ts : List Transaction) : (ofTransactions ts).Keyed := by
  suffices h : ∀ (l : List Transaction) (m : TxMap), m.Keyed →
      Keyed ((l.map fun t => (t.hash, t)).foldl (fun m e => m.insert e.1 e.2) m) from
    h ts SortedMap.empty keyed_empty
  intro l
  induction l with
  | nil => exact fun m h => h
  | cons t l ih => exact fun m h => ih _ (h.insert t)

/-! ### Merkle tree -/

/-- The hashes in the order of timestamp and hash. -/
def leaves (m : TxMap) : List Digest :=
  ((m.values.map Transaction.orderKey).mergeSort Transaction.OrderKey.le).map Prod.snd

/-- The root of the tree over the leaves; none without leaves. -/
def root? (m : TxMap) : Option Digest := Merkle.root? m.leaves

/-- The leaves of a map in which every transaction stands under its own hash. -/
def checkedLeaves (m : TxMap) : Except DataError (List Digest) :=
  if m.Keyed then .ok m.leaves else .error .keyMismatch

/-- The root of a map in which every transaction stands under its own hash. -/
def checkedRoot (m : TxMap) : Except DataError (Option Digest) := m.checkedLeaves.map Merkle.root?

/-- The proof for a leaf of a map in which every transaction stands under its own hash. -/
def prove? (m : TxMap) (leaf : Digest) : Except DataError (Option Merkle.Proof) :=
  m.checkedLeaves.map fun ls => Merkle.prove? ls leaf

end TxMap

end ReplicatedLedger
