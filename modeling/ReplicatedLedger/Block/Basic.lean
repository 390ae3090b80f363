import ReplicatedLedger.Block.Header
import ReplicatedLedger.Transaction.Map

/-! # Blocks

A block has a header, a height and a set of transactions. Its type says what every block satisfies: each
transaction stands under its own hash, their number fits the counter, the header carries their Merkle
root, and the stored hash is the header's. Blocks are built from a list of transactions (`Block.ofList`),
from parts that have to fit together (`Block.ofParts`), or from another block with a new stamp
(`Block.restamp`). -/

namespace ReplicatedLedger

/-- A block with its hash. -/
structure Block where
  header : Header
  height : UInt64
  txs : TxMap
  hash : Digest
  keyed : txs.Keyed
  size_lt : txs.size < UInt32.size
  root_eq : header.root = txs.root?
  hash_eq : hash = header.hash
  deriving DecidableEq

namespace Block

/-! ### Building -/

/-- The block of parts whose root and number are known to fit. -/
def assemble (header : Header) (height : UInt64) (txs : TxMap) (keyed : txs.Keyed)
    (root_eq : header.root = txs.root?) : Except DataError Block :=
  if h : txs.size < UInt32.size then .ok ⟨header, height, txs, header.hash, keyed, h, root_eq, rfl⟩
  else .error (.invalidBlock .tooMany)

/-- The block over a list of transactions, none twice, in any order. -/
def ofList (previous : Option Digest) (height : UInt64) (ts : List Transaction) (timestamp : Int64)
    (nonce : Bytes) (version : String) : Except DataError Block :=
  let txs := TxMap.ofTransactions ts
  if txs.size ≠ ts.length then .error (.invalidBlock (.duplicates ts.length txs.size))
  else
    assemble ⟨previous, version, timestamp, nonce, txs.root?⟩ height txs (TxMap.keyed_ofTransactions ts) rfl

/-- The block of a header, a map, a counter and a height, if the counter is the number of transactions,
every transaction stands under its own hash and the header carries their root. -/
def ofParts (header : Header) (txs : TxMap) (count : UInt32) (height : UInt64) : Except DataError Block :=
  if count.toNat ≠ txs.size then .error (.invalidBlock (.counter count.toNat txs.size))
  else if keyed : txs.Keyed then
    if root_eq : header.root = txs.root? then assemble header height txs keyed root_eq
    else .error (.invalidBlock .root)
  else .error .keyMismatch

/-- The time at which the first block is stamped, the start of 2020. -/
def genesisTimestamp : Int64 := 1577836800000

/-- The transaction of the first block. -/
def genesisTransaction : Transaction :=
  .ofContent ⟨Transaction.currentVersion, genesisTimestamp, Bytes.ofText "cairn genesis", none⟩

/-- The first block of every chain: height zero, one fixed transaction, no parent. -/
def genesis : Block :=
  let txs := TxMap.ofTransactions [genesisTransaction]
  let header : Header := ⟨none, Transaction.currentVersion, genesisTimestamp, [], txs.root?⟩
  ⟨header, 0, txs, header.hash, TxMap.keyed_ofTransactions _, by decide, rfl, rfl⟩

/-- The same block with another timestamp and nonce. -/
def restamp (b : Block) (timestamp : Int64) (nonce : Bytes) : Block :=
  let header := { b.header with timestamp, nonce }
  ⟨header, b.height, b.txs, header.hash, b.keyed, b.size_lt, b.root_eq, rfl⟩

/-! ### Views -/

/-- The number of transactions. -/
def count (b : Block) : UInt32 := b.txs.size.toUInt32

/-- The transactions in the order of timestamp and hash. -/
def ordered (b : Block) : List Transaction :=
  b.txs.values.mergeSort fun s t => Transaction.OrderKey.le s.orderKey t.orderKey

/-- Whether a transaction with the given hash is in the block. -/
def contains (b : Block) (hash : Digest) : Bool := b.txs.contains hash

/-- Whether two blocks hold transactions with the same hashes. -/
def sameTransactions (a b : Block) : Bool := a.txs.keys == b.txs.keys

/-- The size of a block: the header's data, two counters of four bytes, and the transactions. -/
def size (b : Block) : Nat := b.header.size + 8 + b.txs.values.foldr (fun t n => t.size + n) 0

/-- The proof that a transaction with the given hash is in the block. -/
def prove? (b : Block) (hash : Digest) : Option Merkle.Proof := Merkle.prove? b.txs.leaves hash

/-- What is told of a block without its transactions. -/
structure Summary where
  header : Header
  count : UInt32
  height : UInt64
  size : UInt64
  deriving DecidableEq

/-- The hash of the summarised block. -/
def Summary.hash (s : Summary) : Digest := s.header.hash

/-- The summary of a block. -/
def summary (b : Block) : Summary := ⟨b.header, b.count, b.height, b.size.toUInt64⟩

end Block

end ReplicatedLedger
