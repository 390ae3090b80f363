import ReplicatedLedger.Block.Basic
import ReplicatedLedger.Transaction.Wire

/-! # Wire format of blocks

A block is its header, its height, the number of its transactions and the transactions in the order of
timestamp and hash. Reading takes the transactions in any order, but none twice, and checks that the parts
fit together. A summary is the header, the number of transactions, the height and the size. -/

namespace ReplicatedLedger.Block

open Wire

/-- The encoding of a block. -/
def encode (b : Block) : Bytes :=
  b.header.encode ++ u64 b.height ++ u32 b.count ++ b.ordered.flatMap Transaction.encode

/-- Reads `n` transactions, of any size and none of them twice or in `m`, into `m`. -/
def readTransactions : Nat → TxMap → Reader TxMap
  | 0, m => return m
  | n + 1, m => do
    let t ← Transaction.read Transaction.noLimit
    if m.contains t.hash then throw (.invalidBlock .duplicate)
    readTransactions n (m.insert t.hash t)

/-- Reads a block. A transaction takes at least a byte, so a counter above the number of remaining bytes
is refused before anything is read. -/
def read : Reader Block := do
  let header ← Header.read
  let height ← readU64
  let count ← readU32
  if count.toNat > (← get).length then fail (.transactionCount count.toNat)
  let txs ← readTransactions count.toNat .empty
  ofParts header txs count height

/-- The block with the given encoding. -/
def decode (d : Bytes) : Except DataError Block := exactly read d

/-- The encoding of a summary. -/
def Summary.encode (s : Summary) : Bytes := s.header.encode ++ u32 s.count ++ u64 s.height ++ u64 s.size

/-- Reads a summary. -/
def Summary.read : Reader Summary := do
  let header ← Header.read
  let count ← readU32
  let height ← readU64
  let size ← readU64
  return { header, count, height, size }

end ReplicatedLedger.Block
