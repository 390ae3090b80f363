import ReplicatedLedger.Bytes

/-! # Errors of the data model

What can be wrong with a transaction, a transaction set, an encoding or a block: one constructor per
cause, and the display text in `message`. -/

namespace ReplicatedLedger

/-- What makes a byte string no encoding. -/
inductive Malformed where
  /-- The bytes end inside a field. -/
  | unexpectedEnd
  /-- Bytes follow the end of the encoding. -/
  | trailing (count : Nat)
  /-- A flag is neither zero nor one. -/
  | flag
  /-- A text is not UTF-8. -/
  | text
  /-- An optional digest has neither no bytes nor twenty. -/
  | digestLength (length : Nat)
  /-- A list announces more elements than the remaining bytes can hold. -/
  | count (count : Nat)
  /-- A block announces more transactions than bytes remain. -/
  | transactionCount (count : Nat)
  /-- A record frames nothing. -/
  | emptyRecord
  /-- The first byte of a message names no kind of message. -/
  | messageTag (tag : UInt8)
  /-- The first byte of a request names no kind of request. -/
  | requestTag (tag : UInt8)
  /-- The first byte of a reply names no kind of reply. -/
  | replyTag (tag : UInt8)
  /-- The first byte of a transaction status names no status. -/
  | statusTag (tag : UInt8)
  deriving DecidableEq

/-- What makes parts no block. -/
inductive BlockFault where
  /-- A list of transactions repeats some. -/
  | duplicates (supplied unique : Nat)
  /-- The counter differs from the number of transactions. -/
  | counter (counter actual : Nat)
  /-- The header carries a different Merkle root than the transactions have. -/
  | root
  /-- The number of transactions does not fit the counter. -/
  | tooMany
  /-- An encoded block repeats a transaction. -/
  | duplicate
  deriving DecidableEq

/-- What can be wrong with data. -/
inductive DataError where
  /-- A transaction is larger than allowed. -/
  | tooLarge (size max : Nat)
  /-- A transaction stands under a key that is not its hash. -/
  | keyMismatch
  /-- Bytes are no encoding. -/
  | malformed (cause : Malformed)
  /-- A record has an unknown format version. -/
  | unsupportedVersion (expected got : UInt8)
  /-- Parts make no block. -/
  | invalidBlock (cause : BlockFault)
  deriving DecidableEq

/-- A tag as two hexadecimal digits behind `0x`. -/
def Malformed.tagText (tag : UInt8) : String := "0x" ++ Bytes.toHex [tag]

/-- Display text. -/
def Malformed.message : Malformed → String
  | unexpectedEnd => "unexpected end of data"
  | trailing n => s!"{n} trailing bytes"
  | flag => "invalid bool value"
  | text => "invalid UTF-8"
  | digestLength n => s!"invalid digest length {n}"
  | count n => s!"count {n} exceeds remaining data"
  | transactionCount n => s!"transaction count {n} exceeds remaining data"
  | emptyRecord => "empty block record"
  | messageTag tag => "unknown message type: " ++ tagText tag
  | requestTag tag => "unknown request type: " ++ tagText tag
  | replyTag tag => "unknown reply type: " ++ tagText tag
  | statusTag tag => "unknown transaction status: " ++ tagText tag

/-- Display text. -/
def BlockFault.message : BlockFault → String
  | duplicates m n => s!"duplicate transactions: {m} supplied, {n} unique"
  | counter m n => s!"transaction counter {m} does not match {n} transactions"
  | root => "merkle root mismatch"
  | tooMany => "too many transactions"
  | duplicate => "duplicate transaction"

/-- Display text. -/
def DataError.message : DataError → String
  | tooLarge size max => s!"transaction too large: size={size}, max={max}"
  | keyMismatch => "merkle computation failed: transaction map key does not match transaction hash"
  | malformed cause => "serialization error: " ++ cause.message
  | unsupportedVersion expected got =>
    s!"unsupported format version: expected {expected.toNat}, got {got.toNat}"
  | invalidBlock cause => "invalid block: " ++ cause.message

end ReplicatedLedger
