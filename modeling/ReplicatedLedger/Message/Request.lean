import ReplicatedLedger.Block.Wire

/-! # Requests and messages

A message is what a replica gets delivered: a client's request, or a block that a replica proposes. The
first byte of a message tells which, the next byte of a request what is asked. -/

namespace ReplicatedLedger

/-- What a client asks of a replica. -/
inductive Request where
  /-- The block at the tip. -/
  | tip
  /-- The summary of the block at the tip. -/
  | tipSummary
  /-- The block at a height. -/
  | block (height : UInt64)
  /-- The summary of the block at a height. -/
  | blockSummary (height : UInt64)
  /-- The height of the tip. -/
  | height
  /-- To queue a transaction, given encoded. -/
  | add (raw : Bytes)
  /-- To queue some transactions, given encoded. -/
  | addBatch (raws : List Bytes)
  /-- Whether the chain is linked. -/
  | chainValid
  /-- The leader the replica last heard of. -/
  | leader
  /-- Where a transaction is. -/
  | status (hash : Digest)
  /-- The number of replicas. -/
  | nodes
  deriving DecidableEq

/-- What a replica gets delivered. -/
inductive Message where
  /-- A client's request. -/
  | client (request : Request)
  /-- A block that `sender` proposes. -/
  | proposal (sender : UInt32) (block : Block)
  deriving DecidableEq

/-- Whether the request leaves a replica as it is. -/
def Request.isReadOnly : Request → Bool
  | add _ | addBatch _ => false
  | _ => true

/-! ### Wire format -/

open Wire

/-- The encoding of a request. -/
def Request.encode : Request → Bytes
  | tip => [0x01]
  | tipSummary => [0x02]
  | block h => 0x03 :: u64 h
  | blockSummary h => 0x04 :: u64 h
  | height => [0x05]
  | add raw => 0x06 :: blob raw
  | addBatch raws => 0x07 :: (size raws.length ++ raws.flatMap blob)
  | chainValid => [0x08]
  | leader => [0x09]
  | status hash => 0x0a :: hash.bytes
  | nodes => [0x0b]

/-- Reads a request. -/
def Request.read : Reader Request := do
  match ← readByte with
  | 0x01 => return tip
  | 0x02 => return tipSummary
  | 0x03 => block <$> readU64
  | 0x04 => blockSummary <$> readU64
  | 0x05 => return height
  | 0x06 => add <$> readBlob
  | 0x07 => addBatch <$> do many readBlob (← readCount)
  | 0x08 => return chainValid
  | 0x09 => return leader
  | 0x0a => status <$> readDigest
  | 0x0b => return nodes
  | tag => fail (.requestTag tag)

namespace Message

/-- The encoding of a message. -/
def encode : Message → Bytes
  | client request => 0x01 :: request.encode
  | proposal sender block => 0x02 :: (u32 sender ++ blob block.encode)

/-- Reads a message. -/
def read : Reader Message := do
  match ← readByte with
  | 0x01 => client <$> Request.read
  | 0x02 =>
    let sender ← readU32
    let block ← Block.decode (← readBlob)
    return proposal sender block
  | tag => fail (.messageTag tag)

/-- The message with the given encoding. -/
def decode (d : Bytes) : Except DataError Message := exactly read d

end Message

end ReplicatedLedger
