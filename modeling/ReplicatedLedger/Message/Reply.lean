import ReplicatedLedger.Block.Wire

/-! # Replies

A replica answers every message with a reply, whose first byte tells its kind. A proposal is accepted by the
reply `bool true` alone. -/

namespace ReplicatedLedger

/-- Where a transaction is, as one replica sees it. -/
inductive TxStatus where
  /-- Queued, or in a block being proposed. -/
  | inPool
  /-- In the block at a height. -/
  | inBlock (height : UInt64)
  /-- Nowhere. -/
  | unknown
  deriving DecidableEq

/-- The answer of a replica. -/
inductive Reply where
  | block (block : Block)
  | summary (summary : Block.Summary)
  | height (height : UInt64)
  /-- The outcome of a write, a check or a vote. -/
  | bool (value : Bool)
  | leader (id : UInt32)
  | count (count : UInt32)
  | status (status : TxStatus)
  /-- There is no such block. -/
  | notFound
  /-- The message could not be read. -/
  | error (text : String)
  deriving DecidableEq

/-- The kinds of replies. -/
inductive Reply.Kind where
  | block | summary | height | bool | leader | count | status | notFound | error
  deriving DecidableEq

/-- The kind of a reply. -/
def Reply.kind : Reply → Kind
  | block _ => .block
  | summary _ => .summary
  | height _ => .height
  | bool _ => .bool
  | leader _ => .leader
  | count _ => .count
  | status _ => .status
  | notFound => .notFound
  | error _ => .error

/-- Display text of a kind. -/
def Reply.Kind.name : Kind → String
  | block => "Block"
  | summary => "Summary"
  | height => "Height"
  | bool => "Bool"
  | leader => "Leader"
  | count => "Count"
  | status => "TxStatus"
  | notFound => "NotFound"
  | error => "Error"

/-- Whether the reply accepts. -/
def Reply.isAck : Reply → Bool
  | bool true => true
  | _ => false

/-! ### Wire format -/

open Wire

/-- The encoding of a status. -/
def TxStatus.encode : TxStatus → Bytes
  | inPool => [0x01]
  | inBlock h => 0x02 :: u64 h
  | unknown => [0x03]

/-- Reads a status. -/
def TxStatus.read : Reader TxStatus := do
  match ← readByte with
  | 0x01 => return inPool
  | 0x02 => inBlock <$> readU64
  | 0x03 => return unknown
  | tag => fail (.statusTag tag)

namespace Reply

/-- The encoding of a reply. -/
def encode : Reply → Bytes
  | block b => 0x01 :: b.encode
  | summary s => 0x02 :: s.encode
  | height h => 0x03 :: u64 h
  | bool b => 0x04 :: flag b
  | leader id => 0x05 :: u32 id
  | count n => 0x06 :: u32 n
  | status s => 0x07 :: s.encode
  | notFound => [0x08]
  | error s => 0x09 :: text s

/-- Reads a reply. -/
def read : Reader Reply := do
  match ← readByte with
  | 0x01 => block <$> Block.read
  | 0x02 => summary <$> Block.Summary.read
  | 0x03 => height <$> readU64
  | 0x04 => bool <$> readFlag
  | 0x05 => leader <$> readU32
  | 0x06 => count <$> readU32
  | 0x07 => status <$> TxStatus.read
  | 0x08 => return notFound
  | 0x09 => error <$> readText
  | tag => fail (.replyTag tag)

/-- The reply with the given encoding. -/
def decode (d : Bytes) : Except DataError Reply := exactly read d

end Reply

end ReplicatedLedger
