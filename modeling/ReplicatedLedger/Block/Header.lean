import ReplicatedLedger.Wire

/-! # Block headers

A header links a block to its parent and to its transactions and is stamped with the time and nonce of its
delivery. The hash of a block is the digest of its header's data, in which absent digests leave no
trace. -/

namespace ReplicatedLedger

/-- The header of a block. -/
structure Header where
  /-- The hash of the parent block. -/
  previous : Option Digest
  version : String
  /-- Milliseconds since 1970. -/
  timestamp : Int64
  nonce : Bytes
  /-- The Merkle root over the transactions. -/
  root : Option Digest
  deriving DecidableEq

namespace Header

/-- The bytes that are hashed: version, timestamp, parent, nonce and root without separators. -/
def data (h : Header) : Bytes :=
  Bytes.ofText h.version ++ Wire.i64 h.timestamp ++ (h.previous.map Digest.bytes).getD [] ++ h.nonce ++
    (h.root.map Digest.bytes).getD []

/-- The number of hashed bytes. -/
def size (h : Header) : Nat :=
  h.version.utf8ByteSize + 8 + (if h.previous.isSome then Digest.byteLength else 0) + h.nonce.length +
    if h.root.isSome then Digest.byteLength else 0

/-- The hash of the block with this header. -/
def hash (h : Header) : Digest := Digest.of h.data

/-! ### Wire format -/

open Wire

/-- The encoding of a header. -/
def encode (h : Header) : Bytes :=
  digest? h.previous ++ text h.version ++ i64 h.timestamp ++ blob h.nonce ++ digest? h.root

/-- Reads a header. -/
def read : Reader Header := do
  let previous ← readDigest?
  let version ← readText
  let timestamp ← readI64
  let nonce ← readBlob
  let root ← readDigest?
  return { previous, version, timestamp, nonce, root }

end Header

end ReplicatedLedger
