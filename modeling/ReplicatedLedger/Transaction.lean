import ReplicatedLedger.DataError
import ReplicatedLedger.Digest
import ReplicatedLedger.Signature.Ed25519

/-! # Transactions

A transaction is an opaque payload with a version, a timestamp and an optional signature of the payload.
It carries its hash, computed once: the digest of its identity bytes. `Transaction.ext_content` says that
the content determines the rest. Transactions are ordered by timestamp, then hash. -/

namespace ReplicatedLedger

namespace Transaction

/-- What a transaction says. -/
structure Content where
  version : String
  /-- Milliseconds since 1970. -/
  timestamp : Int64
  payload : Bytes
  signature : Option Bytes
  deriving DecidableEq

/-- The bytes that are hashed: version, timestamp, payload and signature without separators. -/
def Content.identity (c : Content) : Bytes :=
  Bytes.ofText c.version ++ Bytes.bigEndian 8 c.timestamp.toUInt64.toNat ++ c.payload ++
    c.signature.getD []

/-- The length of the encoding: the fields, three lengths of four bytes, eight bytes of timestamp and a
flag; the third length only with a signature. -/
def Content.size (c : Content) : Nat :=
  4 + c.version.utf8ByteSize + 8 + 4 + c.payload.length + 1 +
    match c.signature with
    | none => 0
    | some s => 4 + s.length

end Transaction

/-- A transaction with its hash. -/
structure Transaction extends Transaction.Content where
  hash : Digest
  hash_eq : hash = Digest.of toContent.identity
  deriving DecidableEq

namespace Transaction

/-- The version written into transactions and headers. -/
def currentVersion : String := "1.0"

/-- The largest size of a transaction unless another is configured. -/
def defaultMaxSize : Nat := 65536

/-- The transaction with the given content, of any size. -/
def ofContent (c : Content) : Transaction := ⟨c, Digest.of c.identity, rfl⟩

theorem ext_content {a b : Transaction} (h : a.toContent = b.toContent) : a = b := by
  obtain ⟨_, _, rfl⟩ := a
  obtain ⟨_, _, rfl⟩ := b
  simp_all

/-- The transaction with the given content, if it is not larger than `max`. -/
def bounded (c : Content) (max : Nat) : Except DataError Transaction :=
  if c.size > max then .error (.tooLarge c.size max) else .ok (ofContent c)

/-- The transaction with the given fields and the signature of the payload, if it is not larger than
`max`. -/
def signed (key : Ed25519.SigningKey) (version : String) (timestamp : Int64) (payload : Bytes)
    (max : Nat) : Except DataError Transaction :=
  bounded ⟨version, timestamp, payload, some (key.sign payload)⟩ max

/-- Whether the transaction carries a signature of its payload under the public key. -/
def verify (t : Transaction) (key : Bytes) : Bool :=
  match t.signature with
  | none => false
  | some s => Ed25519.verify t.payload s key

/-! ### Order -/

/-- What transactions are ordered by. -/
abbrev OrderKey := Int64 × Digest

/-- Timestamp and hash. -/
def orderKey (t : Transaction) : OrderKey := (t.timestamp, t.hash)

/-- Earlier timestamps first, smaller hashes first among equal timestamps. -/
def OrderKey.le (a b : OrderKey) : Bool := a.1 < b.1 || (a.1 == b.1 && a.2 ≤ b.2)

end Transaction

end ReplicatedLedger
