import ReplicatedLedger.Transaction
import ReplicatedLedger.Wire

/-! # Wire format of transactions

Version, timestamp, payload, a flag, and the signature if the flag is set. -/

namespace ReplicatedLedger.Transaction

open Wire

/-- The encoding of a transaction. -/
def encode (t : Transaction) : Bytes :=
  text t.version ++ i64 t.timestamp ++ blob t.payload ++
    match t.signature with
    | none => flag false
    | some s => flag true ++ blob s

/-- A limit that no transaction read from bytes reaches: each of its three lengths has four bytes. -/
def noLimit : Nat := UInt64.size - 1

/-- Reads a transaction not larger than `max`. -/
def read (max : Nat) : Reader Transaction := do
  let version ← readText
  let timestamp ← readI64
  let payload ← readBlob
  let signature ← if ← readFlag then some <$> readBlob else pure none
  bounded ⟨version, timestamp, payload, signature⟩ max

/-- The transaction not larger than `max` with the given encoding. -/
def decode (d : Bytes) (max : Nat) : Except DataError Transaction := exactly (read max) d

/-- The encoding of a list of transactions. -/
def encodeList (ts : List Transaction) : Bytes := size ts.length ++ ts.flatMap encode

/-- Reads a list of transactions not larger than `max`. -/
def readList (max : Nat) : Reader (List Transaction) := do many (read max) (← readCount)

/-- The list of transactions not larger than `max` with the given encoding. -/
def decodeList (d : Bytes) (max : Nat) : Except DataError (List Transaction) :=
  exactly (readList max) d

end ReplicatedLedger.Transaction
