import ReplicatedLedger.Transaction.Wire
import Std.Data.TreeSet

/-! # Pools of pending transactions

A pool queues transactions in the order of arrival and indexes their hashes; a transaction whose hash is
indexed already is not queued again. Proposals take transactions from the front. A refused proposal puts
them back, which also sorts the queue by timestamp, keeping the order among equal timestamps. -/

namespace ReplicatedLedger

/-- What can go wrong with a pool. -/
inductive PoolError where
  /-- The size changed by another number than asked for. -/
  | inconsistent (requested actual : Nat)
  /-- More transactions were asked for than are queued. -/
  | insufficient (requested available : Nat)
  deriving DecidableEq

/-- Display text. -/
def PoolError.message : PoolError → String
  | inconsistent m n => s!"mempool inconsistency: requested {m}, size changed by {n}"
  | insufficient m n => s!"mempool holds {n} transactions, {m} requested"

/-- Pending transactions. -/
structure Pool where
  /-- The transactions, oldest arrival first. -/
  queue : List Transaction
  /-- The hashes of the queued transactions. -/
  index : Std.TreeSet Digest

namespace Pool

/-- The pool without transactions. -/
def empty : Pool := ⟨[], ∅⟩

/-- The number of transactions. -/
def size (p : Pool) : Nat := p.queue.length

/-- Whether a transaction with the given hash is pending. -/
def contains (p : Pool) (hash : Digest) : Bool := p.index.contains hash

/-- Queues a transaction, unless its hash is pending. -/
def push (p : Pool) (t : Transaction) : Pool :=
  if p.index.contains t.hash then p else ⟨p.queue ++ [t], p.index.insert t.hash⟩

/-- Queues transactions in their order. -/
def pushAll (p : Pool) (ts : List Transaction) : Pool := ts.foldl push p

/-- The pool of a list of transactions; repeated ones count once. -/
def ofList (ts : List Transaction) : Pool := empty.pushAll ts

/-- Queues a batch and tells its size. If some of the batch were pending the others are queued, and that is
an error. -/
def addBatch (p : Pool) (ts : List Transaction) : Except PoolError Nat × Pool :=
  let q := p.pushAll ts
  let grown := q.size - p.size
  (if grown = ts.length then .ok grown else .error (.inconsistent ts.length grown), q)

/-- Queues a transaction. -/
def add (p : Pool) (t : Transaction) : Except PoolError Unit × Pool :=
  let (result, q) := p.addBatch [t]
  (result.map fun _ => (), q)

/-- Takes the `n` oldest arrivals, if there are so many. -/
def take (p : Pool) (n : Nat) : Except PoolError (List Transaction) × Pool :=
  if n > p.size then (.error (.insufficient n p.size), p)
  else
    let taken := p.queue.take n
    let q : Pool := ⟨p.queue.drop n, taken.foldl (fun i t => i.erase t.hash) p.index⟩
    let shrunk := p.size - q.size
    (if shrunk = n ∧ taken.length = n then .ok taken else .error (.inconsistent n shrunk), q)

/-- Sorts the queue by timestamp, keeping the order among equal timestamps. -/
def sort (p : Pool) : Pool :=
  ⟨p.queue.mergeSort fun s t => s.timestamp ≤ t.timestamp, p.index⟩

/-- Puts transactions back and tells how many were not pending. -/
def requeue (p : Pool) (ts : List Transaction) : Nat × Pool :=
  let q := p.pushAll ts
  (q.size - p.size, q.sort)

/-! ### Snapshots -/

/-- The encoding of the queue. -/
def snapshot (p : Pool) : Bytes := Transaction.encodeList p.queue

/-- The pool of the transactions not larger than `max` with the given encoding. -/
def ofSnapshot (d : Bytes) (max : Nat) : Except DataError Pool :=
  (Transaction.decodeList d max).map ofList

end Pool

end ReplicatedLedger
