import ReplicatedLedger.Message.Reply
import ReplicatedLedger.Message.Request
import ReplicatedLedger.Substrate

/-! # Clients

A client makes requests of a ledger through a substrate: transactions in ordered delivery, all else in
unordered. Each call expects one kind of reply, or, for a block that may be missing, one of two. -/

namespace ReplicatedLedger

/-- Why a call failed. -/
inductive ClientError where
  /-- There was no reply. -/
  | substrate (cause : SubstrateError)
  /-- The reply could not be read. -/
  | undecodable (cause : DataError)
  /-- The replica reports an error. -/
  | replica (text : String)
  /-- The reply is of another kind. -/
  | unexpected (kind : Reply.Kind)
  deriving DecidableEq

/-- Display text. -/
def ClientError.message : ClientError → String
  | substrate e => "substrate error: " ++ e.message
  | undecodable e => "undecodable reply: " ++ e.message
  | replica text => "replica error: " ++ text
  | unexpected kind => "unexpected reply: " ++ kind.name

namespace Client

variable {σ : Type} [Substrate σ]

/-- The reply to a request, which is no error report. -/
def request (net : σ) (delivery : Delivery) (r : Request) : Except ClientError Reply × σ :=
  match Substrate.submit net delivery (Message.client r).encode with
  | (.error e, net) => (.error (.substrate e), net)
  | (.ok raw, net) =>
    match Reply.decode raw with
    | .error e => (.error (.undecodable e), net)
    | .ok (.error text) => (.error (.replica text), net)
    | .ok reply => (.ok reply, net)

/-- The reply to a request, as the call expects it. -/
def call {α : Type} (net : σ) (delivery : Delivery) (r : Request) (read : Reply → Option α) :
    Except ClientError α × σ :=
  match request net delivery r with
  | (.error e, net) => (.error e, net)
  | (.ok reply, net) =>
    match read reply with
    | some a => (.ok a, net)
    | none => (.error (.unexpected reply.kind), net)

/-! ### Replies -/

/-- A truth value. -/
def bool? : Reply → Option Bool
  | .bool b => some b
  | _ => none

/-- A block. -/
def block? : Reply → Option Block
  | .block b => some b
  | _ => none

/-- A summary. -/
def summary? : Reply → Option Block.Summary
  | .summary s => some s
  | _ => none

/-- Something that may be missing. -/
def optional? {α : Type} (read : Reply → Option α) : Reply → Option (Option α)
  | .notFound => some none
  | reply => (read reply).map some

/-- A height. -/
def height? : Reply → Option UInt64
  | .height h => some h
  | _ => none

/-- A leader. -/
def leader? : Reply → Option ReplicaId
  | .leader id => some id
  | _ => none

/-- A number. -/
def count? : Reply → Option UInt32
  | .count n => some n
  | _ => none

/-- A status. -/
def status? : Reply → Option TxStatus
  | .status s => some s
  | _ => none

/-! ### Calls -/

/-- Queues an encoded transaction. -/
def add (net : σ) (raw : Bytes) : Except ClientError Bool × σ := call net .ordered (.add raw) bool?

/-- Queues encoded transactions; whether all of them were queued. -/
def addBatch (net : σ) (raws : List Bytes) : Except ClientError Bool × σ :=
  call net .ordered (.addBatch raws) bool?

/-- The block at the tip. -/
def tip (net : σ) : Except ClientError Block × σ := call net .unordered .tip block?

/-- The summary of the block at the tip. -/
def tipSummary (net : σ) : Except ClientError Block.Summary × σ := call net .unordered .tipSummary summary?

/-- The block at a height. -/
def block (net : σ) (height : UInt64) : Except ClientError (Option Block) × σ :=
  call net .unordered (.block height) (optional? block?)

/-- The summary of the block at a height. -/
def blockSummary (net : σ) (height : UInt64) : Except ClientError (Option Block.Summary) × σ :=
  call net .unordered (.blockSummary height) (optional? summary?)

/-- The height of the tip. -/
def height (net : σ) : Except ClientError UInt64 × σ := call net .unordered .height height?

/-- Whether the chain is linked. -/
def isChainValid (net : σ) : Except ClientError Bool × σ := call net .unordered .chainValid bool?

/-- Who leads. -/
def leader (net : σ) : Except ClientError ReplicaId × σ := call net .unordered .leader leader?

/-- Where a transaction is. -/
def status (net : σ) (hash : Digest) : Except ClientError TxStatus × σ :=
  call net .unordered (.status hash) status?

/-- The number of replicas. -/
def nodes (net : σ) : Except ClientError UInt32 × σ := call net .unordered .nodes count?

end Client

end ReplicatedLedger
