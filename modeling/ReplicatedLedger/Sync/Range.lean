import ReplicatedLedger.Message.Reply
import ReplicatedLedger.Store.Basic
import ReplicatedLedger.Substrate

/-! # Transfer of ranges of blocks

A replica that lacks blocks fetches them from another's store. It sends the lowest and the highest height
of a range, four bytes each; the answer is a stream of records from the highest height down. Where the
server cannot read a block it sends the marker and ends. The client stores the blocks as they come and stops
at the first that is not the one expected. -/

namespace ReplicatedLedger

/-- Why the leader's answer to a query is of no use. -/
inductive Sync.QueryFault where
  /-- It is no reply. -/
  | undecodable (cause : DataError)
  /-- It is a reply of another kind. -/
  | unexpected (kind : Reply.Kind)
  deriving DecidableEq

/-- Why a transfer failed. Blocks stored before the failure stay. -/
inductive SyncError where
  /-- The connection failed. -/
  | connection (cause : IoError)
  /-- A record could not be read. -/
  | record (cause : RecordError)
  /-- A block could not be stored. -/
  | store (cause : StoreError)
  /-- The leader could not be asked. -/
  | substrate (cause : SubstrateError)
  /-- The leader's answer is of no use. -/
  | query (cause : Sync.QueryFault)
  /-- The leader is not among the replicas. -/
  | leaderNotInView (leader : ReplicaId)
  /-- The own replica leads. -/
  | selfIsLeader (id : ReplicaId)
  /-- There is no address for the leader. -/
  | unknownPeer (id : ReplicaId)
  /-- A height does not fit four bytes. -/
  | heightOutOfRange (height : UInt64)
  /-- The range is empty. -/
  | invalidRange (bottom top : UInt64)
  /-- The server lacks a block. -/
  | missingBlock (height : UInt64)
  /-- The server sent another block than the one expected. -/
  | unexpectedHeight (expected found : UInt64)
  deriving DecidableEq

/-- Display text. -/
def SyncError.message : SyncError → String
  | connection e => "sync i/o error: " ++ e.message
  | record e => "sync record error: " ++ e.message
  | store e => "sync store error: " ++ e.message
  | substrate e => "substrate error: " ++ e.message
  | query (.undecodable e) => "unexpected query reply: " ++ e.message
  | query (.unexpected k) => "unexpected query reply: " ++ k.name
  | leaderNotInView id => s!"leader {id.toNat} is not in the current view"
  | selfIsLeader id => s!"local replica {id.toNat} is the leader"
  | unknownPeer id => s!"no sync address configured for replica {id.toNat}"
  | heightOutOfRange h => s!"height {h.toNat} does not fit the sync wire format"
  | invalidRange h k => s!"invalid range [{h.toNat}, {k.toNat}]"
  | missingBlock h => s!"server has no block at height {h.toNat}"
  | unexpectedHeight h k => s!"expected block at height {h.toNat}, received {k.toNat}"

namespace Sync

/-! ### Server -/

/-- Sends the `n` blocks from height `bottom` up, highest first: how many were sent, and the bytes. -/
def serveDown (s : Store) (bottom : Nat) : Nat → Except SyncError Nat × Bytes
  | 0 => (.ok 0, [])
  | n + 1 =>
    let height := (bottom + n).toUInt64
    match s.read height with
    | .error _ => (.error (.missingBlock height), Block.Record.marker)
    | .ok b =>
      let (sent, rest) := serveDown s bottom n
      (sent.map (· + 1), Block.Record.encode b ++ rest)

/-- Answers a request: how many blocks were sent, and the bytes. -/
def serve (s : Store) (request : Bytes) : Except SyncError Nat × Bytes :=
  if request.length < 8 then (.error (.connection .unexpectedEof), [])
  else
    let bottom := Bytes.toNat (request.take 4)
    let top := Bytes.toNat ((request.drop 4).take 4)
    if bottom > top then (.error (.invalidRange bottom.toUInt64 top.toUInt64), [])
    else serveDown s bottom (top + 1 - bottom)

/-! ### Client -/

/-- Whether a height fits a request. -/
def FitsRequest (height : UInt64) : Prop := height.toNat < UInt32.size

instance (height : UInt64) : Decidable (FitsRequest height) :=
  inferInstanceAs (Decidable (height.toNat < UInt32.size))

/-- The request for a range. -/
def request (bottom top : UInt64) : Bytes :=
  Bytes.bigEndian 4 bottom.toNat ++ Bytes.bigEndian 4 top.toNat

/-- Stores the `n` blocks from height `bottom` up, which come highest first. -/
def receiveDown (bottom : Nat) : Nat → Store → Bytes → Except SyncError Unit × Store
  | 0, s, _ => (.ok (), s)
  | n + 1, s, stream =>
    let expected := (bottom + n).toUInt64
    match Block.Record.read stream with
    | .error e => (.error (.record e), s)
    | .ok (none, _) => (.error (.missingBlock expected), s)
    | .ok (some b, rest) =>
      if b.height ≠ expected then (.error (.unexpectedHeight expected b.height), s)
      else
        match s.write b with
        | (.error e, s) => (.error (.store e), s)
        | (.ok (), s) => receiveDown bottom n s rest

/-- Stores a range that comes on a stream: how many blocks it has. -/
def receive (s : Store) (bottom top : UInt64) (stream : Bytes) : Except SyncError Nat × Store :=
  let n := top.toNat + 1 - bottom.toNat
  let (result, s) := receiveDown bottom.toNat n s stream
  (result.map fun _ => n, s)

/-- Who listens at an address: from the bytes received to the bytes answered. -/
abbrev Listener := Bytes → Bytes

/-- What a fetch leads to. -/
structure Fetched where
  /-- How many blocks were stored, if all were. -/
  result : Except SyncError Nat
  store : Store
  /-- The bytes that reached the server. -/
  sent : Option Bytes

/-- Fetches a range from whoever listens. A connection without any patience is refused before it is
used. -/
def fetch (s : Store) (listener : Except IoError Listener) (patience : Option Nat) (bottom top : UInt64) :
    Fetched :=
  if bottom > top then ⟨.error (.invalidRange bottom top), s, none⟩
  else if ¬FitsRequest top then ⟨.error (.heightOutOfRange top), s, none⟩
  else
    match listener with
    | .error e => ⟨.error (.connection e), s, none⟩
    | .ok answer =>
      if patience = some 0 then ⟨.error (.connection .invalidInput), s, none⟩
      else
        let sent := request bottom top
        let (result, s) := receive s bottom top (answer sent)
        ⟨result, s, some sent⟩

end Sync

end ReplicatedLedger
