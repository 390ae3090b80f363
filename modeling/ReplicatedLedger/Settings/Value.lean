import ReplicatedLedger.Settings.Basic

/-! # Settings from structured values

Settings are read from nested tables. A field that a table lacks keeps its standard value, and fields that are
not known are skipped. A section may also be a list of the values of its fields in their order; the fields
beyond the list keep their standard values. A field of the wrong type, a number out of range, or a replica id
that is no number makes the whole unreadable. -/

namespace ReplicatedLedger.Settings

/-- A structured value. -/
inductive Value where
  | null
  | bool (value : Bool)
  | integer (value : Int)
  /-- A number that is not written as an integer. -/
  | fraction
  | text (value : String)
  | list (values : List Value)
  | table (fields : List (String × Value))

namespace Value

/-- A number of at most 64 bits. -/
def nat? : Value → Option Nat
  | integer n => if 0 ≤ n ∧ n.toNat < UInt64.size then some n.toNat else none
  | _ => none

/-- A text. -/
def text? : Value → Option String
  | text s => some s
  | _ => none

/-- A truth value. -/
def bool? : Value → Option Bool
  | bool b => some b
  | _ => none

/-- Something that may be absent. -/
def optional? {α : Type} (read : Value → Option α) : Value → Option (Option α)
  | null => some none
  | v => (read v).map some

/-- The values of a section's fields; `none` where a field is not given. -/
def section? (fields : List String) : Value → Option (List (Option Value))
  | table entries => some (fields.map fun f => List.lookup f entries)
  | list values =>
    if values.length ≤ fields.length then
      some (values.map some ++ List.replicate (fields.length - values.length) none)
    else none
  | _ => none

/-- The value of a field, the standard one where it is not given. -/
def field? {α : Type} (read : Value → Option α) (standard : α) : Option Value → Option α
  | none => some standard
  | some v => read v

/-- A replica id in decimal digits, without leading zeros. -/
def replicaId? (s : String) : Option ReplicaId :=
  let digits := s.toList
  let n := digits.foldl (fun v c => 10 * v + (c.toNat - '0'.toNat)) 0
  if digits ≠ [] ∧ digits.all Char.isDigit ∧ (digits.head? = some '0' → digits = ['0']) ∧ n < UInt32.size then
    some n.toUInt32
  else none

/-- Texts by replica id. -/
def peers? : Value → Option (SortedMap ReplicaId String)
  | table entries =>
    (entries.mapM fun (e : String × Value) => do return (← replicaId? e.1, ← text? e.2)).map SortedMap.ofList
  | _ => none

end Value

open Value

/-- Storage from a value. -/
def Storage.ofValue? (v : Value) : Option Storage := do
  let s := standard
  match ← section? ["directory", "base_name", "extension", "memory_budget"] v with
  | [directory, base, extension, budget] =>
    return ⟨← field? text? s.directory directory,
      ⟨← field? text? s.naming.base base, ← field? text? s.naming.extension extension⟩,
      ← field? nat? s.budget budget⟩
  | _ => none

/-- Proposals from a value. -/
def Proposals.ofValue? (v : Value) : Option Proposals := do
  let s := standard
  match ← section? ["batch_size", "interval_ms"] v with
  | [batch, pause] => return ⟨← field? nat? s.batch batch, ← field? nat? s.pause pause⟩
  | _ => none

/-- The pause between checks from a value. -/
def checkPauseOfValue? (v : Value) : Option Nat := do
  match ← section? ["interval_ms"] v with
  | [pause] => field? nat? standard.checkPause pause
  | _ => none

/-- Transfer from a value. -/
def Transfer.ofValue? (v : Value) : Option Transfer := do
  let s := standard
  match ← section? ["listen_addr", "peers", "io_timeout_ms", "startup_sync"] v with
  | [listen, peers, patience, atStart] =>
    return ⟨← field? text? s.listen listen, ← field? peers? s.peers peers,
      ← field? (optional? nat?) s.patience patience, ← field? bool? s.atStart atStart⟩
  | _ => none

/-- Settings from a value. -/
def ofValue? (v : Value) : Option Settings := do
  let s := standard
  match ← section? ["ledger", "proposal", "validator", "sync", "max_transaction_size",
      "protocol_version"] v with
  | [storage, proposals, checks, transfer, maxSize, version] =>
    return ⟨← field? Storage.ofValue? s.storage storage, ← field? Proposals.ofValue? s.proposals proposals,
      ← field? checkPauseOfValue? s.checkPause checks, ← field? Transfer.ofValue? s.transfer transfer,
      ← field? nat? s.maxSize maxSize, ← field? text? s.version version⟩
  | _ => none

end ReplicatedLedger.Settings
