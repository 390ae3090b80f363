import ReplicatedLedger.Ledger
import ReplicatedLedger.Substrate

/-! # Settings

What is configured for a node, section by section, with the values that hold unless others are given. Five
of the numbers have to be positive; `Settings.fault?` names the first that is not. -/

namespace ReplicatedLedger

/-- Where blocks are stored and how many are kept in memory. -/
structure Settings.Storage where
  directory : String
  naming : Store.Naming
  /-- Bytes of blocks in memory. -/
  budget : Nat
  deriving DecidableEq

/-- How blocks are proposed. -/
structure Settings.Proposals where
  /-- Transactions per block. -/
  batch : Nat
  /-- Milliseconds between attempts. -/
  pause : Nat
  deriving DecidableEq

/-- How blocks are transferred. -/
structure Settings.Transfer where
  /-- The address at which the own blocks are served. -/
  listen : String
  /-- The addresses of the replicas. -/
  peers : SortedMap ReplicaId String
  /-- Milliseconds to wait for a peer; for ever if absent. -/
  patience : Option Nat
  /-- Whether to catch up once at the start. -/
  atStart : Bool
  deriving DecidableEq

/-- All that is configured for a node. -/
structure Settings where
  storage : Settings.Storage
  proposals : Settings.Proposals
  /-- Milliseconds between checks of the chain. -/
  checkPause : Nat
  transfer : Settings.Transfer
  /-- The largest size of a transaction. -/
  maxSize : Nat
  /-- The version written into proposed blocks. -/
  version : String
  deriving DecidableEq

namespace Settings

/-- Storage unless other is given. -/
def Storage.standard : Storage := ⟨"blocks", .standard, Ledger.defaultBudget⟩

/-- Proposals unless others are given. -/
def Proposals.standard : Proposals := ⟨100, 500⟩

/-- Transfer unless other is given. -/
def Transfer.standard : Transfer := ⟨"127.0.0.1:0", .empty, none, false⟩

/-- The settings unless others are given. -/
def standard : Settings where
  storage := .standard
  proposals := .standard
  checkPause := 5000
  transfer := .standard
  maxSize := Transaction.defaultMaxSize
  version := Transaction.currentVersion

/-- A number that has to be positive and is not. -/
inductive Fault where
  | batch | proposalPause | checkPause | budget | maxSize
  deriving DecidableEq

/-- Display text. -/
def Fault.message : Fault → String
  | batch => "invalid configuration: proposal.batch_size must be positive"
  | proposalPause => "invalid configuration: proposal.interval_ms must be positive"
  | checkPause => "invalid configuration: validator.interval_ms must be positive"
  | budget => "invalid configuration: ledger.memory_budget must be positive"
  | maxSize => "invalid configuration: max_transaction_size must be positive"

/-- The first number that has to be positive and is not. -/
def fault? (s : Settings) : Option Fault :=
  if s.proposals.batch = 0 then some .batch
  else if s.proposals.pause = 0 then some .proposalPause
  else if s.checkPause = 0 then some .checkPause
  else if s.storage.budget = 0 then some .budget
  else if s.maxSize = 0 then some .maxSize
  else none

end Settings

end ReplicatedLedger
