import ReplicatedLedger.Bytes

/-! # Substrates

A substrate carries commands to replicas. An ordered command reaches every replica, in the same order
everywhere, and is answered by the reply that a majority gave; an unordered one is answered by a single
replica. With every command travels a stamp: a time, a nonce, and who led when the command was ordered. -/

namespace ReplicatedLedger

/-- Identifies a replica. -/
abbrev ReplicaId := UInt32

/-- Why a submission got no reply. -/
inductive SubstrateError where
  /-- There is no replica. -/
  | noReplicas
  /-- No reply was given by a majority. -/
  | noQuorum (replicas : Nat)
  /-- The replica is not there. -/
  | unavailable (id : ReplicaId)
  deriving DecidableEq

/-- Display text. -/
def SubstrateError.message : SubstrateError → String
  | noReplicas => "no replicas registered"
  | noQuorum n => s!"no reply reached a majority of {n} replicas"
  | unavailable id => s!"replica {id.toNat} unavailable"

/-- What travels with a command. -/
structure Stamp where
  /-- Milliseconds since 1970. -/
  timestamp : Int64
  nonce : Bytes
  /-- Who led when the command was ordered. -/
  leader : ReplicaId
  deriving DecidableEq

/-- How a command reaches replicas. -/
inductive Delivery where
  /-- All of them, in the same order. -/
  | ordered
  /-- One of them. -/
  | unordered
  deriving DecidableEq

/-- What answers unordered commands, with its state `σ`. -/
class Queryable (σ : Type) where
  /-- Submits a command to one replica; its reply. -/
  ask : σ → Bytes → Except SubstrateError Bytes × σ
  /-- The replicas that are there. -/
  view : σ → List ReplicaId

/-- What carries commands, with its state `σ`. -/
class Substrate (σ : Type) extends Queryable σ where
  /-- Submits a command to all replicas; the reply of the majority. -/
  order : σ → Bytes → Except SubstrateError Bytes × σ

/-- Submits a command for delivery. -/
def Substrate.submit {σ : Type} [Substrate σ] (net : σ) (delivery : Delivery) (command : Bytes) :
    Except SubstrateError Bytes × σ :=
  match delivery with
  | .ordered => Substrate.order net command
  | .unordered => Queryable.ask net command

end ReplicatedLedger
