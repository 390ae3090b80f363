import ReplicatedLedger.Sync.Range

/-! # Scripted substrates

A substrate that answers submissions from a list prepared beforehand and keeps what was submitted. When the
list is used up there is no replica to answer. -/

namespace ReplicatedLedger

/-- A substrate with prepared answers. -/
structure Scripted where
  /-- The answers to come. -/
  answers : List (Except SubstrateError Bytes)
  /-- What was submitted, the last first. -/
  sent : List (Delivery × Bytes)
  /-- The replicas that are there. -/
  view : List ReplicaId

namespace Scripted

/-- The substrate with the given answers and replicas. -/
def ofList (answers : List (Except SubstrateError Bytes)) (view : List ReplicaId) : Scripted :=
  ⟨answers, [], view⟩

/-- Takes the next answer. -/
def submit (s : Scripted) (delivery : Delivery) (command : Bytes) :
    Except SubstrateError Bytes × Scripted :=
  (s.answers.headD (.error .noReplicas),
    { s with answers := s.answers.tail, sent := (delivery, command) :: s.sent })

instance : Substrate Scripted where
  ask s := s.submit .unordered
  view := Scripted.view
  order s := s.submit .ordered

end Scripted

end ReplicatedLedger
