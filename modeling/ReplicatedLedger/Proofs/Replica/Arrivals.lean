import ReplicatedLedger.Proofs.Replica.Steps

/-! # What reaches a replica in either kind of delivery

A replica that is told something unordered answers as if it had been ordered if only a reading of its state is asked
for, refuses all else, and stays as it is but for who leads (`inert`). Even of that nothing is left when the next
command comes, which says itself who leads. So whatever arrives, in any order: the unordered commands in between have no
part in what a replica comes to, nor in what it answers to any other (`hears_receiveAll`). -/

namespace ReplicatedLedger

/-- A command that reaches a replica. -/
structure Arrival where
  delivery : Delivery
  command : Bytes
  stamp : Stamp
  /-- How many replicas there are at that time. -/
  nodes : Nat

/-- Whether it is delivered in order. -/
def Arrival.isOrdered (a : Arrival) : Bool := a.delivery = .ordered

namespace Replica

/-- Takes in a command. -/
def receive (r : Replica) (a : Arrival) : Reply × Replica := r.deliver a.delivery a.command a.stamp a.nodes

/-- The replica after it took in commands one after another. -/
def receiveAll (r : Replica) (as : List Arrival) : Replica := as.foldl (fun r a => (r.receive a).2) r

theorem receiveAll_cons (r : Replica) (a : Arrival) (as : List Arrival) :
    r.receiveAll (a :: as) = (r.receive a).2.receiveAll as := rfl

variable {r s : Replica} {command : Bytes} {stamp : Stamp} {nodes : Nat}

/-! ### One command -/

theorem answer_of_not_isReadOnly {request : Request} (h : request.isReadOnly = false) (r : Replica) (nodes : Nat) :
    r.answer nodes request = .bool false := by
  cases request with
  | add raw | addBatch raws => rfl
  | _ => cases h

theorem serve_of_isReadOnly {request : Request} (h : request.isReadOnly = true) (r : Replica) (nodes : Nat) :
    r.serve nodes request = (r.answer nodes request, r) := by
  cases request with
  | add raw | addBatch raws => cases h
  | _ => rfl

/-- What comes of an unordered command. -/
structure Inert (r : Replica) (command : Bytes) (stamp : Stamp) (nodes : Nat) : Prop where
  /-- Nothing changes but who is remembered to lead. -/
  state : (r.deliver .unordered command stamp nodes).2 = r.observe stamp.leader
  undecodable : ∀ e, Message.decode command = .error e →
    (r.deliver .unordered command stamp nodes).1 = .error e.message
  proposal : ∀ sender b, Message.decode command = .ok (.proposal sender b) →
    (r.deliver .unordered command stamp nodes).1 = .bool false
  submission : ∀ request, Message.decode command = .ok (.client request) → request.isReadOnly = false →
    (r.deliver .unordered command stamp nodes).1 = .bool false
  /-- A reading of the state is the same in order. -/
  reading : ∀ request, Message.decode command = .ok (.client request) → request.isReadOnly = true →
    r.deliver .unordered command stamp nodes = r.deliver .ordered command stamp nodes

theorem inert (r : Replica) (command : Bytes) (stamp : Stamp) (nodes : Nat) : r.Inert command stamp nodes where
  state := r.deliver_unordered command stamp nodes
  undecodable e he := by simp only [deliver, he]
  proposal sender b hb := by simp only [deliver, hb, handle]
  submission request hrequest hwrites := by
    simp only [deliver, hrequest, handle]
    exact answer_of_not_isReadOnly hwrites _ _
  reading request hrequest hreads := by
    simp only [deliver, hrequest, handle]
    exact (serve_of_isReadOnly hreads _ _).symm

/-! ### Many commands -/

/-- Every command says itself who leads. -/
theorem receive_observe (r : Replica) (leader : ReplicaId) (a : Arrival) : (r.observe leader).receive a = r.receive a :=
  rfl

theorem Hears.receive (h : r.Hears s) (a : Arrival) : s.receive a = r.receive a := by
  obtain ⟨leader, rfl⟩ := h
  exact r.receive_observe leader a

/-- **What arrives unordered** in between leaves the replica as it would be without, but for who leads. -/
theorem hears_receiveAll (h : r.Hears s) (as : List Arrival) :
    (r.receiveAll (as.filter Arrival.isOrdered)).Hears (s.receiveAll as) := by
  induction as generalizing r s with
  | nil => exact h
  | cons a as ih =>
    by_cases hordered : a.isOrdered = true
    · rw [List.filter_cons_of_pos hordered, receiveAll_cons, receiveAll_cons, h.receive]
      exact ih (.refl _)
    · rw [List.filter_cons_of_neg hordered, receiveAll_cons]
      refine ih ?_
      have hunordered : a.delivery = .unordered := by
        cases hdelivery : a.delivery with
        | unordered => rfl
        | ordered => exact absurd (decide_eq_true hdelivery) hordered
      rw [receive, hunordered, deliver_unordered]
      exact h.observe _

/-- **Unordered delivery.** Whatever bytes a replica is given unordered, in whatever state: it stays as it is but for
who leads, answers a reading of its state as in ordered delivery, and refuses all else. And after commands in any kind
of delivery it answers, and comes to be, what it would if the unordered ones had not come. -/
theorem unordered_without_effect (r : Replica) (command : Bytes) (stamp : Stamp) (nodes : Nat) :
    r.Inert command stamp nodes ∧
    ∀ as : List Arrival, (r.receiveAll (as.filter Arrival.isOrdered)).Hears (r.receiveAll as) ∧
      ∀ a : Arrival, (r.receiveAll as).receive a = (r.receiveAll (as.filter Arrival.isOrdered)).receive a := by
  refine ⟨r.inert command stamp nodes, fun as => ?_⟩
  have hhears := hears_receiveAll (.refl r) as
  exact ⟨hhears, hhears.receive⟩

end Replica

end ReplicatedLedger
