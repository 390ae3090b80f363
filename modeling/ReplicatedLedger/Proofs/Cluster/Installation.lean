import ReplicatedLedger.Proofs.Cluster.Snapshots
import ReplicatedLedger.Proofs.Codec.Limits
import ReplicatedLedger.Proofs.Pool.Firsts

/-! # Installing a snapshot, or nothing

A snapshot is the whole pool: it is read back as the queue and the index that it was taken of, unless a transaction is
larger than the reader's limit, and then it is refused (`Pool.Reachable.restores`). To install bytes, whatever they are,
is one step or none: either they are no list of transactions and the cluster stays as it is, or the replica has the
transactions of the list, and no candidate. Nothing that follows, neither loading the ledger nor catching up, touches
that again, whoever leads the cluster and whatever it answers (`installs`). -/

namespace ReplicatedLedger

open Wire
open Transaction (firsts)

/-! ### Reading a snapshot -/

/-- What comes of reading the snapshot of a pool with a limit. -/
structure Pool.Restores (p : Pool) (max : Nat) : Prop where
  /-- Without a transaction that is too large all is as it was. -/
  restored : (∀ t ∈ p.queue, t.size ≤ max) →
    ∃ q, ofSnapshot p.snapshot max = .ok q ∧ q.queue = p.queue ∧ q.index.Equiv p.index
  /-- One that is too large is named. -/
  refused : (∃ t ∈ p.queue, max < t.size) →
    ∃ t ∈ p.queue, max < t.size ∧ ofSnapshot p.snapshot max = .error (.tooLarge t.size max)

theorem Pool.Reachable.restores {p : Pool} (hp : p.Reachable) (hnumber : FitsSize p.queue.length)
    (hfits : ∀ t ∈ p.queue, t.Fits) (max : Nat) : p.Restores max where
  restored hsizes := by
    obtain ⟨q, hq, hqueue⟩ := (exists_ofSnapshot_iff hp.consistent hfits hsizes).mpr hnumber
    have hsame := contains_congr (reachable_ofSnapshot hq).consistent hp.consistent hqueue
    exact ⟨q, hq, hqueue, .of_forall_contains_eq hsame⟩
  refused hlarge := by
    have hsome : (p.queue.find? fun t => decide (max < t.size)).isSome := by simpa [List.find?_isSome] using hlarge
    obtain ⟨t, hfirst⟩ := Option.isSome_iff_exists.mp hsome
    refine ⟨t, List.mem_of_find?_eq_some hfirst, by simpa using List.find?_some hfirst, ?_⟩
    rw [ofSnapshot, snapshot, Transaction.decodeList_encodeList_of_find? hnumber hfits hfirst]
    rfl

/-! ### What a replica keeps -/

theorem Replica.Refills.refl (r : Replica) : r.Refills r := ⟨rfl, rfl, rfl⟩

theorem Replica.Refills.trans {r s t : Replica} (h : r.Refills s) (h' : s.Refills t) : r.Refills t :=
  ⟨h'.id.trans h.id, h'.pool.trans h.pool, h'.pending.trans h.pending⟩

namespace Cluster

variable {c d : Cluster} {host : ReplicaId} {r : Replica}

/-- Every replica is still there, and differs in its ledger at most, and in who it thinks leads. -/
def Refills (c d : Cluster) : Prop := ∀ k r, c.replica? k = some r → ∃ s, d.replica? k = some s ∧ r.Refills s

theorem Refills.refl (c : Cluster) : c.Refills c := fun _ r hr => ⟨r, hr, .refl r⟩

theorem Refills.updateReplica {α : Type} (h : c.Refills d) {f : Replica → α × Replica}
    (hf : ∀ r : Replica, r.Refills (f r).2) (host : ReplicaId) (a : α) : c.Refills (d.updateReplica host f a).2 := by
  intro k r hr
  obtain ⟨s, hs, hrefills⟩ := h k r hr
  rw [replica?_updateReplica]
  split_ifs with hk
  · rw [← hk, hs]
    exact ⟨(f s).2, rfl, hrefills.trans (hf s)⟩
  · exact ⟨s, hs, hrefills⟩

/-- **Whoever leads**, a replica or not: who is asked keeps its pool and its candidate. -/
theorem Refills.askLeader (h : c.Refills d) (command : Bytes) : c.Refills (d.askLeader command).2 := by
  unfold Cluster.askLeader
  cases d.member? d.leader with
  | none => exact h
  | some member =>
    cases member with
    | replica host =>
      refine h.updateReplica (f := d.told .unordered command ⟨d.clock, [], d.leader⟩) (fun s => ?_) host []
      rw [told, Replica.deliver_unordered]
      exact ⟨rfl, rfl, rfl⟩
    | standIn id =>
      dsimp only [tell]
      cases d.standIns.get? id <;> exact h

theorem Refills.reload (h : c.Refills d) (host : ReplicaId) : c.Refills (d.reload host).2 :=
  h.updateReplica (fun _ => ⟨rfl, rfl, rfl⟩) host _

/-- **Catching up** touches no pool and no candidate. -/
theorem Refills.catchUp (h : c.Refills d) (host : ReplicaId) : c.Refills (d.catchUp host) :=
  catchUp_keeps (fun _ command he => he.askLeader command)
    (fun _ _ he => he.updateReplica (fun _ => ⟨rfl, rfl, rfl⟩) host _) (fun _ he => he.reload host) h

/-! ### Installing -/

/-- What installing bytes does to the replica of a host. -/
structure Installs (c : Cluster) (host : ReplicaId) (r : Replica) (d : Bytes) : Prop where
  /-- What is no list of transactions has no effect at all. -/
  refused : ∀ e, Transaction.decodeList d r.settings.maxSize = .error e → c.installSnapshot host d = c
  /-- The pool is that of the list, later duplicates dropped, and there is no candidate. -/
  installed : ∀ ts, Transaction.decodeList d r.settings.maxSize = .ok ts →
    ∃ s, (c.installSnapshot host d).replica? host = some s ∧ s.id = r.id ∧ s.pool.queue = firsts ts ∧
      (∀ h, s.pool.contains h = true ↔ h ∈ ts.map (·.hash)) ∧ s.pending = none

theorem installs (hr : c.replica? host = some r) (d : Bytes) : c.Installs host r d where
  refused e herror := by
    simp only [installSnapshot, hr, Pool.ofSnapshot, herror, Except.map]
  installed ts hok := by
    have hrefills := ((Refills.refl (c.setReplica host { r with pool := .ofList ts, pending := none })).reload
      host).catchUp host
    obtain ⟨s, hs, hkept⟩ := hrefills host _ (by rw [replica?_setReplica, if_pos rfl])
    refine ⟨s, ?_, hkept.id, ?_, fun h => ?_, hkept.pending⟩
    · simp only [installSnapshot, hr, Pool.ofSnapshot, hok, Except.map]
      exact hs
    · rw [hkept.pool, Pool.queue_ofList]
    · rw [hkept.pool, Pool.contains_ofList]

/-- **Snapshots.** For every pool that can be reached, of transactions whose number and lengths four bytes hold: its
snapshot is read back as the same queue and index if no transaction is too large for the reader, and refused otherwise.
And whatever bytes a replica is given, in whatever cluster: either they are refused and nothing changes, or its pool is
that of the transactions read, and it has no candidate. -/
theorem snapshot_restored_or_refused :
    (∀ p : Pool, p.Reachable → FitsSize p.queue.length → (∀ t ∈ p.queue, t.Fits) → ∀ max, p.Restores max) ∧
    ∀ (c : Cluster) (host : ReplicaId) (r : Replica) (d : Bytes), c.replica? host = some r → c.Installs host r d :=
  ⟨fun _ hp hnumber hfits max => hp.restores hnumber hfits max, fun _ _ _ d hr => installs hr d⟩

/-- A pool of two transactions. -/
def two : Pool := (Pool.empty.addBatch [slim, wide]).2

theorem reachable_two : two.Reachable := .addBatch .empty [slim, wide]

theorem queue_two : two.queue = [slim, wide] := by decide +kernel

/-- The longer of two transactions is refused by a reader that takes the other; a replica that is given the other one
twice has it once, and one that is given no list stays as it is. -/
theorem snapshot_restored_or_refused_two :
    (∃ q, Pool.ofSnapshot two.snapshot wide.size = .ok q ∧ q.queue = [slim, wide]) ∧
    Pool.ofSnapshot two.snapshot slim.size = .error (.tooLarge wide.size slim.size) ∧
    (∃ s, (alone.installSnapshot 0 (Transaction.encodeList [slim, slim])).replica? 0 = some s ∧
      s.pool.queue = [slim]) ∧
    alone.installSnapshot 0 [] = alone := by
  have hnumber : FitsSize two.queue.length := by
    rw [queue_two]
    decide
  have hfits : ∀ t ∈ two.queue, t.Fits := by
    rw [queue_two]
    decide
  have hmax : (alone.replica? 0).any (fun r => decide (r.settings.maxSize = Transaction.defaultMaxSize)) = true := by
    decide +kernel
  obtain ⟨r, hr, hsettings⟩ := (Option.any_eq_true _ _).mp hmax
  obtain ⟨hrestores, hinstalls⟩ := snapshot_restored_or_refused
  have hrestores := hrestores two reachable_two hnumber hfits
  refine ⟨?_, ?_, ?_, ?_⟩
  · obtain ⟨q, hq, hqueue, -⟩ := (hrestores wide.size).restored (by rw [queue_two]; decide)
    exact ⟨q, hq, hqueue.trans queue_two⟩
  · obtain ⟨t, ht, hsize, hrefused⟩ := (hrestores slim.size).refused ⟨wide, by simp [queue_two], by decide⟩
    rw [queue_two] at ht
    rcases List.mem_pair.mp ht with rfl | rfl
    · exact absurd hsize (Nat.lt_irrefl _)
    · exact hrefused
  · have hdecode : Transaction.decodeList (Transaction.encodeList [slim, slim]) r.settings.maxSize = .ok [slim, slim] := by
      rw [of_decide_eq_true hsettings]
      exact Transaction.decodeList_encodeList (by decide) (by decide) (by decide)
    obtain ⟨s, hs, -, hqueue, -⟩ := (hinstalls alone 0 r _ hr).installed _ hdecode
    exact ⟨s, hs, hqueue.trans (by decide +kernel)⟩
  · exact (hinstalls alone 0 r [] hr).refused _ rfl

end Cluster

end ReplicatedLedger
