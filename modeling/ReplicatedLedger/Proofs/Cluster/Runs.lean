import ReplicatedLedger.Proofs.Cluster.Telling
import ReplicatedLedger.Proofs.Replica.Steps

/-! # Runs of a cluster

The operations on a cluster: requests of clients, changes of the members and of the leader, and attempts
to propose. A cluster that is built up from the empty one by starting and registering replicas is plain,
and stays plain (`Plain.perform`). Until a block is proposed no replica has a candidate
(`Ready.request`). -/

namespace ReplicatedLedger

/-- An operation on a cluster. -/
inductive Cluster.Op where
  /-- A client submits a command. -/
  | request (delivery : Delivery) (command : Bytes)
  | register (id host : ReplicaId)
  | deregister (id : ReplicaId)
  | setLeader (id : ReplicaId)
  /-- A replica is told who leads. -/
  | observe (host leader : ReplicaId)
  /-- A replica attempts to propose a block. -/
  | propose (host : ReplicaId)

/-- A client submits a transaction. -/
def Cluster.Op.submit (t : Transaction) : Op := .request .ordered (Message.client (.add t.encode)).encode

/-- A client orders no proposal. -/
def Cluster.Op.Genuine : Op → Prop
  | request .ordered command => ∀ sender b, Message.decode command ≠ .ok (.proposal sender b)
  | _ => True

namespace Cluster

/-- The cluster after an operation. -/
def perform (c : Cluster) : Op → Cluster
  | .request .ordered command => (c.order command).2
  | .request .unordered command => (c.askLeader command).2
  | .register id host => c.register id host
  | .deregister id => c.deregister id
  | .setLeader id => c.setLeader id
  | .observe host leader => (c.updateReplica host (fun r => ((), r.observe leader)) ()).2
  | .propose host => (c.propose host).2

/-- The cluster after operations. -/
def run (c : Cluster) (ops : List Op) : Cluster := ops.foldl perform c

variable {c d : Cluster}

/-! ### What an operation does to the replicas -/

/-- An unordered command goes to a single replica, and says who leads. -/
theorem askLeader_cases (hplain : ∀ e ∈ c.members.entries, ∃ host, e.2 = .replica host) (command : Bytes) :
    (c.askLeader command).2 = c ∨ ∃ host stamp, stamp.leader = c.leader ∧
      (c.askLeader command).2 = (c.updateReplica host (c.told .unordered command stamp) []).2 := by
  unfold askLeader
  cases hmember : c.member? c.leader with
  | none => exact Or.inl rfl
  | some m =>
    obtain ⟨hget, -⟩ := Option.filter_eq_some_iff.mp hmember
    obtain ⟨host, rfl⟩ := hplain _ ((c.members.get?_eq_some_iff).mp hget)
    exact Or.inr ⟨host, ⟨c.clock, [], c.leader⟩, rfl, rfl⟩

section

variable {P : ReplicaId → Replica → Prop} (hplain : ∀ e ∈ c.members.entries, ∃ host, e.2 = .replica host)
  (hdeliver : ∀ k r delivery command stamp nodes, P k r → P k (r.deliver delivery command stamp nodes).2)
  (hopen : ∀ k r, P k r → P k r.openProposal.2)
  (hsettle : ∀ k r answer, P k r → P k (r.settleProposal answer).2)
  (h : ∀ k r, c.replica? k = some r → P k r)

include hplain hdeliver hopen hsettle h

theorem propose_invariant (host : ReplicaId) : ∀ k r, (c.propose host).2.replica? k = some r → P k r := by
  have hproposed := c.proposed host
  generalize c.propose host = x at hproposed
  cases hproposed with
  | noReplica hr => exact h
  | unsubmitted r outcome hr hopened => exact forall_setReplica h (hopen host r (h host r hr))
  | submitted r message hr hopened =>
    have hstart := forall_setReplica h (hopen host r (h host r hr))
    have htold := (order_invariant (c := c.setReplica host r.openProposal.2) hplain
      (fun k r nodes hr => hdeliver k r _ message.encode _ nodes hr) hstart).2
    exact forall_updateReplica htold _ (fun s hs => hsettle host s _ hs) _

/-- **An operation** keeps what deliveries, the beginnings and the ends of proposals and remembering a
leader keep. -/
theorem perform_invariant (hobserve : ∀ k r leader, P k r → P k (r.observe leader)) (op : Op) :
    ∀ k r, (c.perform op).replica? k = some r → P k r := by
  cases op with
  | request delivery command =>
    cases delivery with
    | ordered => exact (order_invariant hplain (fun k r nodes hr => hdeliver k r _ _ _ nodes hr) h).2
    | unordered =>
      rcases askLeader_cases hplain command with heq | ⟨host, stamp, -, heq⟩
      · simp only [perform, heq]
        exact h
      · simp only [perform, heq]
        exact forall_updateReplica h (c.told .unordered command stamp)
          (fun r hr => hdeliver host r _ _ _ _ hr) []
  | register id host => exact h
  | deregister id => exact h
  | setLeader id => exact h
  | observe host leader => exact forall_updateReplica h _ (fun r hr => hobserve host r leader hr) ()
  | propose host => exact propose_invariant hplain hdeliver hopen hsettle h host

end

/-! ### Plain clusters -/

theorem plain_empty (leader : ReplicaId) : (empty leader).Plain :=
  ⟨fun _ he => (by cases he), fun _ _ h => (by cases h)⟩

theorem replica?_setHost_stopped (c : Cluster) (id k : ReplicaId) (settings : Settings) (dir : Directory) :
    (c.setHost id (.stopped settings dir)).replica? k = if k = id then none else c.replica? k := by
  simp only [replica?, setHost, SortedMap.get?_insert]
  split_ifs <;> rfl

/-- A property of the replicas that one that starts has. -/
theorem forall_start {P : ReplicaId → Replica → Prop} (h : ∀ k r, c.replica? k = some r → P k r)
    (id : ReplicaId) (settings : Settings) (dir : Directory)
    (hstart : ∀ r dir', Replica.start id settings c.leader dir = (.ok r, dir') → P id r) :
    ∀ k r, (c.start id settings dir).2.replica? k = some r → P k r := by
  intro k r hr
  unfold start at hr
  split at hr
  · rw [replica?_setHost_stopped] at hr
    split_ifs at hr
    exact h k r hr
  · rename_i hok
    rw [replica?_setReplica] at hr
    split_ifs at hr with hk
    · cases hr
      exact hk ▸ hstart _ _ hok
    · exact h k r hr

theorem Plain.start (h : c.Plain) (id : ReplicaId) (settings : Settings) (dir : Directory) :
    (c.start id settings dir).2.Plain := by
  have hmembers : (c.start id settings dir).2.members = c.members := by
    unfold Cluster.start
    split <;> rfl
  refine ⟨hmembers ▸ h.members, forall_start h.ids id settings dir fun r dir' hstart => ?_⟩
  exact (Replica.start_eq_ok hstart).1

/-- **An attempt to propose** changes nothing but the replicas, unless a proposal was delivered: then
the clock has ticked. -/
theorem sameNet_propose (hplain : ∀ e ∈ c.members.entries, ∃ host, e.2 = .replica host) (host : ReplicaId) :
    c.SameNet (c.propose host).2 ∨ c.tick.SameNet (c.propose host).2 := by
  have hproposed := c.proposed host
  generalize c.propose host = x at hproposed
  cases hproposed with
  | noReplica hr => exact Or.inl (.refl c)
  | unsubmitted r outcome hr hopen => exact Or.inl (sameNet_setReplica hr _)
  | submitted r message hr hopen =>
    have hopened := sameNet_setReplica hr r.openProposal.2
    have htold := hopened.tick.trans
      (sameNet_order (c := c.setReplica host r.openProposal.2) hplain message.encode)
    exact Or.inr (htold.trans (sameNet_updateReplica _ host _ _))

theorem members_perform (h : ∀ e ∈ c.members.entries, ∃ host, e.2 = .replica host) (op : Op) :
    ∀ e ∈ (c.perform op).members.entries, ∃ host, e.2 = .replica host := by
  cases op with
  | request delivery command =>
    cases delivery with
    | ordered =>
      simp only [perform, (sameNet_order h command).members]
      exact h
    | unordered =>
      rcases askLeader_cases h command with heq | ⟨host, stamp, -, heq⟩
      · simp only [perform, heq]
        exact h
      · simp only [perform, heq, (sameNet_updateReplica c host _ _).members]
        exact h
  | register id host =>
    intro e he
    rcases SortedMap.mem_insertEntry he with rfl | hold
    · exact ⟨host, rfl⟩
    · exact h e hold
  | deregister id => exact fun e he => h e (List.mem_of_mem_filter he)
  | setLeader id => exact h
  | observe host leader =>
    simp only [perform, (sameNet_updateReplica c host _ _).members]
    exact h
  | propose host =>
    rcases sameNet_propose h host with hnet | hnet
    · simp only [perform, hnet.members]
      exact h
    · simp only [perform, hnet.members]
      exact h

/-- The leader stays unless it is changed, the same hosts run replicas, and the others stay as they are. -/
theorem steady_perform (hplain : c.Plain) (op : Op) :
    ((∀ id, op ≠ .setLeader id) → (c.perform op).leader = c.leader) ∧
      (∀ k, ((c.perform op).replica? k).isSome = (c.replica? k).isSome) ∧
      ∀ k, c.replica? k = none → (c.perform op).hosts.get? k = c.hosts.get? k := by
  cases op with
  | request delivery command =>
    cases delivery with
    | ordered =>
      have hnet := sameNet_order hplain.members command
      exact ⟨fun _ => hnet.leader, hnet.running, hnet.stopped⟩
    | unordered =>
      rcases askLeader_cases hplain.members command with heq | ⟨host, stamp, -, heq⟩
      · rw [Cluster.perform, heq]
        exact ⟨fun _ => rfl, fun _ => rfl, fun _ _ => rfl⟩
      · have hnet := sameNet_updateReplica c host (c.told .unordered command stamp) []
        rw [Cluster.perform, heq]
        exact ⟨fun _ => hnet.leader, hnet.running, hnet.stopped⟩
  | register id host => exact ⟨fun _ => rfl, fun _ => rfl, fun _ _ => rfl⟩
  | deregister id => exact ⟨fun _ => rfl, fun _ => rfl, fun _ _ => rfl⟩
  | setLeader id => exact ⟨fun hother => absurd rfl (hother id), fun _ => rfl, fun _ _ => rfl⟩
  | observe host leader =>
    have hnet := sameNet_updateReplica c host (fun r => ((), r.observe leader)) ()
    exact ⟨fun _ => hnet.leader, hnet.running, hnet.stopped⟩
  | propose host =>
    rcases sameNet_propose hplain.members host with hnet | hnet
    · exact ⟨fun _ => hnet.leader, hnet.running, hnet.stopped⟩
    · exact ⟨fun _ => hnet.leader, hnet.running, hnet.stopped⟩

/-- **Every operation** keeps a cluster plain. -/
theorem Plain.perform (h : c.Plain) (op : Op) : (c.perform op).Plain := by
  refine ⟨members_perform h.members op, ?_⟩
  exact perform_invariant (P := fun k r => r.id = k) h.members
    (fun k r delivery command stamp nodes hr => (r.id_deliver delivery command stamp nodes).trans hr)
    (fun k r hr => r.id_openProposal.trans hr) (fun k r answer hr => (r.id_settleProposal answer).trans hr)
    h.ids (fun k r leader hr => hr) op

theorem Plain.run (h : c.Plain) (ops : List Op) : (c.run ops).Plain := by
  induction ops generalizing c with
  | nil => exact h
  | cons op ops ih => exact ih (h.perform op)

/-! ### Clusters without candidates -/

/-- No replica has a candidate, and all pools are such as can be reached. -/
def Ready (c : Cluster) : Prop := ∀ k r, c.replica? k = some r → r.pending = none ∧ r.pool.Reachable

theorem ready_empty (leader : ReplicaId) : (empty leader).Ready := fun _ _ h => by cases h

theorem Ready.start (h : c.Ready) (id : ReplicaId) (settings : Settings) (dir : Directory) :
    (c.start id settings dir).2.Ready := by
  refine forall_start h id settings dir fun r dir' hstart => ?_
  obtain ⟨-, hpool, hpending⟩ := Replica.start_eq_ok hstart
  exact ⟨hpending, hpool ▸ .empty⟩

/-- **Requests of clients** make no candidates. -/
theorem Ready.request (h : c.Ready) (hplain : ∀ e ∈ c.members.entries, ∃ host, e.2 = .replica host)
    {command : Bytes} (hgenuine : (Op.request .ordered command).Genuine) :
    (c.perform (.request .ordered command)).Ready := by
  refine (order_invariant (P := fun _ r => r.pending = none ∧ r.pool.Reachable) hplain ?_ h).2
  rintro k r nodes ⟨hpending, hpool⟩
  have hdelivered := r.delivered .ordered command c.tick.stamp nodes
  generalize r.deliver .ordered command c.tick.stamp nodes = x at hdelivered
  cases hdelivered with
  | idle reply hno => exact ⟨hpending, hpool⟩
  | queued ts reply hno => exact ⟨hpending, hpool.addBatch ts⟩
  | own b hok hleads => exact absurd hok (hgenuine _ _)
  | known b hok hother hagrees => exact absurd hok (hgenuine _ _)
  | considered b hok hother hnew => exact absurd hok (hgenuine _ _)

/-! ### Small clusters -/

/-- Starts replicas over empty directories. -/
def startAll (c : Cluster) (settings : Settings) (hosts : List ReplicaId) : Cluster :=
  hosts.foldl (fun c k => (c.start k settings .fresh).2) c

theorem Plain.startAll (h : c.Plain) (settings : Settings) (hosts : List ReplicaId) :
    (c.startAll settings hosts).Plain := by
  induction hosts generalizing c with
  | nil => exact h
  | cons k hosts ih => exact ih (h.start k settings _)

theorem Ready.startAll (h : c.Ready) (settings : Settings) (hosts : List ReplicaId) :
    (c.startAll settings hosts).Ready := by
  induction hosts generalizing c with
  | nil => exact h
  | cons k hosts ih => exact ih (h.start k settings _)

/-- Replicas on the given hosts that propose blocks of one transaction. Those on the hosts 0 and 1 are
members. -/
def pair (hosts : List ReplicaId) : Cluster :=
  (((empty 0).startAll { Settings.standard with proposals := ⟨1, 1⟩ } hosts).register 0 0).register 1 1

theorem plain_pair (hosts : List ReplicaId) : (pair hosts).Plain :=
  (((plain_empty 0).startAll _ hosts).perform (.register 0 0)).perform (.register 1 1)

theorem ready_pair (hosts : List ReplicaId) : (pair hosts).Ready := (ready_empty 0).startAll _ hosts

/-- A client submits a transaction. -/
def submission : Op := .request .ordered (Message.client (.add Block.genesisTransaction.encode)).encode

/-- A client's submission proposes no block. -/
theorem genuine_add {raw : Bytes} (hraw : Wire.FitsSize raw.length) :
    (Op.request .ordered (Message.client (.add raw)).encode).Genuine := by
  intro sender b h
  have hfits : (Message.client (.add raw)).Fits := hraw
  rw [Message.decode_encode hfits] at h
  cases h

theorem genuine_submission : submission.Genuine := genuine_add (by decide +kernel)

end Cluster

end ReplicatedLedger
