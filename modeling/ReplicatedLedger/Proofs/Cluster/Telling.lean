import ReplicatedLedger.Cluster.Round
import ReplicatedLedger.Proofs.Codec.Message
import ReplicatedLedger.Proofs.Maps

/-! # What an ordered command does to a cluster of replicas

A cluster is plain when its members are replicas and each host runs the replica of its own id. In a
plain cluster an ordered command changes nothing but the replicas and the clock, and whatever every
delivery keeps holds of every replica in the end (`order_invariant`). If the answer is an
acknowledgement, then a majority of the live members gave it, and what follows from having given it
holds of them (`majority_of_accepts`). -/

namespace ReplicatedLedger.Cluster

/-- All members are replicas, each on the host of its own id. -/
structure Plain (c : Cluster) : Prop where
  members : ∀ e ∈ c.members.entries, ∃ host, e.2 = .replica host
  ids : ∀ host r, c.replica? host = some r → r.id = host

/-- Nothing differs but the replicas, the servers and the outcomes of hooks; the same hosts run
replicas, and the others stay as they are. -/
structure SameNet (c d : Cluster) : Prop where
  members : d.members = c.members
  standIns : d.standIns = c.standIns
  leader : d.leader = c.leader
  clock : d.clock = c.clock
  sequence : d.sequence = c.sequence
  running : ∀ host, (d.replica? host).isSome = (c.replica? host).isSome
  stopped : ∀ host, c.replica? host = none → d.hosts.get? host = c.hosts.get? host

variable {c d e : Cluster}

theorem SameNet.refl (c : Cluster) : c.SameNet c := ⟨rfl, rfl, rfl, rfl, rfl, fun _ => rfl, fun _ _ => rfl⟩

theorem SameNet.trans (h : c.SameNet d) (h' : d.SameNet e) : c.SameNet e where
  members := h'.members.trans h.members
  standIns := h'.standIns.trans h.standIns
  leader := h'.leader.trans h.leader
  clock := h'.clock.trans h.clock
  sequence := h'.sequence.trans h.sequence
  running host := (h'.running host).trans (h.running host)
  stopped host hc := by
    have hd : d.replica? host = none := by
      rw [← Option.not_isSome_iff_eq_none, h.running, hc]
      exact Bool.false_ne_true
    exact (h'.stopped host hd).trans (h.stopped host hc)

/-- The same members are there. -/
theorem SameNet.live_eq (h : c.SameNet d) : d.live = c.live := by
  unfold live
  rw [h.members]
  refine List.filter_congr fun e _ => ?_
  unfold isLive
  cases e.2 with
  | replica host => exact h.running host
  | standIn id => rw [h.standIns]

/-! ### Replacing a replica -/

theorem replica?_setReplica (c : Cluster) (host k : ReplicaId) (r : Replica) :
    (c.setReplica host r).replica? k = if k = host then some r else c.replica? k := by
  simp only [replica?, setReplica, setHost, SortedMap.get?_insert]
  split_ifs <;> rfl

theorem updateReplica_of_some {α : Type} {host : ReplicaId} {r : Replica} (h : c.replica? host = some r)
    (f : Replica → α × Replica) (a : α) :
    c.updateReplica host f a = ((f r).1, c.setReplica host (f r).2) := by
  simp only [updateReplica, h]

theorem updateReplica_of_none {α : Type} {host : ReplicaId} (h : c.replica? host = none)
    (f : Replica → α × Replica) (a : α) : c.updateReplica host f a = (a, c) := by
  simp only [updateReplica, h]

/-- Only the replica of the host changes. -/
theorem replica?_updateReplica {α : Type} (c : Cluster) (host k : ReplicaId)
    (f : Replica → α × Replica) (a : α) : (c.updateReplica host f a).2.replica? k =
      if k = host then (c.replica? host).map fun r => (f r).2 else c.replica? k := by
  cases h : c.replica? host with
  | none =>
    rw [updateReplica_of_none h]
    split_ifs with hk
    · rw [hk, h]
      rfl
    · rfl
  | some r =>
    rw [updateReplica_of_some h, replica?_setReplica]
    rfl

theorem sameNet_setReplica {host : ReplicaId} {r : Replica} (h : c.replica? host = some r) (s : Replica) :
    c.SameNet (c.setReplica host s) := by
  refine ⟨rfl, rfl, rfl, rfl, rfl, fun k => ?_, fun k hnone => ?_⟩
  · rw [replica?_setReplica]
    split_ifs with hk
    · rw [hk, h, Option.isSome_some, Option.isSome_some]
    · rfl
  · have hk : k ≠ host := fun he => by
      rw [he, h] at hnone
      cases hnone
    rw [setReplica, setHost, SortedMap.get?_insert, if_neg hk]

theorem sameNet_updateReplica {α : Type} (c : Cluster) (host : ReplicaId)
    (f : Replica → α × Replica) (a : α) : c.SameNet (c.updateReplica host f a).2 := by
  cases h : c.replica? host with
  | none =>
    rw [updateReplica_of_none h]
    exact .refl c
  | some r =>
    rw [updateReplica_of_some h]
    exact sameNet_setReplica h _

/-- A property of the replicas that the new one has. -/
theorem forall_setReplica {P : ReplicaId → Replica → Prop} (h : ∀ k r, c.replica? k = some r → P k r)
    {host : ReplicaId} {s : Replica} (hs : P host s) :
    ∀ k r, (c.setReplica host s).replica? k = some r → P k r := by
  intro k r hr
  rw [replica?_setReplica] at hr
  split_ifs at hr with hk
  · cases hr
    exact hk ▸ hs
  · exact h k r hr

/-- A property of the replicas that the change keeps. -/
theorem forall_updateReplica {α : Type} {P : ReplicaId → Replica → Prop} {host : ReplicaId}
    (h : ∀ k r, c.replica? k = some r → P k r) (f : Replica → α × Replica)
    (hf : ∀ r, P host r → P host (f r).2) (a : α) :
    ∀ k r, (c.updateReplica host f a).2.replica? k = some r → P k r := by
  cases hr : c.replica? host with
  | none =>
    rw [updateReplica_of_none hr]
    exact h
  | some r =>
    rw [updateReplica_of_some hr]
    exact forall_setReplica h (hf r (h host r hr))

/-! ### Telling all members -/

/-- Whether the member is a replica of which a test holds. -/
def holds (c : Cluster) (test : ReplicaId → Replica → Bool) : Member → Bool
  | .replica host => (c.replica? host).any (test host)
  | .standIn _ => false

section

variable {command : Bytes} {stamp : Stamp} {ms : List Member} {P : ReplicaId → Replica → Prop}
  (hms : ∀ m ∈ ms, ∃ host, m = .replica host)
  (hstep : ∀ k r nodes, P k r → P k (r.deliver .ordered command stamp nodes).2)
  (h : ∀ k r, c.replica? k = some r → P k r)

/-- What becomes of a replica that is told, with its reply. -/
def told (c : Cluster) (delivery : Delivery) (command : Bytes) (stamp : Stamp) (r : Replica) :
    Bytes × Replica :=
  ((r.deliver delivery command stamp c.view.length).1.encode,
    (r.deliver delivery command stamp c.view.length).2)

/-- A replica is told, and then the others. -/
theorem tellAll_cons_replica (c : Cluster) (host : ReplicaId) (ms : List Member) :
    tellAll command stamp (.replica host :: ms) c =
      ((c.updateReplica host (c.told .ordered command stamp) []).1 ::
          (tellAll command stamp ms (c.updateReplica host (c.told .ordered command stamp) []).2).1,
        (tellAll command stamp ms (c.updateReplica host (c.told .ordered command stamp) []).2).2) := rfl

include hstep h in
theorem forall_updateReplica_told (host : ReplicaId) :
    ∀ k r, (c.updateReplica host (c.told .ordered command stamp) []).2.replica? k = some r → P k r :=
  forall_updateReplica h (c.told .ordered command stamp) (fun r hr => hstep host r _ hr) []

include hms hstep h

/-- **Telling all members** keeps what every delivery keeps. -/
theorem tellAll_invariant : c.SameNet (tellAll command stamp ms c).2 ∧
    ∀ k r, (tellAll command stamp ms c).2.replica? k = some r → P k r := by
  induction ms generalizing c with
  | nil => exact ⟨.refl c, h⟩
  | cons m ms ih =>
    obtain ⟨host, rfl⟩ := hms _ List.mem_cons_self
    have hrest : ∀ m ∈ ms, ∃ host, m = .replica host := fun m hm => hms m (List.mem_cons_of_mem _ hm)
    obtain ⟨hsame, hinv⟩ := ih hrest (forall_updateReplica_told hstep h host)
    rw [tellAll_cons_replica]
    exact ⟨(sameNet_updateReplica c host _ _).trans hsame, hinv⟩

/-- Every reply is empty, or one that a replica gives to a delivery. -/
theorem forall_mem_tellAll {R : Bytes → Prop} (hnil : R [])
    (hreply : ∀ k r nodes, P k r → R (r.deliver .ordered command stamp nodes).1.encode) :
    ∀ raw ∈ (tellAll command stamp ms c).1, R raw := by
  induction ms generalizing c with
  | nil => simp [tellAll]
  | cons m ms ih =>
    obtain ⟨host, rfl⟩ := hms _ List.mem_cons_self
    have hrest : ∀ m ∈ ms, ∃ host, m = .replica host := fun m hm => hms m (List.mem_cons_of_mem _ hm)
    rw [tellAll_cons_replica]
    intro raw hraw
    rcases List.mem_cons.mp hraw with rfl | hraw
    · cases hr : c.replica? host with
      | none =>
        rw [updateReplica_of_none hr]
        exact hnil
      | some r =>
        rw [updateReplica_of_some hr]
        exact hreply host r _ (h host r hr)
    · exact ih hrest (forall_updateReplica_told hstep h host) raw hraw

/-- What holds of a replica and is kept by deliveries still holds when the members were told. -/
theorem holds_tellAll {test : ReplicaId → Replica → Bool}
    (hkeep : ∀ k r nodes, P k r → test k r = true → test k (r.deliver .ordered command stamp nodes).2 = true)
    {host : ReplicaId} {r : Replica} (hr : c.replica? host = some r) (htest : test host r = true) :
    (tellAll command stamp ms c).2.holds test (.replica host) = true := by
  have hstep' : ∀ k r nodes, (P k r ∧ (k = host → test k r = true)) →
      P k (r.deliver .ordered command stamp nodes).2 ∧
        (k = host → test k (r.deliver .ordered command stamp nodes).2 = true) := fun k r nodes hk =>
    ⟨hstep k r nodes hk.1, fun he => hkeep k r nodes hk.1 (hk.2 he)⟩
  have h' : ∀ k s, c.replica? k = some s → P k s ∧ (k = host → test k s = true) := by
    refine fun k s hs => ⟨h k s hs, ?_⟩
    rintro rfl
    rw [hr] at hs
    cases hs
    exact htest
  obtain ⟨hsame, hinv⟩ := tellAll_invariant hms hstep' h'
  have hrunning := hsame.running host
  rw [hr, Option.isSome_some, Option.isSome_iff_exists] at hrunning
  obtain ⟨s, hs⟩ := hrunning
  rw [holds, hs]
  exact (hinv host s hs).2 rfl

/-- **The members that give the reply `ack`** are no more than those of which holds, in the end, what
holds of a replica that gives it and is kept by deliveries. -/
theorem count_tellAll_le {test : ReplicaId → Replica → Bool} {ack : Bytes} (hne : ack ≠ [])
    (hack : ∀ k r nodes, P k r → (r.deliver .ordered command stamp nodes).1.encode = ack →
      test k (r.deliver .ordered command stamp nodes).2 = true)
    (hkeep : ∀ k r nodes, P k r → test k r = true →
      test k (r.deliver .ordered command stamp nodes).2 = true) :
    (tellAll command stamp ms c).1.count ack ≤ ms.countP ((tellAll command stamp ms c).2.holds test) := by
  induction ms generalizing c with
  | nil => exact Nat.le_refl _
  | cons m ms ih =>
    obtain ⟨host, rfl⟩ := hms _ List.mem_cons_self
    have hrest : ∀ m ∈ ms, ∃ host, m = .replica host := fun m hm => hms m (List.mem_cons_of_mem _ hm)
    have hnext := forall_updateReplica_told hstep h host
    have hle := ih hrest hnext
    rw [tellAll_cons_replica]
    dsimp only
    by_cases hreply : (c.updateReplica host (c.told .ordered command stamp) []).1 = ack
    · -- what holds of the member now holds of it in the end
      have hholds : (tellAll command stamp ms
          (c.updateReplica host (c.told .ordered command stamp) []).2).2.holds test (.replica host) =
            true := by
        cases hr : c.replica? host with
        | none =>
          rw [updateReplica_of_none hr] at hreply
          exact absurd hreply.symm hne
        | some r =>
          have hs : (c.updateReplica host (c.told .ordered command stamp) []).2.replica? host =
              some (c.told .ordered command stamp r).2 := by
            rw [replica?_updateReplica, if_pos rfl, hr]
            rfl
          rw [updateReplica_of_some hr] at hreply
          exact holds_tellAll hrest hstep hnext hkeep hs (hack host r _ (h host r hr) hreply)
      rw [List.count_cons, List.countP_cons, hholds, if_pos rfl, if_pos (by simpa using hreply)]
      omega
    · rw [List.count_cons_of_ne hreply, List.countP_cons]
      omega

end

/-- A replica that is not told stays as it is. -/
theorem replica?_tellAll_of_notMem {command : Bytes} {stamp : Stamp} {ms : List Member} {k : ReplicaId}
    (hms : ∀ m ∈ ms, ∃ host, m = .replica host) (hk : .replica k ∉ ms) :
    (tellAll command stamp ms c).2.replica? k = c.replica? k := by
  induction ms generalizing c with
  | nil => rfl
  | cons m ms ih =>
    obtain ⟨host, rfl⟩ := hms _ List.mem_cons_self
    have hne : k ≠ host := fun he => hk (he ▸ List.mem_cons_self)
    rw [tellAll_cons_replica, ih (fun m hm => hms m (List.mem_cons_of_mem _ hm))
      fun hmem => hk (List.mem_cons_of_mem _ hmem), replica?_updateReplica, if_neg hne]

/-- **A replica that is told** has what the first delivery gives it and the next ones keep. -/
theorem forall_tellAll_of_mem {command : Bytes} {stamp : Stamp} {ms : List Member} {k : ReplicaId}
    {P Q : Replica → Prop} (hms : ∀ m ∈ ms, ∃ host, m = .replica host)
    (hfirst : ∀ r nodes, P r → Q (r.deliver .ordered command stamp nodes).2)
    (hnext : ∀ r nodes, Q r → Q (r.deliver .ordered command stamp nodes).2)
    (hk : .replica k ∈ ms) (h : ∀ r, c.replica? k = some r → P r) :
    ∀ s, (tellAll command stamp ms c).2.replica? k = some s → Q s := by
  induction ms generalizing c with
  | nil => cases hk
  | cons m ms ih =>
    obtain ⟨host, rfl⟩ := hms _ List.mem_cons_self
    have hrest : ∀ m ∈ ms, ∃ host, m = .replica host := fun m hm => hms m (List.mem_cons_of_mem _ hm)
    rw [tellAll_cons_replica]
    by_cases hhost : k = host
    · -- it is told now, and maybe again
      have hnow : ∀ j s, (c.updateReplica host (c.told .ordered command stamp) []).2.replica? j = some s →
          j = k → Q s := by
        rintro j s hs rfl
        rw [replica?_updateReplica, if_pos hhost] at hs
        obtain ⟨r, hr, rfl⟩ := Option.map_eq_some_iff.mp hs
        exact hfirst r _ (h r (hhost ▸ hr))
      have hend := (tellAll_invariant (P := fun j s => j = k → Q s) hrest
        (fun j s nodes hs hj => hnext s nodes (hs hj)) hnow).2
      exact fun s hs => hend k s hs rfl
    · have hmem : .replica k ∈ ms := (List.mem_cons.mp hk).resolve_left fun he => hhost (Member.replica.inj he)
      refine ih hrest hmem fun r hr => h r ?_
      rwa [replica?_updateReplica, if_neg hhost] at hr

/-- Every member gives one reply. -/
theorem length_tellAll (command : Bytes) (stamp : Stamp) (ms : List Member) (c : Cluster) :
    (tellAll command stamp ms c).1.length = ms.length := by
  induction ms generalizing c with
  | nil => rfl
  | cons m ms ih => exact congrArg Nat.succ (ih _)

section

variable {command : Bytes} {stamp : Stamp} {ms : List Member} {P : ReplicaId → Replica → Prop}
  (hms : ∀ m ∈ ms, ∃ host, m = .replica host)
  (hrunning : ∀ host, .replica host ∈ ms → (c.replica? host).isSome)
  (hstep : ∀ k r nodes, P k r → P k (r.deliver .ordered command stamp nodes).2)
  (h : ∀ k r, c.replica? k = some r → P k r)

include hms hrunning hstep h

/-- Of members that all run every reply is one that a replica gives to a delivery. -/
theorem forall_mem_tellAll_of_running {R : Bytes → Prop}
    (hreply : ∀ k r nodes, .replica k ∈ ms → P k r → R (r.deliver .ordered command stamp nodes).1.encode) :
    ∀ raw ∈ (tellAll command stamp ms c).1, R raw := by
  induction ms generalizing c with
  | nil => exact List.forall_mem_nil _
  | cons m ms ih =>
    obtain ⟨host, rfl⟩ := hms _ List.mem_cons_self
    obtain ⟨r, hr⟩ := Option.isSome_iff_exists.mp (hrunning host List.mem_cons_self)
    have hnet := sameNet_updateReplica c host (c.told .ordered command stamp) []
    rw [tellAll_cons_replica]
    refine List.forall_mem_cons.mpr ⟨?_, ih (fun m hm => hms m (List.mem_cons_of_mem _ hm))
      (fun k hk => (hnet.running k).trans (hrunning k (List.mem_cons_of_mem _ hk)))
      (forall_updateReplica_told hstep h host) fun k s nodes hk => hreply k s nodes (List.mem_cons_of_mem _ hk)⟩
    rw [updateReplica_of_some hr]
    exact hreply host r _ List.mem_cons_self (h host r hr)

/-- **Members that all give the same reply**, whatever they were told before. -/
theorem tellAll_eq_replicate {raw : Bytes}
    (hreply : ∀ k r nodes, .replica k ∈ ms → P k r → (r.deliver .ordered command stamp nodes).1.encode = raw) :
    (tellAll command stamp ms c).1 = List.replicate ms.length raw :=
  List.eq_replicate_iff.mpr
    ⟨length_tellAll command stamp ms c, forall_mem_tellAll_of_running (R := (· = raw)) hms hrunning hstep h hreply⟩

end

theorem majority?_replicate {n : Nat} (hn : n ≠ 0) (raw : Bytes) :
    majority? (List.replicate n raw) = some raw := by
  obtain ⟨n, rfl⟩ := Nat.exists_eq_succ_of_ne_zero hn
  have hmost : (decide (2 * (List.replicate (n + 1) raw).count raw > (List.replicate (n + 1) raw).length)) = true := by
    rw [List.count_replicate_self, List.length_replicate, decide_eq_true_iff]
    omega
  rw [majority?]
  conv_lhs => rw [List.replicate_succ]
  exact List.find?_cons_of_pos hmost

/-! ### Ordering a command -/

/-- The cluster when the next ordered command is delivered. -/
def tick (c : Cluster) : Cluster := { c with clock := c.clock + 1, sequence := c.sequence + 1 }

theorem SameNet.tick (h : c.SameNet d) : c.tick.SameNet d.tick where
  members := h.members
  standIns := h.standIns
  leader := h.leader
  clock := congrArg (· + 1) h.clock
  sequence := congrArg (· + 1) h.sequence
  running := h.running
  stopped := h.stopped

/-- The stamp of the command that is being delivered. -/
def stamp (c : Cluster) : Stamp := ⟨c.clock, Bytes.bigEndian 8 c.sequence.toNat, c.leader⟩

/-- All members that are there are told the command; their replies. -/
def tellLive (c : Cluster) (command : Bytes) : List Bytes × Cluster :=
  tellAll command c.tick.stamp (c.live.map Prod.snd) c.tick

theorem length_tellLive (c : Cluster) (command : Bytes) : (c.tellLive command).1.length = c.live.length := by
  rw [tellLive, length_tellAll, List.length_map]

theorem order_eq (c : Cluster) (command : Bytes) : c.order command =
    if c.live.map Prod.snd = [] then (.error .noReplicas, c.tick)
    else
      match majority? (c.tellLive command).1 with
      | none => (.error (.noQuorum (c.live.map Prod.snd).length), (c.tellLive command).2)
      | some reply => (.ok reply, (c.tellLive command).2) := rfl

theorem order_cases (c : Cluster) (command : Bytes) :
    (c.order command).2 = c.tick ∨ (c.order command).2 = (c.tellLive command).2 := by
  rw [order_eq]
  split_ifs
  · exact Or.inl rfl
  · right
    split <;> rfl

/-- If there is a member then all are told. -/
theorem order_of_mem {m : Member} (hm : m ∈ c.live.map Prod.snd) (command : Bytes) :
    (c.order command).2 = (c.tellLive command).2 := by
  rw [order_eq, if_neg (List.ne_nil_of_mem hm)]
  split <;> rfl

/-- The answer is a reply that more than half gave. -/
theorem order_eq_ok {command raw : Bytes} (hok : (c.order command).1 = .ok raw) :
    (c.order command).2 = (c.tellLive command).2 ∧ raw ∈ (c.tellLive command).1 ∧
      (c.tellLive command).1.length < 2 * (c.tellLive command).1.count raw := by
  rw [order_eq] at hok ⊢
  split_ifs at hok ⊢
  cases hmajority : majority? (c.tellLive command).1 with
  | none => simp [hmajority] at hok
  | some reply =>
    simp only [hmajority] at hok
    cases hok
    unfold majority? at hmajority
    exact ⟨rfl, List.mem_of_find?_eq_some hmajority, by simpa using List.find?_some hmajority⟩

/-- Of the replies that are votes only the acknowledgement is accepted. -/
theorem eq_ack_of_accepts {raw : Bytes} (haccepts : Replica.accepts (.ok raw) = true)
    (hraw : raw = [] ∨ ∃ v, raw = (Reply.bool v).encode) : raw = (Reply.bool true).encode := by
  rcases hraw with rfl | ⟨v, rfl⟩
  · cases haccepts
  · have hdecode : Reply.decode (Reply.bool v).encode = .ok (.bool v) := Reply.decode_encode trivial
    simp only [Replica.accepts, hdecode] at haccepts
    cases v with
    | false => cases haccepts
    | true => rfl

section

variable {command : Bytes} {P : ReplicaId → Replica → Prop}
  (hplain : ∀ e ∈ c.members.entries, ∃ host, e.2 = .replica host)
  (hstep : ∀ k r nodes, P k r → P k (r.deliver .ordered command c.tick.stamp nodes).2)
  (h : ∀ k r, c.replica? k = some r → P k r)

include hplain in
theorem members_of_live : ∀ m ∈ c.live.map Prod.snd, ∃ host, m = .replica host := by
  intro m hm
  obtain ⟨e, he, rfl⟩ := List.mem_map.mp hm
  exact hplain e (List.mem_of_mem_filter he)

include hplain hstep h

/-- **An ordered command** keeps what every delivery keeps. -/
theorem order_invariant : c.tick.SameNet (c.order command).2 ∧
    ∀ k r, (c.order command).2.replica? k = some r → P k r := by
  rcases c.order_cases command with heq | heq
  · rw [heq]
    exact ⟨.refl _, h⟩
  · rw [heq]
    exact tellAll_invariant (c := c.tick) (members_of_live hplain) hstep h

omit hstep h in
theorem sameNet_order (command : Bytes) : c.tick.SameNet (c.order command).2 :=
  (order_invariant (P := fun _ _ => True) hplain (fun _ _ _ _ => trivial) fun _ _ _ => trivial).1

/-- **If the answer to an ordered command accepts it**, then more than half of the members that are
there gave an acknowledgement, so that of more than half of them holds what holds of a replica that
gives one and is kept by deliveries. -/
theorem majority_of_accepts (test : ReplicaId → Replica → Bool)
    (haccepts : Replica.accepts (c.order command).1 = true)
    (hreply : ∀ k r nodes, P k r → ∃ v, (r.deliver .ordered command c.tick.stamp nodes).1 = .bool v ∧
      (v = true → test k (r.deliver .ordered command c.tick.stamp nodes).2 = true))
    (hkeep : ∀ k r nodes, P k r → test k r = true →
      test k (r.deliver .ordered command c.tick.stamp nodes).2 = true) :
    c.live.length < 2 * (c.live.map Prod.snd).countP ((c.order command).2.holds test) := by
  have hms := members_of_live hplain
  have hnil : (Reply.bool true).encode ≠ [] := by decide
  -- all replies are votes or empty, and only one of them is accepted
  have hvote : ∀ k r nodes, P k r → (r.deliver .ordered command c.tick.stamp nodes).1.encode = [] ∨
      ∃ v, (r.deliver .ordered command c.tick.stamp nodes).1.encode = (Reply.bool v).encode := by
    intro k r nodes hr
    obtain ⟨v, hv, -⟩ := hreply k r nodes hr
    exact Or.inr ⟨v, congrArg Reply.encode hv⟩
  have hack : ∀ k r nodes, P k r →
      (r.deliver .ordered command c.tick.stamp nodes).1.encode = (Reply.bool true).encode →
        test k (r.deliver .ordered command c.tick.stamp nodes).2 = true := by
    intro k r nodes hr hencode
    obtain ⟨v, hv, htest⟩ := hreply k r nodes hr
    rw [hv] at hencode
    cases v with
    | true => exact htest rfl
    | false => exact absurd hencode (by decide)
  cases hanswer : (c.order command).1 with
  | error e => simp [hanswer, Replica.accepts] at haccepts
  | ok raw =>
    rw [hanswer] at haccepts
    obtain ⟨heq, hmem, hmajority⟩ := order_eq_ok hanswer
    have hraw : raw = [] ∨ ∃ v, raw = (Reply.bool v).encode :=
      forall_mem_tellAll (c := c.tick) (R := fun raw => raw = [] ∨ ∃ v, raw = (Reply.bool v).encode) hms
        hstep h (Or.inl rfl) hvote raw hmem
    obtain rfl := eq_ack_of_accepts haccepts hraw
    have hle := count_tellAll_le (c := c.tick) hms hstep h hnil hack hkeep
    rw [heq]
    rw [length_tellLive] at hmajority
    unfold tellLive at hmajority ⊢
    omega

end

/-! ### Proposing a block -/

/-- What comes of an open proposal: it is delivered, and the proposer settles with the answer. -/
def conclude (c : Cluster) (host : ReplicaId) (command : Bytes) : ProposalOutcome × Cluster :=
  (c.order command).2.updateReplica host (fun r => r.settleProposal (c.order command).1) (.rejected 0)

/-- What can come of an attempt to propose a block. -/
inductive Proposed (c : Cluster) (host : ReplicaId) : ProposalOutcome × Cluster → Prop where
  /-- No replica runs on the host. -/
  | noReplica (eq_none : c.replica? host = none) : Proposed c host (.notLeader, c)
  /-- Nothing was submitted. -/
  | unsubmitted (r : Replica) (outcome : ProposalOutcome) (eq_some : c.replica? host = some r)
      (opened : r.openProposal.1 = .over outcome) :
      Proposed c host (outcome, c.setReplica host r.openProposal.2)
  /-- The proposer opened, and its message was delivered. -/
  | submitted (r : Replica) (message : Message) (eq_some : c.replica? host = some r)
      (opened : r.openProposal.1 = .submit message) :
      Proposed c host ((c.setReplica host r.openProposal.2).conclude host message.encode)

theorem proposed (c : Cluster) (host : ReplicaId) : c.Proposed host (c.propose host) := by
  cases hr : c.replica? host with
  | none =>
    have heq : c.propose host = (.notLeader, c) := by
      simp only [propose, openProposal, updateReplica_of_none hr]
    exact heq ▸ .noReplica hr
  | some r =>
    match hopen : r.openProposal.1 with
    | .over outcome =>
      have heq : c.propose host = (outcome, c.setReplica host r.openProposal.2) := by
        simp only [propose, openProposal, updateReplica_of_some hr, hopen]
      exact heq ▸ .unsubmitted r outcome hr hopen
    | .submit message =>
      have heq : c.propose host = (c.setReplica host r.openProposal.2).conclude host message.encode := by
        simp only [propose, openProposal, updateReplica_of_some hr, hopen, conclude]
      exact heq ▸ .submitted r message hr hopen

end ReplicatedLedger.Cluster
