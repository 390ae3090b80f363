import ReplicatedLedger.Proofs.Cluster.Execution
import ReplicatedLedger.Proofs.Cluster.Histories
import ReplicatedLedger.Proofs.Cluster.Majority

/-! # Times and sequence numbers

Every submission of an ordered command moves the clock and the sequence number on by one, whether it finds members or
an answer or not, and nothing else moves them: neither a hook during a delivery nor anything that happens to a cluster
in between (`happen_cases`). So over any run the submissions are numbered one after another (`submissions_numbered`),
each carries its number to all members that are there, each of which executes it once for every id, and is answered
with the reply that more than half of them gave (`order_sequenced`). -/

namespace ReplicatedLedger.Cluster

/-! ### Whatever happens -/

/-- What can happen to a cluster. -/
inductive Happening where
  | perform (op : Op)
  | registerStandIn (id : ReplicaId) (x : StandIn)
  | start (id : ReplicaId) (settings : Settings) (dir : Directory)
  | restart (host : ReplicaId) (change : Settings → Settings)
  | stop (host : ReplicaId)
  | serve (servers : SortedMap String ReplicaId)
  /-- Others change a directory; this is what is then in its place. -/
  | disturb (host : ReplicaId) (dir : Directory)
  | catchUp (host : ReplicaId)
  | check (host : ReplicaId)
  | installSnapshot (host : ReplicaId) (snapshot : Bytes)
  | transfer (source target : ReplicaId)

/-- The cluster after something happened. -/
def happen (c : Cluster) : Happening → Cluster
  | .perform op => c.perform op
  | .registerStandIn id x => c.registerStandIn id x
  | .start id settings dir => (c.start id settings dir).2
  | .restart host change => (c.restart host change).2
  | .stop host => c.stop host
  | .serve servers => { c with servers }
  | .disturb host dir =>
    match c.hosts.get? host with
    | none => c
    | some x => c.setHost host (x.withDir dir)
  | .catchUp host => c.catchUp host
  | .check host => (c.check host).2
  | .installSnapshot host snapshot => c.installSnapshot host snapshot
  | .transfer source target => (c.transfer source target).2

/-- The ordered command that is submitted, and the cluster that it is submitted to: a client submits one, and so does a
replica that proposes, unless its attempt is over before. -/
def submission? (c : Cluster) : Happening → Option (Cluster × Bytes)
  | .perform (.request .ordered command) => some (c, command)
  | .perform (.propose host) =>
    match c.openProposal host with
    | (.over _, _) => none
    | (.submit message, d) => some (d, message.encode)
  | _ => none

/-- The submissions of a run. -/
def submissions (c : Cluster) : List Happening → List (Cluster × Bytes)
  | [] => []
  | x :: xs => (c.submission? x).toList ++ (c.happen x).submissions xs

/-- No ordered command was submitted in between. -/
structure SameTime (c d : Cluster) : Prop where
  clock : d.clock = c.clock
  sequence : d.sequence = c.sequence

variable {c d e : Cluster} {host : ReplicaId}

theorem SameTime.refl (c : Cluster) : c.SameTime c := ⟨rfl, rfl⟩

theorem SameTime.trans (h : c.SameTime d) (h' : d.SameTime e) : c.SameTime e :=
  ⟨h'.clock.trans h.clock, h'.sequence.trans h.sequence⟩

theorem SameView.sameTime (h : c.SameView d) : c.SameTime d := ⟨h.clock, h.sequence⟩

theorem sameTime_updateReplica {α : Type} (c : Cluster) (host : ReplicaId) (f : Replica → α × Replica) (a : α) :
    c.SameTime (c.updateReplica host f a).2 := (sameNet_updateReplica c host f a).sameView.sameTime

/-- A delivery of which nobody is told. What hooks may do in it leaves the time as it is. -/
theorem carried_self (c : Cluster) : Carried True [] ⟨0, [0], 0⟩ 0 [] c c := .refl c

theorem sameTime_start (c : Cluster) (id : ReplicaId) (settings : Settings) (dir : Directory) :
    c.SameTime (c.start id settings dir).2 := by
  unfold start
  split <;> exact ⟨rfl, rfl⟩

theorem sameTime_stop (c : Cluster) (host : ReplicaId) : c.SameTime (c.stop host) := by
  unfold stop
  split <;> exact ⟨rfl, rfl⟩

theorem sameTime_restart (c : Cluster) (host : ReplicaId) (change : Settings → Settings) :
    c.SameTime (c.restart host change).2 := by
  unfold restart
  split
  · exact .refl c
  · rename_i x _
    have hstarted := (c.sameTime_stop host).trans ((c.stop host).sameTime_start host (change x.settings) x.dir)
    split
    · rename_i hstart
      rwa [hstart] at hstarted
    · rename_i hstart
      rw [hstart] at hstarted
      exact ⟨hstarted.clock, hstarted.sequence⟩

theorem sameTime_check (c : Cluster) (host : ReplicaId) : c.SameTime (c.check host).2 := by
  have hreloaded : c.SameTime ((c.syncFromLeader host 0).2.reload host).2 :=
    ((c.carried_self.syncFromLeader trivial (by decide) host 0).reload trivial host).sameView.sameTime
  unfold check
  split_ifs
  · exact .refl c
  · split
    · rename_i hreload
      rwa [hreload] at hreloaded
    · rename_i hreload
      rwa [hreload] at hreloaded

theorem sameTime_transfer (c : Cluster) (source target : ReplicaId) : c.SameTime (c.transfer source target).2 := by
  unfold transfer
  split
  · exact .refl c
  · exact .refl c
  · exact (c.carried_self.installSnapshot trivial (by decide) _ _).sameView.sameTime
  · exact ⟨rfl, rfl⟩

/-- **A submission** moves the time on by one, whether it finds members or an answer or not. -/
theorem sameTime_order (c : Cluster) (command : Bytes) : c.tick.SameTime (c.order command).2 :=
  (c.carried_order command).sameView.sameTime

/-- **Whatever happens** either submits an ordered command, which moves the time on by one, or leaves the time as it
is. -/
theorem happen_cases (c : Cluster) (x : Happening) :
    (c.submission? x = none ∧ c.SameTime (c.happen x)) ∨
    ∃ d command, c.submission? x = some (d, command) ∧ c.SameTime d ∧ d.tick.SameTime (c.happen x) := by
  cases x with
  | perform op =>
    cases op with
    | request delivery command =>
      cases delivery with
      | ordered => exact Or.inr ⟨c, command, rfl, .refl c, c.sameTime_order command⟩
      | unordered =>
        exact Or.inl ⟨rfl, (c.carried_self.askLeader trivial (by decide) command).sameView.sameTime⟩
    | register id host => exact Or.inl ⟨rfl, rfl, rfl⟩
    | deregister id => exact Or.inl ⟨rfl, rfl, rfl⟩
    | setLeader id => exact Or.inl ⟨rfl, rfl, rfl⟩
    | observe host leader => exact Or.inl ⟨rfl, c.sameTime_updateReplica host _ _⟩
    | propose host =>
      have hopened : c.SameTime (c.openProposal host).2 := c.sameTime_updateReplica host _ _
      rw [submission?, happen, perform, propose]
      rcases hopen : c.openProposal host with ⟨outcome | message, d⟩
      · rw [hopen] at hopened
        exact Or.inl ⟨rfl, hopened⟩
      · rw [hopen] at hopened
        have hsettled := (d.order message.encode).2.sameTime_updateReplica host
          (fun r => r.settleProposal (d.order message.encode).1) (.rejected 0)
        exact Or.inr ⟨d, message.encode, rfl, hopened, (d.sameTime_order message.encode).trans hsettled⟩
  | registerStandIn id x => exact Or.inl ⟨rfl, rfl, rfl⟩
  | start id settings dir => exact Or.inl ⟨rfl, c.sameTime_start id settings dir⟩
  | restart host change => exact Or.inl ⟨rfl, c.sameTime_restart host change⟩
  | stop host => exact Or.inl ⟨rfl, c.sameTime_stop host⟩
  | serve servers => exact Or.inl ⟨rfl, rfl, rfl⟩
  | disturb host dir =>
    refine Or.inl ⟨rfl, ?_⟩
    unfold happen
    dsimp only
    split <;> exact ⟨rfl, rfl⟩
  | catchUp host => exact Or.inl ⟨rfl, (c.carried_self.catchUp trivial (by decide) host).sameView.sameTime⟩
  | check host => exact Or.inl ⟨rfl, c.sameTime_check host⟩
  | installSnapshot host snapshot =>
    exact Or.inl ⟨rfl, (c.carried_self.installSnapshot trivial (by decide) host snapshot).sameView.sameTime⟩
  | transfer source target => exact Or.inl ⟨rfl, c.sameTime_transfer source target⟩

/-! ### Runs -/

/-- **The submissions of a run** are numbered one after another. -/
theorem submissions_numbered (c : Cluster) (xs : List Happening) {i : Nat} {d : Cluster} {command : Bytes}
    (h : (c.submissions xs)[i]? = some (d, command)) :
    d.clock = c.clock + Int64.ofNat i ∧ d.sequence = c.sequence + UInt64.ofNat i := by
  induction xs generalizing c i with
  | nil => cases h
  | cons x xs ih =>
    rw [submissions] at h
    rcases c.happen_cases x with ⟨hnone, hsame⟩ | ⟨d', command', hsome, hopened, hsame⟩
    · rw [hnone] at h
      rw [← hsame.clock, ← hsame.sequence]
      exact ih _ h
    · rw [hsome] at h
      cases i with
      | zero =>
        obtain ⟨rfl, rfl⟩ := Prod.mk.inj (Option.some.inj h)
        exact ⟨hopened.clock.trans (Int64.add_zero _).symm, hopened.sequence.trans (UInt64.add_zero _).symm⟩
      | succ i =>
        obtain ⟨hclock, hsequence⟩ := ih _ h
        rw [hclock, hsequence, hsame.clock, hsame.sequence, tick, hopened.clock, hopened.sequence]
        refine ⟨?_, ?_⟩
        · rw [Int64.ofNat_add, Int64.add_assoc, Int64.add_comm 1]
          rfl
        · rw [UInt64.ofNat_add, UInt64.add_assoc, UInt64.add_comm 1]
          rfl

/-- The time and the sequence number of a submission, counted from the beginning of the run. -/
theorem tick_submissions {xs : List Happening} {i : Nat} {command : Bytes}
    (h : (c.submissions xs)[i]? = some (d, command)) :
    d.tick.clock = c.clock + Int64.ofNat (i + 1) ∧ d.tick.sequence = c.sequence + UInt64.ofNat (i + 1) := by
  obtain ⟨hclock, hsequence⟩ := c.submissions_numbered xs h
  rw [tick, hclock, hsequence, Int64.ofNat_add, UInt64.ofNat_add, ← Int64.add_assoc, ← UInt64.add_assoc]
  exact ⟨rfl, rfl⟩

theorem toNat_nonce_stamp (c : Cluster) : Bytes.toNat c.stamp.nonce = c.sequence.toNat := by
  rw [stamp, Bytes.toNat_bigEndian]
  exact Nat.mod_eq_of_lt c.sequence.toNat_lt

theorem toInt_genesisTimestamp_add {n : Nat} (h : Block.genesisTimestamp.toInt + n ≤ Int64.maxValue.toInt) :
    (Block.genesisTimestamp + Int64.ofNat n).toInt = Block.genesisTimestamp.toInt + n := by
  have hgenesis : Block.genesisTimestamp.toInt = 1577836800000 := rfl
  have hmax : Int64.maxValue.toInt = 9223372036854775807 := rfl
  rw [hgenesis, hmax] at h
  rw [Int64.toInt_add, Int64.toInt_ofNat_of_lt (by omega), hgenesis]
  exact Int.bmod_eq_of_le (by omega) (by omega)

/-- **The majority reply, and the order of submissions.** Whatever members are there and whatever they reply, an ordered
command is answered with the reply that more than half of them gave, in whatever order the replies are searched, and
each of them executes it once for every id. Over any run the submissions, failed ones included, carry times and
sequence numbers that go up by one from each to the next, and in a cluster that was empty they count from the first on,
as long as the times fit. -/
theorem order_sequenced :
    (∀ (c : Cluster) command, c.Decides (c.tellLive command).1 (c.order command).1 ∧ c.Delivers command) ∧
    (∀ (c : Cluster) xs (i : Nat) d command, (c.submissions xs)[i]? = some (d, command) →
      d.tick.stamp.timestamp = c.clock + Int64.ofNat (i + 1) ∧
      d.tick.stamp.nonce = Bytes.bigEndian 8 (c.sequence + UInt64.ofNat (i + 1)).toNat ∧
      ∀ e command', (c.submissions xs)[i + 1]? = some (e, command') →
        e.tick.stamp.timestamp = d.tick.stamp.timestamp + 1 ∧
        Bytes.toNat e.tick.stamp.nonce = (Bytes.toNat d.tick.stamp.nonce + 1) % UInt64.size) ∧
    ∀ leader xs (i : Nat) d command, ((empty leader).submissions xs)[i]? = some (d, command) →
      Block.genesisTimestamp.toInt + (i + 1 : Nat) ≤ Int64.maxValue.toInt →
      d.tick.stamp.timestamp.toInt = Block.genesisTimestamp.toInt + (i + 1 : Nat) ∧
      Bytes.toNat d.tick.stamp.nonce = i + 1 := by
  refine ⟨fun c command => ⟨c.decides command, c.delivers command⟩, fun c xs i d command h => ?_,
    fun leader xs i d command h hfits => ?_⟩
  · obtain ⟨hclock, hsequence⟩ := tick_submissions h
    refine ⟨hclock, congrArg (fun n : UInt64 => Bytes.bigEndian 8 n.toNat) hsequence, fun e command' h' => ?_⟩
    obtain ⟨hclock', hsequence'⟩ := tick_submissions h'
    have hnext : e.tick.sequence = d.tick.sequence + 1 := by
      rw [hsequence', hsequence, UInt64.ofNat_add (i + 1), ← UInt64.add_assoc]
      rfl
    refine ⟨?_, ?_⟩
    · change e.tick.clock = d.tick.clock + 1
      rw [hclock', hclock, Int64.ofNat_add (i + 1), ← Int64.add_assoc]
      rfl
    · rw [toNat_nonce_stamp, toNat_nonce_stamp, hnext, UInt64.toNat_add, UInt64.toNat_one]
  · obtain ⟨hclock, hsequence⟩ := tick_submissions h
    refine ⟨?_, ?_⟩
    · change d.tick.clock.toInt = _
      rw [hclock]
      exact toInt_genesisTimestamp_add hfits
    · have hgenesis : Block.genesisTimestamp.toInt = 1577836800000 := rfl
      have hmax : Int64.maxValue.toInt = 9223372036854775807 := rfl
      have hsize : UInt64.size = 18446744073709551616 := rfl
      have hsmall : i + 1 < UInt64.size := by
        rw [hgenesis, hmax] at hfits
        omega
      have hzero : (empty leader).sequence = 0 := rfl
      rw [toNat_nonce_stamp, hsequence, hzero, UInt64.zero_add, UInt64.toNat_ofNat_of_lt' hsmall]

/-- A member that always gives the same reply. -/
def voter (reply : String) : StandIn := ⟨Bytes.ofText reply, [], []⟩

/-- Three members are asked, then two of them, and then nobody. -/
def votes : List Happening :=
  [.registerStandIn 1 (voter "yes"), .registerStandIn 2 (voter "yes"), .registerStandIn 3 (voter "no"),
    .perform (.request .ordered [1]), .perform (.deregister 2), .perform (.request .ordered [2]),
    .perform (.deregister 1), .perform (.deregister 3), .perform (.request .ordered [3])]

/-- Two of three are more than half, one of two is not; all three submissions are numbered. -/
theorem order_sequenced_votes : ∃ c d e, (empty 1).submissions votes = [(c, [1]), (d, [2]), (e, [3])] ∧
    (c.order [1]).1 = .ok (Bytes.ofText "yes") ∧ (d.order [2]).1 = .error (.noQuorum 2) ∧
    (e.order [3]).1 = .error .noReplicas ∧ Bytes.toNat e.tick.stamp.nonce = 3 ∧
    e.tick.stamp.timestamp.toInt = Block.genesisTimestamp.toInt + 3 := by
  refine ⟨_, _, _, rfl, ?_, ?_, ?_, ?_⟩
  · exact ((order_sequenced.1 _ _).1.ok_iff _).mpr (by decide +kernel)
  · exact ((order_sequenced.1 _ _).1.eq_of_perm _ (List.Perm.refl _) (by decide +kernel)).trans (by decide +kernel)
  · exact (order_sequenced.1 _ _).1.noReplicas_iff.mpr (by decide +kernel)
  · obtain ⟨htime, hnonce⟩ := order_sequenced.2.2 1 votes 2 _ _ rfl (by decide)
    exact ⟨hnonce, htime⟩

end ReplicatedLedger.Cluster
