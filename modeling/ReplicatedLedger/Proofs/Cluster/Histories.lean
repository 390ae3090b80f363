import ReplicatedLedger.Proofs.Cluster.CatchUp
import ReplicatedLedger.Proofs.Replica.Lengths

/-! # Whatever a cluster has been through

A cluster is reachable when it comes of the empty one: replicas start over any directories, stop and start anew,
propose, catch up, check their chains and give snapshots to each other; stand-ins become members and touch replicas
while a command is delivered; clients submit any bytes, snapshots of any bytes are installed, directories change by
other hands. All that does to a replica is in `Replica.Undergoes`, so that in a reachable cluster what replicas hold
has lengths that fit (`Reachable.fits`). -/

namespace ReplicatedLedger

open Wire

/-- A block that a hook adds has lengths that fit. -/
def Hook.Fits : Hook → Prop
  | addBlock _ b => b.Fits
  | _ => True

/-- All blocks that a stand-in adds have lengths that fit. -/
def StandIn.Fits (s : StandIn) : Prop := ∀ hook ∈ s.hooks, hook.Fits

namespace Cluster

/-- All that replicas hold and stand-ins add has lengths that fit. -/
structure Fits (c : Cluster) : Prop where
  replicas : ∀ k r, c.replica? k = some r → r.Fits
  standIns : ∀ id s, c.standIns.get? id = some s → s.Fits

variable {c d : Cluster} {host : ReplicaId}

/-! ### What replicas undergo -/

theorem fitsSize_nil : FitsSize ([] : Bytes).length := by decide

theorem Fits.setReplica (h : c.Fits) {r : Replica} (hr : r.Fits) : (c.setReplica host r).Fits :=
  ⟨forall_setReplica (P := fun _ r => r.Fits) h.replicas hr, h.standIns⟩

theorem Fits.updateReplica {α : Type} (h : c.Fits) {f : Replica → α × Replica}
    (hf : ∀ r : Replica, r.Undergoes (f r).2) (a : α) : (c.updateReplica host f a).2.Fits := by
  refine ⟨forall_updateReplica (P := fun _ r => r.Fits) h.replicas f (fun r hr => (hf r).fits hr) a, ?_⟩
  rw [(sameNet_updateReplica c host f a).standIns]
  exact h.standIns

theorem Fits.tell (h : c.Fits) (member : Member) (delivery : Delivery) (command : Bytes) {stamp : Stamp}
    (hshort : FitsSize stamp.nonce.length) : (c.tell member delivery command stamp).2.Fits := by
  cases member with
  | replica host =>
    exact h.updateReplica (f := c.told delivery command stamp) (fun r => .deliver delivery command stamp _ hshort) []
  | standIn id =>
    cases hs : c.standIns.get? id with
    | none =>
      simp only [Cluster.tell, hs]
      exact h
    | some s =>
      simp only [Cluster.tell, hs]
      refine ⟨h.replicas, fun id' s' hs' => ?_⟩
      rw [SortedMap.get?_insert] at hs'
      split_ifs at hs'
      · cases hs'
        exact h.standIns id s hs
      · exact h.standIns id' s' hs'

theorem Fits.askLeader (h : c.Fits) (command : Bytes) : (c.askLeader command).2.Fits := by
  unfold Cluster.askLeader
  split
  · exact h
  · exact h.tell _ .unordered command fitsSize_nil

theorem Fits.reload (h : c.Fits) (host : ReplicaId) : (c.reload host).2.Fits :=
  h.updateReplica (fun _ => .reload) _

theorem Fits.syncFromLeader (h : c.Fits) (host : ReplicaId) (bottom : UInt64) :
    (c.syncFromLeader host bottom).2.Fits := by
  unfold Cluster.syncFromLeader
  cases c.replica? host with
  | none => exact h
  | some r =>
    have hasked : (Sync.leaderTip c).2.Fits := Sync.leaderTip_invariant (fun _ command hnet => hnet.askLeader command) h
    dsimp only
    rw [r.syncClient.net_fromLeader]
    exact hasked.updateReplica (fun s => .refill _) _

theorem Fits.catchUp (h : c.Fits) (host : ReplicaId) : (c.catchUp host).Fits :=
  catchUp_keeps (fun _ command hd => hd.askLeader command) (fun _ _ hd => hd.updateReplica (fun _ => .refill _) _)
    (fun _ hd => hd.reload host) h

theorem Fits.installSnapshot (h : c.Fits) (host : ReplicaId) (snapshot : Bytes) :
    (c.installSnapshot host snapshot).Fits := by
  unfold Cluster.installSnapshot
  split
  · exact h
  · rename_i r hr
    split
    · exact h
    · rename_i pool hok
      exact ((h.setReplica ((Replica.Undergoes.install hok).fits (h.replicas host r hr))).reload host).catchUp host

theorem Fits.transfer (h : c.Fits) (source target : ReplicaId) : (c.transfer source target).2.Fits := by
  unfold Cluster.transfer
  split
  · exact h
  · exact h
  · exact h.installSnapshot _ _
  · rename_i m id _ _
    refine ⟨h.replicas, fun id' s hs => ?_⟩
    rw [SortedMap.get?_modify] at hs
    split_ifs at hs
    · obtain ⟨s', hs', rfl⟩ := Option.map_eq_some_iff.mp hs
      exact h.standIns id' s' hs'
    · exact h.standIns id' s hs

/-! ### Stand-ins -/

theorem Fits.runHook (h : c.Fits) {hook : Hook} (hfits : hook.Fits) : (c.runHook hook).2.Fits := by
  cases hook with
  | propose host =>
    have hopened : (c.openProposal host).2.Fits := h.updateReplica (fun _ => .openProposal) _
    unfold Cluster.runHook
    dsimp only
    cases hopen : c.openProposal host with
    | mk opening d =>
      rw [hopen] at hopened
      cases opening <;> exact hopened
  | install host snapshot => exact h.installSnapshot host snapshot
  | addBlock host b => exact h.updateReplica (fun r => .add b hfits) _
  | ask host command =>
    have hask : ∀ r : Replica,
        r.Undergoes (r.deliver .unordered command ⟨0, [], r.lastLeader⟩ c.view.length).2 := fun r =>
      .deliver .unordered command ⟨0, [], r.lastLeader⟩ c.view.length fitsSize_nil
    exact h.updateReplica (α := Hook.Outcome) hask (.reply [])

theorem Fits.foldHooks (h : c.Fits) {hooks : List Hook} (hfits : ∀ hook ∈ hooks, hook.Fits) :
    (hooks.foldl
      (fun c hook =>
        let (outcome, c) := c.runHook hook
        { c with hookOutcomes := outcome :: c.hookOutcomes })
      c).Fits := by
  induction hooks generalizing c with
  | nil => exact h
  | cons hook hooks ih =>
    obtain ⟨hfirst, hlater⟩ := List.forall_mem_cons.mp hfits
    have hrun := h.runHook hfirst
    exact ih ⟨hrun.replicas, hrun.standIns⟩ hlater

theorem Fits.runHooks (h : c.Fits) (member : Member) : (c.runHooks member).Fits := by
  refine h.foldHooks fun hook hhook => ?_
  cases member with
  | replica host => cases hhook
  | standIn id =>
    cases hs : c.standIns.get? id with
    | none => simp [hs] at hhook
    | some s =>
      simp only [hs, Option.map_some, Option.getD_some] at hhook
      exact h.standIns id s hs hook hhook

/-! ### Ordered commands -/

theorem Fits.tellAll (h : c.Fits) (command : Bytes) {stamp : Stamp} (hshort : FitsSize stamp.nonce.length)
    (ms : List Member) : (tellAll command stamp ms c).2.Fits := by
  induction ms generalizing c with
  | nil => exact h
  | cons m ms ih => exact ih ((h.tell m .ordered command hshort).runHooks m)

theorem Fits.order (h : c.Fits) (command : Bytes) : (c.order command).2.Fits := by
  have htick : c.tick.Fits := ⟨h.replicas, h.standIns⟩
  have hshort : FitsSize c.tick.stamp.nonce.length := by
    have hlength : c.tick.stamp.nonce.length = 8 := Bytes.length_bigEndian 8 _
    rw [hlength]
    decide
  rcases c.order_cases command with heq | heq
  · rw [heq]
    exact htick
  · rw [heq]
    exact htick.tellAll command hshort _

theorem Fits.propose (h : c.Fits) (host : ReplicaId) : (c.propose host).2.Fits := by
  have hproposed := c.proposed host
  generalize c.propose host = x at hproposed
  cases hproposed with
  | noReplica hr => exact h
  | unsubmitted r outcome hr hopened => exact h.setReplica (Replica.Undergoes.openProposal.fits (h.replicas host r hr))
  | submitted r message hr hopened =>
    have hopen : (c.setReplica host r.openProposal.2).Fits :=
      h.setReplica (Replica.Undergoes.openProposal.fits (h.replicas host r hr))
    exact (hopen.order message.encode).updateReplica (fun s => .settleProposal _) _

theorem Fits.perform (h : c.Fits) (op : Op) : (c.perform op).Fits := by
  cases op with
  | request delivery command =>
    cases delivery with
    | ordered => exact h.order command
    | unordered => exact h.askLeader command
  | register id host => exact ⟨h.replicas, h.standIns⟩
  | deregister id => exact ⟨h.replicas, h.standIns⟩
  | setLeader id => exact ⟨h.replicas, h.standIns⟩
  | observe host leader => exact h.updateReplica (f := fun r => ((), r.observe leader)) (fun _ => .observe leader) ()
  | propose host => exact h.propose host

theorem Fits.check (h : c.Fits) (host : ReplicaId) : (c.check host).2.Fits := by
  have hreloaded := (h.syncFromLeader host 0).reload host
  unfold Cluster.check
  split_ifs
  · exact h
  · cases hreload : (c.syncFromLeader host 0).2.reload host with
    | mk result d =>
      rw [hreload] at hreloaded
      cases result <;> exact hreloaded

/-! ### Hosts -/

theorem Fits.start (h : c.Fits) (id : ReplicaId) (settings : Settings) (dir : Directory) :
    (c.start id settings dir).2.Fits := by
  refine ⟨forall_start (P := fun _ r => r.Fits) h.replicas id settings dir fun r dir' => Replica.Fits.of_start, ?_⟩
  have hsame : (c.start id settings dir).2.standIns = c.standIns := by
    unfold Cluster.start
    split <;> rfl
  rw [hsame]
  exact h.standIns

theorem Fits.stop (h : c.Fits) (host : ReplicaId) : (c.stop host).Fits := by
  unfold Cluster.stop
  split
  · exact h
  · rename_i x hx
    refine ⟨fun k r hr => ?_, h.standIns⟩
    change (c.setHost host (.stopped x.settings x.dir)).replica? k = some r at hr
    rw [replica?_setHost_stopped] at hr
    split_ifs at hr
    exact h.replicas k r hr

/-- The directory of a host changes by other hands. -/
theorem Fits.disturb (h : c.Fits) {x : Host} (hx : c.hosts.get? host = some x) (dir : Directory) :
    (c.setHost host (x.withDir dir)).Fits := by
  cases x with
  | running r =>
    have hr : c.replica? host = some r := by rw [replica?, hx]; rfl
    exact h.setReplica ((Replica.Undergoes.refill { r.ledger.store with dir }).fits (h.replicas host r hr))
  | stopped settings dir' =>
    refine ⟨fun k r hr => ?_, h.standIns⟩
    change (c.setHost host (.stopped settings dir)).replica? k = some r at hr
    rw [replica?_setHost_stopped] at hr
    split_ifs at hr
    exact h.replicas k r hr

/-! ### Histories -/

/-- The clusters that come of the empty one. -/
inductive Reachable : Cluster → Prop where
  | empty (leader : ReplicaId) : Reachable (empty leader)
  | perform {c : Cluster} (h : Reachable c) (op : Op) : Reachable (c.perform op)
  | registerStandIn {c : Cluster} (h : Reachable c) (id : ReplicaId) (s : StandIn) (fits : s.Fits) :
      Reachable (c.registerStandIn id s)
  | start {c : Cluster} (h : Reachable c) (id : ReplicaId) (settings : Settings) (dir : Directory) :
      Reachable (c.start id settings dir).2
  | stop {c : Cluster} (h : Reachable c) (host : ReplicaId) : Reachable (c.stop host)
  | serve {c : Cluster} (h : Reachable c) (servers : SortedMap String ReplicaId) : Reachable { c with servers }
  | disturb {c : Cluster} (h : Reachable c) {host : ReplicaId} {x : Host} (eq_some : c.hosts.get? host = some x)
      (dir : Directory) : Reachable (c.setHost host (x.withDir dir))
  | catchUp {c : Cluster} (h : Reachable c) (host : ReplicaId) : Reachable (c.catchUp host)
  | check {c : Cluster} (h : Reachable c) (host : ReplicaId) : Reachable (c.check host).2
  | installSnapshot {c : Cluster} (h : Reachable c) (host : ReplicaId) (snapshot : Bytes) :
      Reachable (c.installSnapshot host snapshot)
  | transfer {c : Cluster} (h : Reachable c) (source target : ReplicaId) : Reachable (c.transfer source target).2

/-- **Whatever a cluster has been through**, what its replicas hold has lengths that fit. -/
theorem Reachable.fits (h : c.Reachable) : c.Fits := by
  induction h with
  | empty leader => exact ⟨fun _ _ h => (by cases h), fun _ _ h => (by cases h)⟩
  | perform _ op ih => exact ih.perform op
  | @registerStandIn c _ id s hs ih =>
    refine ⟨ih.replicas, fun id' s' hs' => ?_⟩
    rw [Cluster.registerStandIn, SortedMap.get?_insert] at hs'
    split_ifs at hs'
    · cases hs'
      exact hs
    · exact ih.standIns id' s' hs'
  | start _ id settings dir ih => exact ih.start id settings dir
  | stop _ host ih => exact ih.stop host
  | serve _ servers ih => exact ⟨ih.replicas, ih.standIns⟩
  | disturb _ hx dir ih => exact ih.disturb hx dir
  | catchUp _ host ih => exact ih.catchUp host
  | check _ host ih => exact ih.check host
  | installSnapshot _ host snapshot ih => exact ih.installSnapshot host snapshot
  | transfer _ source target ih => exact ih.transfer source target

theorem Reachable.run (h : c.Reachable) (ops : List Op) : (c.run ops).Reachable := by
  induction ops generalizing c with
  | nil => exact h
  | cons op ops ih => exact ih (h.perform op)

theorem Reachable.startAll (h : c.Reachable) (settings : Settings) (hosts : List ReplicaId) :
    (c.startAll settings hosts).Reachable := by
  induction hosts generalizing c with
  | nil => exact h
  | cons k hosts ih => exact ih (h.start k settings _)

end Cluster

end ReplicatedLedger
