import ReplicatedLedger.Proofs.Cluster.CatchUp

/-! # Who executes an ordered command, and how often

An ordered command is carried to the members one after another, and each of them executes it when its turn comes. In
between stand-ins with hooks may touch replicas, and what a replica does then is no execution (`Replica.Stirs`). So the
way of a replica through the delivery is a list of replies, one for each execution, with other steps in between, and
with none of these where there are no hooks (`Replica.Executes`); that of a stand-in is the same with sightings
(`StandIn.Notes`). The ways of all members are in step with the list of those that are told (`carried_tellAll`), so
that each executes the command as often as it is listed, under the one stamp, and gives its replies in doing so
(`carried_order`). -/

namespace ReplicatedLedger

/-! ### The way of a member -/

/-- What a replica can do without executing an ordered command. -/
inductive Replica.Stirs (r : Replica) : Replica → Prop where
  | answer (command : Bytes) (stamp : Stamp) (nodes : Nat) : Stirs r (r.deliver .unordered command stamp nodes).2
  | openProposal : Stirs r r.openProposal.2
  /-- A snapshot is installed. -/
  | install (pool : Pool) : Stirs r { r with pool, pending := none }
  /-- The store is replaced. -/
  | refill (store : Store) : Stirs r (r.withStore store)
  | reload : Stirs r { r with ledger := r.ledger.reload.2 }
  | add (b : Block) : Stirs r { r with ledger := (r.ledger.add b).2 }

section

variable (hooked : Prop) (command : Bytes) (stamp : Stamp) (nodes : Nat)

/-- A replica executes a command once for each of the replies; in between it does other things only if there are
hooks. -/
inductive Replica.Executes : Replica → List Bytes → Replica → Prop where
  | nothing (r : Replica) : Executes r [] r
  | stirred {r s t : Replica} {replies : List Bytes} (h : hooked) (hs : r.Stirs s) (hrest : Executes s replies t) :
      Executes r replies t
  | executed {r t : Replica} {replies : List Bytes}
      (hrest : Executes (r.deliver .ordered command stamp nodes).2 replies t) :
      Executes r ((r.deliver .ordered command stamp nodes).1.encode :: replies) t

/-- A stand-in notes the command once for each of the replies, which are its own; in between it notes other things only
if there are hooks. -/
inductive StandIn.Notes : StandIn → List Bytes → StandIn → Prop where
  | nothing (x : StandIn) : Notes x [] x
  | stirred {x y : StandIn} {replies : List Bytes} (h : hooked) (seen : Sighting) (hseen : seen ≠ .command stamp)
      (hrest : Notes (x.note seen) replies y) : Notes x replies y
  | executed {x y : StandIn} {replies : List Bytes} (hrest : Notes (x.note (.command stamp)) replies y) :
      Notes x (x.reply :: replies) y

end

section

variable {hooked : Prop} {command : Bytes} {stamp : Stamp} {nodes : Nat}

theorem Replica.Executes.trans {r s t : Replica} {replies later : List Bytes}
    (h : r.Executes hooked command stamp nodes replies s) (h' : s.Executes hooked command stamp nodes later t) :
    r.Executes hooked command stamp nodes (replies ++ later) t := by
  induction h with
  | nothing => exact h'
  | stirred hhooked hs _ ih => exact .stirred hhooked hs (ih h')
  | executed _ ih => exact .executed (ih h')

/-- **Without hooks** a single execution is all that a replica does. -/
theorem Replica.Executes.eq_of_not_hooked {r s : Replica} {reply : Bytes} (hno : ¬ hooked)
    (h : r.Executes hooked command stamp nodes [reply] s) :
    reply = (r.deliver .ordered command stamp nodes).1.encode ∧ s = (r.deliver .ordered command stamp nodes).2 := by
  cases h with
  | stirred hhooked => exact absurd hhooked hno
  | executed hrest =>
    cases hrest with
    | nothing => exact ⟨rfl, rfl⟩
    | stirred hhooked => exact absurd hhooked hno

theorem StandIn.Notes.trans {x y z : StandIn} {replies later : List Bytes}
    (h : x.Notes hooked stamp replies y) (h' : y.Notes hooked stamp later z) :
    x.Notes hooked stamp (replies ++ later) z := by
  induction h with
  | nothing => exact h'
  | stirred hhooked seen hseen _ ih => exact .stirred hhooked seen hseen (ih h')
  | executed _ ih => exact .executed (ih h')

/-- **A stand-in** has noted the command once for each reply, and all replies are the one that it always gives. -/
theorem StandIn.Notes.counts {x y : StandIn} {replies : List Bytes} (h : x.Notes hooked stamp replies y) :
    y.reply = x.reply ∧ y.hooks = x.hooks ∧ replies = List.replicate replies.length x.reply ∧
      y.seen.count (.command stamp) = x.seen.count (.command stamp) + replies.length := by
  induction h with
  | nothing => exact ⟨rfl, rfl, rfl, rfl⟩
  | stirred _ seen hseen _ ih =>
    obtain ⟨hreply, hhooks, hreplies, hcount⟩ := ih
    refine ⟨hreply, hhooks, hreplies, hcount.trans ?_⟩
    rw [StandIn.note, List.count_cons_of_ne hseen]
  | executed _ ih =>
    obtain ⟨hreply, hhooks, hreplies, hcount⟩ := ih
    refine ⟨hreply, hhooks, congrArg (List.cons _) hreplies, hcount.trans ?_⟩
    rw [StandIn.note, List.count_cons_self, List.length_cons]
    omega

end

namespace Cluster

/-! ### The ways of all members -/

/-- The same members are there, under the same leader, at the same time. -/
structure SameView (c d : Cluster) : Prop where
  members : d.members = c.members
  leader : d.leader = c.leader
  clock : d.clock = c.clock
  sequence : d.sequence = c.sequence
  isLive : ∀ m, d.isLive m = c.isLive m

/-- The replies of one member. -/
def repliesOf (m : Member) (answers : List (Member × Bytes)) : List Bytes :=
  (answers.filter (·.1 = m)).map Prod.snd

/-- While a command is carried to the members, each of them goes its own way through the replies that it gives. -/
structure Carried (hooked : Prop) (command : Bytes) (stamp : Stamp) (nodes : Nat) (answers : List (Member × Bytes))
    (c d : Cluster) : Prop where
  sameView : c.SameView d
  replicas : ∀ k r, c.replica? k = some r → ∃ s, d.replica? k = some s ∧
    r.Executes hooked command stamp nodes (repliesOf (.replica k) answers) s
  standIns : ∀ id x, c.standIns.get? id = some x → ∃ y, d.standIns.get? id = some y ∧
    x.Notes hooked stamp (repliesOf (.standIn id) answers) y

variable {hooked : Prop} {command : Bytes} {stamp : Stamp} {nodes : Nat} {answers later : List (Member × Bytes)}
  {c d e : Cluster} {host : ReplicaId}

theorem SameView.refl (c : Cluster) : c.SameView c := ⟨rfl, rfl, rfl, rfl, fun _ => rfl⟩

theorem SameView.trans (h : c.SameView d) (h' : d.SameView e) : c.SameView e :=
  ⟨h'.members.trans h.members, h'.leader.trans h.leader, h'.clock.trans h.clock, h'.sequence.trans h.sequence,
    fun m => (h'.isLive m).trans (h.isLive m)⟩

theorem SameView.live_eq (h : c.SameView d) : d.live = c.live := by
  unfold live
  rw [h.members]
  exact List.filter_congr fun e _ => h.isLive e.2

theorem SameView.view_eq (h : c.SameView d) : d.view = c.view := congrArg (List.map Prod.fst) h.live_eq

theorem SameNet.sameView (h : c.SameNet d) : c.SameView d := by
  refine ⟨h.members, h.leader, h.clock, h.sequence, fun m => ?_⟩
  cases m with
  | replica k => exact h.running k
  | standIn id => rw [isLive, isLive, h.standIns]

theorem repliesOf_append (m : Member) (answers later : List (Member × Bytes)) :
    repliesOf m (answers ++ later) = repliesOf m answers ++ repliesOf m later := by
  rw [repliesOf, List.filter_append, List.map_append, repliesOf, repliesOf]

theorem repliesOf_self (m : Member) (reply : Bytes) : repliesOf m [(m, reply)] = [reply] := by
  simp [repliesOf]

theorem repliesOf_of_ne {m m' : Member} (h : m ≠ m') (reply : Bytes) : repliesOf m [(m', reply)] = [] := by
  simp [repliesOf, h.symm]

theorem Carried.refl (c : Cluster) : Carried hooked command stamp nodes [] c c :=
  ⟨.refl c, fun _ r hr => ⟨r, hr, .nothing r⟩, fun _ x hx => ⟨x, hx, .nothing x⟩⟩

theorem Carried.trans (h : Carried hooked command stamp nodes answers c d)
    (h' : Carried hooked command stamp nodes later d e) : Carried hooked command stamp nodes (answers ++ later) c e := by
  refine ⟨h.sameView.trans h'.sameView, fun k r hr => ?_, fun id x hx => ?_⟩
  · obtain ⟨s, hs, hfirst⟩ := h.replicas k r hr
    obtain ⟨t, ht, hrest⟩ := h'.replicas k s hs
    exact ⟨t, ht, repliesOf_append (.replica k) answers later ▸ hfirst.trans hrest⟩
  · obtain ⟨y, hy, hfirst⟩ := h.standIns id x hx
    obtain ⟨z, hz, hrest⟩ := h'.standIns id y hy
    exact ⟨z, hz, repliesOf_append (.standIn id) answers later ▸ hfirst.trans hrest⟩

/-- Between two replies members may be touched once more. -/
theorem Carried.stirred (h : Carried hooked command stamp nodes [] c d) (h' : Carried hooked command stamp nodes [] d e) :
    Carried hooked command stamp nodes [] c e := h.trans h'

/-- A stand-in that is there keeps its hooks. -/
theorem Carried.exists_hooks_eq (h : Carried hooked command stamp nodes answers c d) {id : ReplicaId} {y : StandIn}
    (hlive : c.isLive (.standIn id) = true) (hy : d.standIns.get? id = some y) :
    ∃ x, c.standIns.get? id = some x ∧ y.hooks = x.hooks := by
  obtain ⟨x, hx⟩ := Option.isSome_iff_exists.mp hlive
  obtain ⟨y', hy', hnotes⟩ := h.standIns id x hx
  obtain rfl := Option.some.inj (hy.symm.trans hy')
  exact ⟨x, hx, hnotes.counts.2.1⟩

/-- A replica goes on, alone. -/
theorem carried_setReplica {r s : Replica} (hr : c.replica? host = some r)
    (hs : r.Executes hooked command stamp nodes (repliesOf (.replica host) answers) s)
    (hothers : ∀ m, m ≠ .replica host → repliesOf m answers = []) :
    Carried hooked command stamp nodes answers c (c.setReplica host s) := by
  refine ⟨(sameNet_setReplica hr s).sameView, fun k r' hr' => ?_, fun id x hx => ?_⟩
  · rw [replica?_setReplica]
    split_ifs with hk
    · obtain rfl := hk
      obtain rfl := Option.some.inj (hr.symm.trans hr')
      exact ⟨s, rfl, hs⟩
    · rw [hothers _ fun h => hk (Member.replica.inj h)]
      exact ⟨r', hr', .nothing r'⟩
  · rw [hothers (.standIn id) Member.noConfusion]
    exact ⟨x, hx, .nothing x⟩

/-- A stand-in goes on, alone. -/
theorem carried_setStandIn {id : ReplicaId} {x y : StandIn} (hx : c.standIns.get? id = some x)
    (hy : x.Notes hooked stamp (repliesOf (.standIn id) answers) y)
    (hothers : ∀ m, m ≠ .standIn id → repliesOf m answers = []) :
    Carried hooked command stamp nodes answers c { c with standIns := c.standIns.insert id y } := by
  refine ⟨⟨rfl, rfl, rfl, rfl, fun m => ?_⟩, fun k r hr => ?_, fun id' x' hx' => ?_⟩
  · cases m with
    | replica host => rfl
    | standIn id' =>
      rw [isLive, isLive, SortedMap.contains, SortedMap.contains, SortedMap.get?_insert]
      split_ifs with hid
      · rw [hid, hx, Option.isSome_some, Option.isSome_some]
      · rfl
  · rw [hothers (.replica k) Member.noConfusion]
    exact ⟨r, hr, .nothing r⟩
  · rw [SortedMap.get?_insert]
    split_ifs with hid
    · obtain rfl := hid
      obtain rfl := Option.some.inj (hx.symm.trans hx')
      exact ⟨y, rfl, hy⟩
    · rw [hothers _ fun h => hid (Member.standIn.inj h)]
      exact ⟨x', hx', .nothing x'⟩

/-! ### What hooks do -/

section

variable (hhooked : hooked) (hnonce : stamp.nonce ≠ []) (h : Carried hooked command stamp nodes [] c d)

include hhooked h

/-- A replica does something else than to execute the command. -/
theorem Carried.updateReplica {α : Type} {f : Replica → α × Replica} (hf : ∀ r : Replica, r.Stirs (f r).2)
    (host : ReplicaId) (a : α) : Carried hooked command stamp nodes [] c (d.updateReplica host f a).2 := by
  cases hr : d.replica? host with
  | none => rwa [updateReplica_of_none hr]
  | some r =>
    rw [updateReplica_of_some hr]
    exact h.stirred (carried_setReplica hr (.stirred hhooked (hf r) (.nothing _)) fun _ _ => rfl)

theorem Carried.reload (host : ReplicaId) : Carried hooked command stamp nodes [] c (d.reload host).2 :=
  h.updateReplica hhooked (fun _ => .reload) host _

include hnonce

/-- The leader is asked, and a stand-in that leads notes it. -/
theorem Carried.askLeader (query : Bytes) : Carried hooked command stamp nodes [] c (d.askLeader query).2 := by
  unfold Cluster.askLeader
  cases d.member? d.leader with
  | none => exact h
  | some member =>
    cases member with
    | replica host =>
      have hanswer : ∀ r : Replica, r.Stirs (d.told .unordered query ⟨d.clock, [], d.leader⟩ r).2 :=
        fun r => .answer query _ _
      exact h.updateReplica hhooked hanswer host []
    | standIn id =>
      dsimp only [tell]
      cases hx : d.standIns.get? id with
      | none => exact h
      | some x =>
        have hother : Sighting.command ⟨d.clock, [], d.leader⟩ ≠ .command stamp := fun heq =>
          hnonce (congrArg Stamp.nonce (Sighting.command.inj heq)).symm
        exact h.stirred (carried_setStandIn hx (.stirred hhooked _ hother (.nothing _)) fun _ _ => rfl)

theorem Carried.syncFromLeader (host : ReplicaId) (bottom : UInt64) :
    Carried hooked command stamp nodes [] c (d.syncFromLeader host bottom).2 := by
  unfold Cluster.syncFromLeader
  cases d.replica? host with
  | none => exact h
  | some r =>
    have hasked : Carried hooked command stamp nodes [] c (Sync.leaderTip d).2 :=
      Sync.leaderTip_invariant (fun _ query hnet => hnet.askLeader hhooked hnonce query) h
    dsimp only
    rw [r.syncClient.net_fromLeader]
    exact hasked.updateReplica hhooked (fun s => .refill _) host _

theorem Carried.catchUp (host : ReplicaId) : Carried hooked command stamp nodes [] c (d.catchUp host) :=
  catchUp_keeps (fun _ query he => he.askLeader hhooked hnonce query)
    (fun _ _ he => he.updateReplica hhooked (fun _ => .refill _) host _) (fun _ he => he.reload hhooked host) h

theorem Carried.installSnapshot (host : ReplicaId) (snapshot : Bytes) :
    Carried hooked command stamp nodes [] c (d.installSnapshot host snapshot) := by
  unfold Cluster.installSnapshot
  split
  · exact h
  · rename_i r hr
    split
    · exact h
    · rename_i pool _
      have hset : Carried hooked command stamp nodes [] c (d.setReplica host { r with pool, pending := none }) :=
        h.stirred (carried_setReplica hr (.stirred hhooked (.install pool) (.nothing _)) fun _ _ => rfl)
      exact (hset.reload hhooked host).catchUp hhooked hnonce host

/-- **Whatever a hook does**, no command is executed. -/
theorem Carried.runHook (hook : Hook) : Carried hooked command stamp nodes [] c (d.runHook hook).2 := by
  cases hook with
  | propose host =>
    have hopened : Carried hooked command stamp nodes [] c (d.openProposal host).2 :=
      h.updateReplica hhooked (fun _ => .openProposal) host _
    unfold Cluster.runHook
    dsimp only
    cases hopen : d.openProposal host with
    | mk opening e =>
      rw [hopen] at hopened
      cases opening <;> exact hopened
  | install host snapshot => exact h.installSnapshot hhooked hnonce host snapshot
  | addBlock host b => exact h.updateReplica hhooked (fun r => .add b) host _
  | ask host query =>
    have hanswer : ∀ r : Replica, r.Stirs (r.deliver .unordered query ⟨0, [], r.lastLeader⟩ d.view.length).2 :=
      fun r => .answer query _ _
    exact h.updateReplica (α := Hook.Outcome) hhooked hanswer host (.reply [])

theorem Carried.foldHooks (hooks : List Hook) : Carried hooked command stamp nodes [] c
    (hooks.foldl
      (fun c hook =>
        let (outcome, c) := c.runHook hook
        { c with hookOutcomes := outcome :: c.hookOutcomes })
      d) := by
  induction hooks generalizing d with
  | nil => exact h
  | cons hook hooks ih =>
    have hrun := h.runHook hhooked hnonce hook
    -- what came of the hook is written down, and that touches no member
    exact ih (hrun.stirred ⟨⟨rfl, rfl, rfl, rfl, fun _ => rfl⟩, fun _ r hr => ⟨r, hr, .nothing r⟩,
      fun _ x hx => ⟨x, hx, .nothing x⟩⟩)

omit hhooked in
/-- The hooks of a member do nothing if it has none. -/
theorem Carried.runHooks {m : Member}
    (hhooks : ∀ id x, m = .standIn id → d.standIns.get? id = some x → x.hooks ≠ [] → hooked) :
    Carried hooked command stamp nodes [] c (d.runHooks m) := by
  cases m with
  | replica host => exact h
  | standIn id =>
    cases hx : d.standIns.get? id with
    | none =>
      have heq : d.runHooks (.standIn id) = d := by
        simp only [Cluster.runHooks, hx, Option.map_none, Option.getD_none, List.foldl_nil]
      rwa [heq]
    | some x =>
      have heq : d.runHooks (.standIn id) = x.hooks.foldl
          (fun c hook =>
            let (outcome, c) := c.runHook hook
            { c with hookOutcomes := outcome :: c.hookOutcomes })
          d := by
        simp only [Cluster.runHooks, hx, Option.map_some, Option.getD_some]
      rw [heq]
      by_cases hnil : x.hooks = []
      · rw [hnil]
        exact h
      · exact h.foldHooks (hhooks id x rfl hx hnil) hnonce x.hooks

end

/-! ### The command -/

/-- **A member that is told** executes the command, and its reply is that of the execution. -/
theorem carried_tell {m : Member} (hlive : c.isLive m = true) :
    Carried hooked command stamp c.view.length [(m, (c.tell m .ordered command stamp).1)] c
      (c.tell m .ordered command stamp).2 := by
  cases m with
  | replica host =>
    obtain ⟨r, hr⟩ := Option.isSome_iff_exists.mp hlive
    have htell : c.tell (.replica host) .ordered command stamp =
        c.updateReplica host (c.told .ordered command stamp) [] := rfl
    rw [htell, updateReplica_of_some hr]
    refine carried_setReplica hr ?_ fun m hm => repliesOf_of_ne hm _
    rw [repliesOf_self]
    exact .executed (.nothing _)
  | standIn id =>
    obtain ⟨x, hx⟩ := Option.isSome_iff_exists.mp hlive
    have htell : c.tell (.standIn id) .ordered command stamp =
        (x.reply, { c with standIns := c.standIns.insert id (x.note (.command stamp)) }) := by
      simp only [tell, hx]
    rw [htell]
    refine carried_setStandIn hx ?_ fun m hm => repliesOf_of_ne hm _
    rw [repliesOf_self]
    exact .executed (.nothing _)

/-- **Members that are all there** execute the command as often as they are told, and give their replies in doing so. -/
theorem carried_tellAll (hnonce : stamp.nonce ≠ []) {ms : List Member} (hlive : ∀ m ∈ ms, c.isLive m = true)
    (hhooks : ∀ id x, .standIn id ∈ ms → c.standIns.get? id = some x → x.hooks ≠ [] → hooked) :
    Carried hooked command stamp c.view.length (ms.zip (tellAll command stamp ms c).1) c
      (tellAll command stamp ms c).2 := by
  induction ms generalizing c with
  | nil => exact .refl c
  | cons m ms ih =>
    obtain ⟨hnow, hlater⟩ := List.forall_mem_cons.mp hlive
    have htold : Carried hooked command stamp c.view.length [(m, (c.tell m .ordered command stamp).1)] c
        (c.tell m .ordered command stamp).2 := carried_tell hnow
    have hrun : Carried hooked command stamp c.view.length [(m, (c.tell m .ordered command stamp).1)] c
        ((c.tell m .ordered command stamp).2.runHooks m) := by
      refine htold.trans ((Carried.refl _).runHooks hnonce fun id y hm hy hne => ?_)
      obtain ⟨x, hx, hhooks'⟩ := htold.exists_hooks_eq (hm ▸ hnow) hy
      exact hhooks id x (hm ▸ List.mem_cons_self) hx (hhooks' ▸ hne)
    have hrest := ih (fun m' hm' => (hrun.sameView.isLive m').trans (hlater m' hm')) fun id y hid hy hne => by
      obtain ⟨x, hx, hhooks'⟩ := hrun.exists_hooks_eq (hlater _ hid) hy
      exact hhooks id x (List.mem_cons_of_mem m hid) hx (hhooks' ▸ hne)
    rw [hrun.sameView.view_eq] at hrest
    exact hrun.trans hrest

/-- Some member that is there touches others while a command is carried to them. -/
def Hooked (c : Cluster) : Prop :=
  ∃ id x, .standIn id ∈ c.live.map Prod.snd ∧ c.standIns.get? id = some x ∧ x.hooks ≠ []

/-- The members that are there, each with its reply to an ordered command. -/
def given (c : Cluster) (command : Bytes) : List (Member × Bytes) :=
  (c.live.map Prod.snd).zip (c.tellLive command).1

theorem isLive_of_mem_live {m : Member} (h : m ∈ c.live.map Prod.snd) : c.isLive m = true := by
  obtain ⟨e, he, rfl⟩ := List.mem_map.mp h
  exact (List.mem_filter.mp he).2

theorem order_snd (c : Cluster) (command : Bytes) : (c.order command).2 = (c.tellLive command).2 := by
  rw [order_eq]
  split_ifs with hempty
  · rw [tellLive, hempty]
    rfl
  · split <;> rfl

/-- **An ordered command** is carried to the members that are there, under one stamp. -/
theorem carried_order (c : Cluster) (command : Bytes) :
    Carried c.Hooked command c.tick.stamp c.live.length (c.given command) c.tick (c.order command).2 := by
  have hnonce : c.tick.stamp.nonce ≠ [] := by
    rw [← List.length_pos_iff_ne_nil, stamp, Bytes.length_bigEndian]
    decide
  have hnodes : c.tick.view.length = c.live.length := List.length_map _
  rw [order_snd, ← hnodes]
  exact carried_tellAll hnonce (fun m hm => isLive_of_mem_live hm) fun id x hid hx hne => ⟨id, x, hid, hx, hne⟩

/-- A member gives as many replies as it is listed. -/
theorem length_repliesOf_zip (m : Member) {ms : List Member} {replies : List Bytes} (h : replies.length = ms.length) :
    (repliesOf m (ms.zip replies)).length = ms.count m := by
  have hfirst : (ms.zip replies).map Prod.fst = ms := List.map_fst_zip (Nat.le_of_eq h.symm)
  calc (repliesOf m (ms.zip replies)).length = (ms.zip replies).countP (·.1 = m) := by
        rw [repliesOf, List.length_map, List.countP_eq_length_filter]
    _ = ((ms.zip replies).map Prod.fst).count m := by
        rw [List.count, List.countP_map]
        exact List.countP_congr fun e _ => by simp
    _ = ms.count m := by rw [hfirst]

theorem nodup_view (c : Cluster) : c.view.Nodup := by
  have hsublist : c.view.Sublist c.members.keys := List.filter_sublist.map Prod.fst
  exact hsublist.nodup c.members.nodup_keys

/-- How an ordered command is executed. -/
structure Delivers (c : Cluster) (command : Bytes) : Prop where
  /-- Every id is listed once. -/
  nodup_view : c.view.Nodup
  /-- A member executes the command once for every id under which it is listed, and its replies are those that count. -/
  length_repliesOf : ∀ m, (repliesOf m (c.given command)).length = (c.live.map Prod.snd).count m
  /-- Everywhere it is the same command under the same stamp. -/
  carried : Carried c.Hooked command c.tick.stamp c.live.length (c.given command) c.tick (c.order command).2
  /-- Without hooks a replica with a single id does nothing but execute the command. -/
  alone : ¬ c.Hooked → ∀ k r, c.replica? k = some r → (c.live.map Prod.snd).count (.replica k) = 1 →
    repliesOf (.replica k) (c.given command) = [(r.deliver .ordered command c.tick.stamp c.live.length).1.encode] ∧
      (c.order command).2.replica? k = some (r.deliver .ordered command c.tick.stamp c.live.length).2

theorem delivers (c : Cluster) (command : Bytes) : c.Delivers command := by
  have hlength : (c.tellLive command).1.length = (c.live.map Prod.snd).length := length_tellAll _ _ _ _
  have hcount : ∀ m, (repliesOf m (c.given command)).length = (c.live.map Prod.snd).count m := fun m =>
    length_repliesOf_zip m hlength
  have hcarried := c.carried_order command
  refine ⟨c.nodup_view, hcount, hcarried, fun hno k r hr hone => ?_⟩
  obtain ⟨s, hs, hexecutes⟩ := hcarried.replicas k r hr
  obtain ⟨reply, hreply⟩ := List.length_eq_one_iff.mp ((hcount (.replica k)).trans hone)
  rw [hreply] at hexecutes ⊢
  obtain ⟨rfl, rfl⟩ := hexecutes.eq_of_not_hooked hno
  exact ⟨rfl, hs⟩

end Cluster

end ReplicatedLedger
