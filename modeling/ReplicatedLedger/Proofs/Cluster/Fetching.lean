import ReplicatedLedger.Proofs.Cluster.Asking
import ReplicatedLedger.Proofs.Ledger.Refinement
import ReplicatedLedger.Proofs.Sync.Fidelity

/-! # What a replica fetches from the leader

A replica learns from the leader how high its tip is, and the leader remembers that it leads (`leaderTip_of_leading`).
If the replica knows the leader's address, and whoever listens there answers from the leader's store, and that store
has all blocks up to the tip (`Supplies`), then the blocks come over whole: they stand over what the replica held, and
nothing else changes (`Supplies.fetched_whole`, `syncFromLeader_of_leading`). -/

namespace ReplicatedLedger

namespace Cluster

variable {c d : Cluster} {host k : ReplicaId} {l r s : Replica} {bottom : UInt64}

/-! ### Members -/

theorem SameNet.member?_eq (h : c.SameNet d) (id : ReplicaId) : d.member? id = c.member? id := by
  have hlive : d.isLive = c.isLive := by
    funext m
    cases m with
    | replica host => exact h.running host
    | standIn id => rw [isLive, isLive, h.standIns]
  rw [member?, member?, h.members, hlive]

theorem mem_view_of_member? {id : ReplicaId} {m : Member} (h : c.member? id = some m) : id ∈ c.view := by
  obtain ⟨hget, hlive⟩ := Option.filter_eq_some_iff.mp h
  have hentry : (id, m) ∈ c.live := List.mem_filter.mpr ⟨(SortedMap.get?_eq_some_iff _).mp hget, hlive⟩
  exact List.mem_map_of_mem hentry

theorem leading?_setReplica_self (h : c.leading? = some (host, l)) (s : Replica) :
    (c.setReplica host s).leading? = some (host, s) := by
  obtain ⟨hmember, hl⟩ := leading?_eq_some_iff.mp h
  refine leading?_eq_some_iff.mpr ⟨((sameNet_setReplica hl s).member?_eq _).trans hmember, ?_⟩
  rw [replica?_setReplica, if_pos rfl]

theorem leading?_setReplica_of_ne (h : c.leading? = some (host, l)) (hr : c.replica? k = some r) (hne : k ≠ host)
    (s : Replica) : (c.setReplica k s).leading? = some (host, l) := by
  obtain ⟨hmember, hl⟩ := leading?_eq_some_iff.mp h
  refine leading?_eq_some_iff.mpr ⟨((sameNet_setReplica hr s).member?_eq _).trans hmember, ?_⟩
  rw [replica?_setReplica, if_neg (Ne.symm hne), hl]

/-- Of two replicas that are put in one place the later one stays. -/
theorem setReplica_setReplica (c : Cluster) (host : ReplicaId) (r s : Replica) :
    (c.setReplica host r).setReplica host s = c.setReplica host s := by
  simp only [setReplica, setHost, SortedMap.insert_insert]

/-! ### Listeners -/

/-- What is served depends on the stores of the hosts. -/
theorem listener_congr (hservers : d.servers = c.servers)
    (hstores : ∀ k, (d.hosts.get? k).map Host.store = (c.hosts.get? k).map Host.store) : d.listener = c.listener := by
  funext address
  unfold listener
  rw [hservers]
  split_ifs
  · cases c.servers.get? address with
    | none => rfl
    | some k =>
      have hstore := hstores k
      simp only [Option.bind_some]
      cases hd : d.hosts.get? k with
      | none =>
        rw [hd] at hstore
        rw [Option.map_eq_none_iff.mp hstore.symm]
      | some x =>
        rw [hd] at hstore
        obtain ⟨y, hy, hxy⟩ := Option.map_eq_some_iff.mp hstore.symm
        simp only [hy, hxy]
  · rfl

/-- Whoever serves the host of a replica answers from the store of its ledger. -/
theorem listener_of_served {address : String} (haddress : Sync.isAddress address = true)
    (hserver : c.servers.get? address = some k) (hr : c.replica? k = some r)
    (hnaming : r.settings.storage.naming = r.ledger.store.naming) :
    c.listener address = .ok fun request => (Sync.serve r.ledger.store request).2 := by
  obtain ⟨x, hx, hrunning⟩ := Option.bind_eq_some_iff.mp hr
  have hstore : x.store = r.ledger.store := by
    cases x with
    | stopped settings dir => cases hrunning
    | running q =>
      cases hrunning
      simp only [Host.store, Host.settings, Host.dir, hnaming]
      rfl
  simp only [listener, haddress, if_true, hserver, Option.bind_some, hx, hstore]

/-- A replica with the same directory serves the same. -/
theorem listener_setReplica (hr : c.replica? k = some r) (hsettings : s.settings = r.settings) (hdir : s.dir = r.dir) :
    (c.setReplica k s).listener = c.listener := by
  refine listener_congr rfl fun j => ?_
  rw [setReplica, setHost, SortedMap.get?_insert]
  split_ifs with hj
  · obtain ⟨x, hx, hrunning⟩ := Option.bind_eq_some_iff.mp hr
    cases x with
    | stopped settings dir => cases hrunning
    | running q =>
      cases hrunning
      simp only [hj, hx, Option.map_some, Host.store, Host.settings, Host.dir, hsettings, hdir]
  · rfl

/-! ### The tip of the leader -/

theorem query_of_leading (h : c.leading? = some (host, l)) (request : Request) (hrequest : request.Fits)
    (hanswer : ((l.observe c.leader).answer c.view.length request).Fits) : Sync.query c request =
      (.ok ((l.observe c.leader).answer c.view.length request), c.setReplica host (l.observe c.leader)) := by
  simp only [Sync.query, Queryable.ask, askLeader_of_leading h hrequest, Reply.decode_encode hanswer]
  rfl

/-- **The leader tells** that it leads, and the height of its tip. -/
theorem leaderTip_of_leading (h : c.leading? = some (host, l)) : Sync.leaderTip c =
    (.ok (c.leader, l.ledger.tipHeight), c.setReplica host (l.observe c.leader)) := by
  have hasked := leading?_setReplica_self h (l.observe c.leader)
  have hleader : Sync.query c .leader = (.ok (.leader c.leader), c.setReplica host (l.observe c.leader)) :=
    query_of_leading h .leader trivial trivial
  have hheight : Sync.query (c.setReplica host (l.observe c.leader)) .height =
      (.ok (.height l.ledger.tipHeight), c.setReplica host (l.observe c.leader)) := by
    rw [query_of_leading hasked .height trivial trivial, setReplica_setReplica]
    rfl
  simp only [Sync.leaderTip, hleader, hheight]

/-! ### Blocks of the leader -/

/-- The replica `l` on a host leads, and another replica can fetch from it all blocks from a height up: it knows an
address other than its own where whoever listens answers from the leader's store, this store has all the blocks up to
the leader's tip, none of them too long, and the own store refuses none. -/
structure Supplies (c : Cluster) (r : Replica) (host : ReplicaId) (l : Replica) (bottom : UInt64) : Prop where
  leads : c.leading? = some (host, l)
  other : c.leader ≠ r.id
  listens : ∃ address, r.settings.transfer.peers.get? c.leader = some address ∧
    c.listener address = .ok fun request => (Sync.serve l.ledger.store request).2
  requestable : Sync.FitsRequest l.ledger.tipHeight
  readable : ∀ height, bottom ≤ height → height ≤ l.ledger.tipHeight →
    ∃ b, l.ledger.store.readable height = some b ∧ 1 + b.encode.length ≤ Block.Record.maxLength
  written : ∀ e, (Sync.fetch r.ledger.store (.ok fun request => (Sync.serve l.ledger.store request).2)
    r.settings.transfer.patience bottom l.ledger.tipHeight).result ≠ .error (.store e)

/-- So it is when the store has the blocks of the range in descending order, and the own store takes them. -/
theorem supplies_of_descends (hleads : c.leading? = some (host, l)) (hother : c.leader ≠ r.id) {address : String}
    (hpeer : r.settings.transfer.peers.get? c.leader = some address)
    (hlistener : c.listener address = .ok fun request => (Sync.serve l.ledger.store request).2)
    (htop : Sync.FitsRequest l.ledger.tipHeight) (hrange : bottom ≤ l.ledger.tipHeight) {bs : List Block}
    (hlength : bs.length = l.ledger.tipHeight.toNat - bottom.toNat + 1) (hdescends : Sync.Descends bottom.toNat bs)
    (hread : ∀ b ∈ bs, l.ledger.store.readable b.height = some b)
    (hshort : ∀ b ∈ bs, 1 + b.encode.length ≤ Block.Record.maxLength) (htakes : r.ledger.store.TakesAll bs) :
    c.Supplies r host l bottom where
  leads := hleads
  other := hother
  listens := ⟨address, hpeer, hlistener⟩
  requestable := htop
  readable height hge hle := by
    rw [UInt64.le_iff_toNat_le] at hge hle
    obtain ⟨b, hb, hheight⟩ := hdescends.exists_iff.mpr ⟨hge, by omega⟩
    obtain rfl := UInt64.toNat_inj.mp hheight
    exact ⟨b, hread b hb, hshort b hb⟩
  written := Sync.fetch_not_refused hrange htop hlength hdescends hread hshort htakes

/-- It is the replica's settings and its store that matter. -/
theorem Supplies.setReplica (h : c.Supplies r host l bottom) (hr : c.replica? k = some r) (hne : k ≠ host)
    (hid : s.id = r.id) (hsettings : s.settings = r.settings) (hstore : s.ledger.store = r.ledger.store) :
    (c.setReplica k s).Supplies s host l bottom where
  leads := leading?_setReplica_of_ne h.leads hr hne s
  other := hid ▸ h.other
  listens := by
    rw [listener_setReplica hr hsettings (congrArg Store.dir hstore), hsettings]
    exact h.listens
  requestable := h.requestable
  readable := h.readable
  written := by
    rw [hstore, hsettings]
    exact h.written

/-- What a replica fetches from the leader. -/
def fetchedFrom (c : Cluster) (r : Replica) (bottom : UInt64) : Sync.Fetched :=
  (r.syncClient.fromLeader c listener r.ledger.store bottom).1

theorem Supplies.fetchedFrom_eq (h : c.Supplies r host l bottom) : c.fetchedFrom r bottom =
    if bottom > l.ledger.tipHeight then ⟨.ok 0, r.ledger.store, none⟩
    else Sync.fetch r.ledger.store (.ok fun request => (Sync.serve l.ledger.store request).2)
      r.settings.transfer.patience bottom l.ledger.tipHeight := by
  obtain ⟨hmember, hl⟩ := leading?_eq_some_iff.mp h.leads
  obtain ⟨address, hpeer, hlistener⟩ := h.listens
  have hview : c.leader ∈ (c.setReplica host (l.observe c.leader)).view :=
    mem_view_of_member? (((sameNet_setReplica hl (l.observe c.leader)).member?_eq _).trans hmember)
  have hanswers : (c.setReplica host (l.observe c.leader)).listener address =
      .ok fun request => (Sync.serve l.ledger.store request).2 := by
    rw [listener_setReplica (s := l.observe c.leader) hl rfl rfl, hlistener]
  have hknown : r.syncClient.address (c.setReplica host (l.observe c.leader)).view c.leader = .ok address := by
    unfold Sync.Client.address
    rw [if_neg (not_not.mpr hview), if_neg (show c.leader ≠ r.syncClient.self from h.other)]
    simp only [Replica.syncClient, hpeer]
  simp only [fetchedFrom, Sync.Client.fromLeader, leaderTip_of_leading h.leads, Queryable.view, hknown, hanswers]
  split_ifs <;> rfl

/-- **All blocks come over** to a replica that waits for them: they stand over what it held. -/
theorem Supplies.fetched_whole (h : c.Supplies r host l bottom) (hpatience : r.settings.transfer.patience ≠ some 0)
    (hon : r.ledger.store.naming.LeadsOn) :
    (c.fetchedFrom r bottom).result = .ok (l.ledger.tipHeight.toNat + 1 - bottom.toNat) ∧
    (c.fetchedFrom r bottom).store.naming = r.ledger.store.naming ∧
    ∀ height, (c.fetchedFrom r bottom).store.readable height =
      if bottom ≤ height ∧ height ≤ l.ledger.tipHeight then l.ledger.store.readable height
      else r.ledger.store.readable height := by
  rw [h.fetchedFrom_eq]
  by_cases hempty : bottom > l.ledger.tipHeight
  · have hnone : l.ledger.tipHeight.toNat + 1 - bottom.toNat = 0 :=
      Nat.sub_eq_zero_of_le (UInt64.lt_iff_toNat_lt.mp hempty)
    rw [if_pos hempty, hnone]
    refine ⟨rfl, rfl, fun height => ?_⟩
    rw [if_neg fun hin => UInt64.not_le.mpr hempty (UInt64.le_trans hin.1 hin.2)]
  · have hrange : bottom ≤ l.ledger.tipHeight := UInt64.not_lt.mp hempty
    have hcount : l.ledger.tipHeight.toNat + 1 - bottom.toNat = l.ledger.tipHeight.toNat - bottom.toNat + 1 :=
      Nat.sub_add_comm (UInt64.le_iff_toNat_le.mp hrange)
    rw [if_neg hempty, hcount]
    exact Sync.fetch_whole hrange h.requestable hpatience h.written hon h.readable

/-- **Without any patience** nothing comes over. -/
theorem Supplies.fetchedFrom_of_impatient (h : c.Supplies r host l bottom)
    (hpatience : r.settings.transfer.patience = some 0) (hmissing : bottom ≤ l.ledger.tipHeight) :
    c.fetchedFrom r bottom = ⟨.error (.connection .invalidInput), r.ledger.store, none⟩ := by
  rw [h.fetchedFrom_eq, if_neg (UInt64.not_lt.mpr hmissing), hpatience,
    Sync.fetch_of_impatient _ _ hmissing h.requestable]

/-- The replica stores what it fetches; of the others the leader remembers that it leads. -/
theorem syncFromLeader_of_leading (h : c.leading? = some (host, l)) (hr : c.replica? k = some r) (hne : k ≠ host)
    (bottom : UInt64) : c.syncFromLeader k bottom = ((c.fetchedFrom r bottom).result,
      (c.setReplica host (l.observe c.leader)).setReplica k (r.withStore (c.fetchedFrom r bottom).store)) := by
  have hthere : (c.setReplica host (l.observe c.leader)).replica? k = some r := by
    rw [replica?_setReplica, if_neg hne, hr]
  have hnet := r.syncClient.net_fromLeader c listener r.ledger.store bottom
  rw [leaderTip_of_leading h] at hnet
  simp only [syncFromLeader, hr, hnet, updateReplica_of_some hthere]
  rfl

/-! ### Loading the ledger anew -/

/-- **A replica of which something can be read** loads its ledger anew; its store stays, and the ledger goes up to the
highest block in it. -/
theorem reload_of_readable (hr : c.replica? k = some r) (hflat : r.ledger.store.naming.Flat) {height : UInt64}
    (hsome : (r.ledger.store.readable height).isSome) :
    ∃ m : Ledger, m.Faithful ∧ m.store = r.ledger.store ∧
      c.reload k = (.ok (), c.setReplica k { r with ledger := m }) := by
  obtain ⟨w, hreload, hfaithful⟩ := Ledger.exists_reload hflat hsome
  refine ⟨_, hfaithful, rfl, ?_⟩
  rw [reload, updateReplica_of_some hr]
  simp only [hreload]

end Cluster

/-! ### A leader and another replica -/

/-- A store of blocks that were written one after the other. -/
def Store.filled (naming : Naming) (bs : List Block) : Store := (⟨naming, .fresh⟩ : Store).writeAll bs

theorem Store.mem_of_readable_writeAll {s : Store} {bs : List Block} {b : Block} {height : UInt64}
    (h : (s.writeAll bs).readable height = some b) : b ∈ bs ∨ s.readable height = some b := by
  induction bs generalizing s with
  | nil => exact Or.inr h
  | cons d bs ih =>
    rcases ih h with hlater | hfirst
    · exact Or.inl (List.mem_cons_of_mem d hlater)
    · rcases readable_write hfirst with rfl | hold
      · exact Or.inl List.mem_cons_self
      · exact Or.inr hold

/-- There is nothing else in it. -/
theorem Store.mem_of_readable_filled {naming : Naming} {bs : List Block} {b : Block} {height : UInt64}
    (h : (filled naming bs).readable height = some b) : b ∈ bs := by
  have hfresh : Directory.fresh.HoldsOnly fun _ => False := Directory.holdsOnly_empty _ _ _
  exact (mem_of_readable_writeAll h).resolve_right fun hnone =>
    holdsOnly_read (s := ⟨naming, .fresh⟩) hfresh (readable_eq_some_iff.mp hnone)

theorem Store.readable_filled {naming : Naming} {bs : List Block} {b : Block} (hon : naming.LeadsOn)
    (hdistinct : bs.Pairwise fun b d => b.height ≠ d.height) (htakes : (⟨naming, .fresh⟩ : Store).TakesAll bs)
    (hfits : Wire.FitsSize (1 + b.encode.length)) (hb : b ∈ bs) : (filled naming bs).readable b.height = some b := by
  have hapart : bs.Pairwise fun b d => (⟨naming, .fresh⟩ : Store).Apart b.height d.height :=
    hdistinct.imp fun hne => Naming.LeadsOn.apart (s := ⟨naming, .fresh⟩) hon hne
  exact (htakes.gains hapart).readable hb hfits

theorem Store.readable_filled_singleton {naming : Naming} {b : Block} (hon : naming.LeadsOn)
    (htakes : (⟨naming, .fresh⟩ : Store).TakesAll [b]) (hfits : Wire.FitsSize (1 + b.encode.length)) (height : UInt64) :
    (filled naming [b]).readable height = if height = b.height then some b else none := by
  split_ifs with heq
  · exact heq ▸ readable_filled hon (List.pairwise_singleton _ _) htakes hfits List.mem_cons_self
  · by_contra hsome
    obtain ⟨d, hd⟩ := Option.ne_none_iff_exists'.mp hsome
    obtain rfl := List.mem_singleton.mp (mem_of_readable_filled hd)
    exact heq (height_of_readable hd).symm

/-- File names that lead into the directory itself, where no file name has a slash. -/
def Settings.slashed : Settings :=
  { Cluster.fetching with storage := { Storage.standard with naming := ⟨"./b", "blk"⟩ } }

/-- No patience at all. -/
def Settings.hasty : Settings :=
  { Cluster.fetching with transfer := { Cluster.fetching.transfer with patience := some 0 } }

namespace Cluster

/-- A replica that leads, and whose store is served. -/
def alone : Cluster := ({ empty 0 with servers := .ofList [("a:1", 0)] }.startAll fetching [0]).register 0 0

theorem reachable_alone : alone.Reachable :=
  (((Reachable.empty 0).serve (.ofList [("a:1", 0)])).startAll fetching [0]).perform (.register 0 0)

/-- Another replica with the settings starts over an empty directory, and becomes a member. -/
def joined (c : Cluster) (settings : Settings) : Cluster := (c.start 1 settings .fresh).2.register 1 1

/-- The replica `l` leads on the host 0, and the replica `r` on the host 1 knows the address of its server. -/
structure Paired (c : Cluster) (settings : Settings) (r l : Replica) : Prop where
  leads : c.leading? = some (0, l)
  running : c.replica? 1 = some r
  leader : c.leader = 0
  server : c.servers.get? "a:1" = some 0
  id : r.id = 1
  configured : r.settings = settings
  peer : r.settings.transfer.peers.get? 0 = some "a:1"
  naming : l.settings.storage.naming = l.ledger.store.naming

/-- Whether it is so, and a test holds of the two. -/
def isPaired (c : Cluster) (settings : Settings) (test : Replica → Replica → Bool) : Bool :=
  c.leading?.any fun (found : ReplicaId × Replica) => (c.replica? 1).any fun (r : Replica) =>
    decide (found.1 = 0 ∧ c.leader = 0 ∧ c.servers.get? "a:1" = some 0 ∧ r.id = 1 ∧ r.settings = settings ∧
      r.settings.transfer.peers.get? 0 = some "a:1" ∧
      found.2.settings.storage.naming = found.2.ledger.store.naming) && test r found.2

variable {c : Cluster} {settings : Settings} {r l : Replica} {bottom : UInt64}

theorem exists_paired {test : Replica → Replica → Bool} (h : c.isPaired settings test = true) :
    ∃ r l, c.Paired settings r l ∧ test r l = true := by
  obtain ⟨⟨host, l⟩, hleads, hl⟩ := (Option.any_eq_true _ _).mp h
  obtain ⟨r, hr, hchecked⟩ := (Option.any_eq_true _ _).mp hl
  rw [Bool.and_eq_true, decide_eq_true_iff] at hchecked
  obtain ⟨⟨rfl, hleader, hserver, hid, hsettings, hpeer, hnaming⟩, htest⟩ := hchecked
  exact ⟨r, l, ⟨hleads, hr, hleader, hserver, hid, hsettings, hpeer, hnaming⟩, htest⟩

/-- The leader can supply the blocks of its store that the other takes. -/
theorem Paired.supplies (h : c.Paired settings r l) (htop : Sync.FitsRequest l.ledger.tipHeight)
    (hrange : bottom ≤ l.ledger.tipHeight) {bs : List Block}
    (hlength : bs.length = l.ledger.tipHeight.toNat - bottom.toNat + 1) (hdescends : Sync.Descends bottom.toNat bs)
    (hread : ∀ b ∈ bs, l.ledger.store.readable b.height = some b)
    (hshort : ∀ b ∈ bs, 1 + b.encode.length ≤ Block.Record.maxLength) (htakes : r.ledger.store.TakesAll bs) :
    c.Supplies r 0 l bottom := by
  have hlistener := listener_of_served (by decide) h.server (leading?_eq_some_iff.mp h.leads).2 h.naming
  refine supplies_of_descends h.leads ?_ (h.leader ▸ h.peer) hlistener htop hrange hlength hdescends hread hshort htakes
  rw [h.leader, h.id]
  decide

end Cluster

end ReplicatedLedger
