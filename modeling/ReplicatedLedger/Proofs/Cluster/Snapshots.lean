import ReplicatedLedger.Proofs.Cluster.Fetching
import ReplicatedLedger.Proofs.Ledger.Links
import ReplicatedLedger.Proofs.Pool.Firsts

/-! # What a snapshot brings

A snapshot holds the pending transactions of a replica in their order, and nothing else; it is read back as they were
if four bytes can count them (`Pool.exists_ofSnapshot_iff`). Whoever gets it drops its candidate, loads its ledger anew,
and catches up with the leader. If the leader can supply what is missing, then the replica ends with the transactions of
the one and the chain of the other (`transfer_catches_up`). -/

namespace ReplicatedLedger

open Wire

/-! ### Pools -/

/-- What a snapshot brings was counted in four bytes. -/
theorem Pool.fitsSize_of_ofSnapshot {q : Pool} {snapshot : Bytes} {max : Nat} (h : ofSnapshot snapshot max = .ok q) :
    FitsSize q.queue.length := by
  unfold ofSnapshot at h
  cases hdecode : Transaction.decodeList snapshot max with
  | error e =>
    rw [hdecode] at h
    cases h
  | ok ts =>
    rw [hdecode] at h
    cases h
    rw [queue_ofList]
    exact (Transaction.fitsSize_of_decodeList hdecode).mono (firsts_sublist ts).length_le

/-- **A snapshot is read back** as the queue that it was taken of, if four bytes can count that. -/
theorem Pool.exists_ofSnapshot_iff {p : Pool} {max : Nat} (hp : p.Consistent) (hfits : ∀ t ∈ p.queue, t.Fits)
    (hsizes : ∀ t ∈ p.queue, t.size ≤ max) :
    (∃ q, ofSnapshot p.snapshot max = .ok q ∧ q.queue = p.queue) ↔ FitsSize p.queue.length := by
  constructor
  · rintro ⟨q, hq, hqueue⟩
    exact hqueue ▸ fitsSize_of_ofSnapshot hq
  · intro hnumber
    refine ⟨ofList p.queue, ?_, ?_⟩
    · rw [ofSnapshot, snapshot, Transaction.decodeList_encodeList hnumber hfits hsizes]
      rfl
    · exact queue_pushAll_of_new consistent_empty hp.nodup fun t _ hin => List.not_mem_nil hin

/-! ### Ledgers -/

namespace Ledger

variable {l m : Ledger}

/-- A ledger whose store reads the blocks of another ledger, and none else, finds the same chain. -/
theorem Mirrors.same_chain (hm : m.Mirrors) (hread : ∀ height, m.store.readable height = l.block? height) :
    m.tipHeight = l.tipHeight ∧ (∀ height, m.block? height = l.block? height) ∧ m.isChainValid = l.isChainValid := by
  have hblocks : ∀ height, m.block? height = l.block? height := by
    intro height
    by_cases hle : height ≤ m.tipHeight
    · rw [hm.below height hle, hread]
    · have hnone : m.store.readable height = none := by
        by_contra hsome
        exact hle (hm.highest height (Option.isSome_iff_ne_none.mpr hsome))
      rw [hm.above height (UInt64.not_le.mp hle), ← hread, hnone]
  have htip : m.tip = l.tip := tip_eq_of_block?_eq hblocks
  have hheight : m.tipHeight = l.tipHeight := congrArg Block.height htip
  refine ⟨hheight, hblocks, ?_⟩
  rw [isChainValid, isChainValid, hheight, htip]
  exact linkedFrom_congr hblocks _ _

/-- A faithful ledger goes up to the highest block in its store. -/
theorem Faithful.tipHeight_eq (hm : m.Faithful) {top : UInt64} (htop : (m.store.readable top).isSome)
    (habove : ∀ height > top, m.store.readable height = none) : m.tipHeight = top := by
  refine UInt64.le_antisymm ?_ (hm.mirrors.highest top htop)
  by_contra hgt
  have htip := hm.mirrors.tip
  rw [habove m.tipHeight (UInt64.not_le.mp hgt)] at htip
  cases htip

end Ledger

namespace Cluster

variable {c : Cluster} {host j k source target : ReplicaId} {f l r : Replica} {t : UInt64}

/-! ### Catching up -/

/-- **A replica that catches up** with a leader that can supply what is above its tip: the leader's blocks stand over
those that it had, and its ledger goes up to the highest of them. -/
theorem Supplies.catchUp (h : c.Supplies r host l (r.ledger.tipHeight + 1))
    (hpatience : r.settings.transfer.patience ≠ some 0) (hr : c.replica? k = some r) (hne : k ≠ host)
    (hfaithful : r.ledger.Faithful) : ∃ s, (c.catchUp k).replica? k = some s ∧ s.pool = r.pool ∧
      s.pending = r.pending ∧ s.ledger.Faithful ∧ ∀ height, s.ledger.store.readable height =
        if r.ledger.tipHeight + 1 ≤ height ∧ height ≤ l.ledger.tipHeight then l.ledger.store.readable height
        else r.ledger.store.readable height := by
  obtain ⟨hresult, hnaming, hread⟩ := h.fetched_whole hpatience hfaithful.flat.leadsOn
  have heq := h.fetchedFrom_eq
  have hsync := syncFromLeader_of_leading h.leads hr hne (r.ledger.tipHeight + 1)
  rw [hresult] at hsync
  by_cases hempty : r.ledger.tipHeight + 1 > l.ledger.tipHeight
  · -- nothing is missing, and the store is as it was
    have hnone : l.ledger.tipHeight.toNat + 1 - (r.ledger.tipHeight + 1).toNat = 0 :=
      Nat.sub_eq_zero_of_le (UInt64.lt_iff_toNat_lt.mp hempty)
    rw [if_pos hempty] at heq
    rw [heq] at hread
    have hcatch : c.catchUp k = (c.setReplica host (l.observe c.leader)).setReplica k r := by
      simp only [Cluster.catchUp, hr, hsync, hnone, if_true, heq]
      rfl
    exact ⟨r, by rw [hcatch, replica?_setReplica, if_pos rfl], rfl, rfl, hfaithful, hread⟩
  · have hrange : r.ledger.tipHeight + 1 ≤ l.ledger.tipHeight := UInt64.not_lt.mp hempty
    have hmany : l.ledger.tipHeight.toNat + 1 - (r.ledger.tipHeight + 1).toNat ≠ 0 := by
      rw [UInt64.le_iff_toNat_le] at hrange
      omega
    have htop : ((c.fetchedFrom r (r.ledger.tipHeight + 1)).store.readable l.ledger.tipHeight).isSome := by
      obtain ⟨b, hb, -⟩ := h.readable l.ledger.tipHeight hrange (UInt64.le_refl _)
      rw [hread, if_pos ⟨hrange, UInt64.le_refl _⟩, hb, Option.isSome_some]
    generalize c.fetchedFrom r (r.ledger.tipHeight + 1) = fetched at hnaming hread hsync htop
    have hstored : ((c.setReplica host (l.observe c.leader)).setReplica k (r.withStore fetched.store)).replica? k =
        some (r.withStore fetched.store) := by
      rw [replica?_setReplica, if_pos rfl]
    obtain ⟨m, hloaded, hstore, hreload⟩ := reload_of_readable hstored (hnaming ▸ hfaithful.flat) htop
    refine ⟨{ r with ledger := m }, ?_, rfl, rfl, hloaded, fun height => hstore ▸ hread height⟩
    simp only [Cluster.catchUp, hr, hsync, hmany, if_false, hreload, replica?_setReplica, if_true]
    rfl

/-- **A replica that holds the leader's chain** up to some height, and nothing else, finds all of it when it has caught
up. -/
theorem Supplies.catchUp_of_shared (h : c.Supplies r host l (t + 1))
    (hpatience : r.settings.transfer.patience ≠ some 0) (hr : c.replica? k = some r) (hne : k ≠ host)
    (hfaithful : r.ledger.Faithful)
    (hchain : ∀ height ≤ l.ledger.tipHeight,
      ∃ b, l.ledger.block? height = some b ∧ l.ledger.store.readable height = some b)
    (ht : t ≤ l.ledger.tipHeight)
    (hshared : ∀ height, r.ledger.store.readable height = if height ≤ t then l.ledger.block? height else none) :
    ∃ s, (c.catchUp k).replica? k = some s ∧ s.pool = r.pool ∧ s.pending = r.pending ∧
      s.ledger.tipHeight = l.ledger.tipHeight ∧ (∀ height, s.ledger.block? height = l.ledger.block? height) ∧
      s.ledger.isChainValid = l.ledger.isChainValid := by
  have hthere : (r.ledger.store.readable t).isSome := by
    obtain ⟨b, hb, -⟩ := hchain t ht
    rw [hshared, if_pos (UInt64.le_refl t), hb, Option.isSome_some]
  have htip : r.ledger.tipHeight = t :=
    hfaithful.tipHeight_eq hthere fun height hgt => by rw [hshared, if_neg (UInt64.not_le.mpr hgt)]
  obtain ⟨s, hs, hpool, hpending, hsfaithful, hread⟩ := Supplies.catchUp (htip ▸ h) hpatience hr hne hfaithful
  -- what it had, and what it fetched, is the leader's chain
  have hsmall : t < 0x100000000 := UInt64.lt_iff_toNat_lt.mpr
    (Nat.lt_of_le_of_lt (UInt64.le_iff_toNat_le.mp ht) h.requestable)
  have hsame : ∀ height, s.ledger.store.readable height = l.ledger.block? height := by
    intro height
    have hnext : t + 1 ≤ height ↔ t < height := add_one_le_iff hsmall
    rw [hread, hshared, htip]
    by_cases hle : height ≤ t
    · rw [if_neg fun hin => UInt64.not_le.mpr (hnext.mp hin.1) hle, if_pos hle]
    · have hgt := hnext.mpr (UInt64.not_le.mp hle)
      by_cases hwithin : height ≤ l.ledger.tipHeight
      · obtain ⟨b, hb, hblock⟩ := hchain height hwithin
        rw [if_pos ⟨hgt, hwithin⟩, hblock, hb]
      · rw [if_neg fun hin => hwithin hin.2, if_neg hle, Ledger.block?_of_lt (UInt64.not_le.mp hwithin)]
  exact ⟨s, hs, hpool, hpending, hsfaithful.mirrors.same_chain hsame⟩

/-- Without any patience a catch-up brings nothing. -/
theorem Supplies.catchUp_of_impatient (h : c.Supplies r host l (r.ledger.tipHeight + 1))
    (hpatience : r.settings.transfer.patience = some 0) (hr : c.replica? k = some r) (hne : k ≠ host)
    (hmissing : r.ledger.tipHeight + 1 ≤ l.ledger.tipHeight) : (c.catchUp k).replica? k = some r := by
  have hfetched := h.fetchedFrom_of_impatient hpatience hmissing
  simp only [Cluster.catchUp, hr, syncFromLeader_of_leading h.leads hr hne, hfetched, replica?_setReplica, if_true]
  rfl

/-! ### Installing a snapshot -/

/-- **Installing a snapshot** that can be read, on a replica of which something can be read: its pool is that of the
snapshot, its candidate is gone, its ledger is loaded anew, and then it catches up. -/
theorem installSnapshot_eq (hr : c.replica? k = some r) (hflat : r.ledger.store.naming.Flat) {height : UInt64}
    (hsome : (r.ledger.store.readable height).isSome) {snapshot : Bytes} {pool : Pool}
    (hpool : Pool.ofSnapshot snapshot r.settings.maxSize = .ok pool) :
    ∃ m : Ledger, m.Faithful ∧ m.store = r.ledger.store ∧ c.installSnapshot k snapshot =
      (c.setReplica k { r with pool, pending := none, ledger := m }).catchUp k := by
  have hthere : (c.setReplica k { r with pool, pending := none }).replica? k =
      some { r with pool, pending := none } := by
    rw [replica?_setReplica, if_pos rfl]
  obtain ⟨m, hfaithful, hstore, hreload⟩ := reload_of_readable hthere hflat hsome
  refine ⟨m, hfaithful, hstore, ?_⟩
  simp only [installSnapshot, hr, hpool, hreload, setReplica_setReplica]

/-- **A transfer** from a member whose pending transactions the other takes, to one of which something can be read. -/
theorem transfer_eq (hreach : c.Reachable) (hsource : c.member? source = some (.replica j))
    (hf : c.replica? j = some f) (htarget : c.member? target = some (.replica k)) (hr : c.replica? k = some r)
    (hflat : r.ledger.store.naming.Flat) {height : UInt64} (hsome : (r.ledger.store.readable height).isSome)
    (hsizes : ∀ tx ∈ f.pool.queue, tx.size ≤ r.settings.maxSize) (hnumber : FitsSize f.pool.queue.length) :
    ∃ (pool : Pool) (m : Ledger), pool.queue = f.pool.queue ∧ m.Faithful ∧ m.store = r.ledger.store ∧
      c.transfer source target =
        (.ok (), (c.setReplica k { r with pool, pending := none, ledger := m }).catchUp k) := by
  have hfits := hreach.fits.replicas j f hf
  obtain ⟨pool, hpool, hqueue⟩ := (Pool.exists_ofSnapshot_iff hfits.consistent hfits.queue hsizes).mpr hnumber
  obtain ⟨m, hfaithful, hstore, hinstall⟩ := installSnapshot_eq hr hflat hsome hpool
  refine ⟨pool, m, hqueue, hfaithful, hstore, ?_⟩
  simp only [transfer, hsource, htarget, snapshot, hf, Option.map_some, Option.getD_some, hinstall]

/-- **State transfer and catching up.** Let a replica that is a member, and is not the leader, hold the leader's chain
up to some height and nothing else, let it wait for what it fetches and have no slashes in its file names, and let the
leader's ledger find all of its blocks as its store has them. When it gets the snapshot of any member whose pending
transactions it takes, and has caught up, then it has these transactions in their order, no candidate, and the leader's
chain, which is valid if the leader's is. -/
theorem transfer_catches_up (hreach : c.Reachable) (hsource : c.member? source = some (.replica j))
    (hf : c.replica? j = some f) (htarget : c.member? target = some (.replica k)) (hr : c.replica? k = some r)
    (hne : k ≠ host) (hsupplies : c.Supplies r host l (t + 1)) (hpatience : r.settings.transfer.patience ≠ some 0)
    (hflat : r.ledger.store.naming.Flat)
    (hchain : ∀ height ≤ l.ledger.tipHeight,
      ∃ b, l.ledger.block? height = some b ∧ l.ledger.store.readable height = some b)
    (ht : t ≤ l.ledger.tipHeight)
    (hshared : ∀ height, r.ledger.store.readable height = if height ≤ t then l.ledger.block? height else none)
    (hsizes : ∀ tx ∈ f.pool.queue, tx.size ≤ r.settings.maxSize) (hnumber : FitsSize f.pool.queue.length) :
    (c.transfer source target).1 = .ok () ∧ ∃ s, (c.transfer source target).2.replica? k = some s ∧
      s.pool.queue = f.pool.queue ∧ s.pending = none ∧ s.ledger.tipHeight = l.ledger.tipHeight ∧
      (∀ height, s.ledger.block? height = l.ledger.block? height) ∧
      s.ledger.isChainValid = l.ledger.isChainValid := by
  have hthere : (r.ledger.store.readable t).isSome := by
    obtain ⟨b, hb, -⟩ := hchain t ht
    rw [hshared, if_pos (UInt64.le_refl t), hb, Option.isSome_some]
  obtain ⟨pool, m, hqueue, hfaithful, hstore, htransfer⟩ :=
    transfer_eq hreach hsource hf htarget hr hflat hthere hsizes hnumber
  have hready := hsupplies.setReplica (s := { r with pool, pending := none, ledger := m }) hr hne rfl rfl hstore
  obtain ⟨s, hs, hspool, hspending, hcaught⟩ := hready.catchUp_of_shared hpatience
    (by rw [replica?_setReplica, if_pos rfl]) hne hfaithful hchain ht (hstore ▸ hshared)
  rw [htransfer]
  exact ⟨rfl, s, hs, (congrArg Pool.queue hspool).trans hqueue, hspending, hcaught⟩

/-! ### A replica that lags behind -/

/-- The leader has a block on the first one, and a transaction pending. -/
def ahead : Cluster := alone.run [.submit slim, .propose 0, .submit wide]

/-- The other replica has the first block alone. -/
def lagging (settings : Settings) : Cluster := ahead.joined settings

/-- The leader `l` can supply its block to the replica `r`, which holds the first one alone. -/
structure Lagging (settings : Settings) (r l : Replica) : Prop where
  running : (lagging settings).replica? 1 = some r
  source : (lagging settings).member? 0 = some (.replica 0)
  target : (lagging settings).member? 1 = some (.replica 1)
  leads : (lagging settings).replica? 0 = some l
  configured : r.settings = settings
  supplies : (lagging settings).Supplies r 0 l (0 + 1)
  tip : l.ledger.tipHeight = 1
  chain : ∀ height ≤ l.ledger.tipHeight,
    ∃ b, l.ledger.block? height = some b ∧ l.ledger.store.readable height = some b
  prefixed : ∀ height, r.ledger.store.readable height = if height ≤ 0 then l.ledger.block? height else none
  naming : r.ledger.store.naming = settings.storage.naming
  pending : l.pool.queue = [wide]

/-- What there is to test. -/
def isLagging (settings : Settings) (r l : Replica) : Bool :=
  decide (settings.storage.naming.LeadsOn ∧ (⟨settings.storage.naming, .fresh⟩ : Store).TakesAll [.genesis] ∧
    r.ledger.store = .filled settings.storage.naming [.genesis] ∧ r.ledger.store.TakesAll [l.ledger.tip] ∧
    l.ledger.tipHeight = 1 ∧ l.ledger.store = .filled .standard [.genesis, l.ledger.tip] ∧
    (⟨.standard, .fresh⟩ : Store).TakesAll [.genesis, l.ledger.tip] ∧
    1 + l.ledger.tip.encode.length ≤ Block.Record.maxLength ∧ l.ledger.block? 0 = some .genesis ∧
    l.pool.queue = [wide])

theorem reachable_lagging (settings : Settings) : (lagging settings).Reachable :=
  ((reachable_alone.run [.submit slim, .propose 0, .submit wide]).start 1 settings .fresh).perform (.register 1 1)

/-- A replica that runs is there once it is registered. -/
theorem member?_register {id : ReplicaId} (hr : c.replica? host = some r) :
    (c.register id host).member? id = some (.replica host) := by
  have hget : (c.register id host).members.get? id = some (.replica host) := by
    rw [register, SortedMap.get?_insert, if_pos rfl]
  refine Option.filter_eq_some_iff.mpr ⟨hget, ?_⟩
  exact Option.isSome_of_eq_some (show (c.register id host).replica? host = some r from hr)

/-- The settings that are looked at. -/
def habits : List Settings := [fetching, .slashed, .hasty]

theorem isPaired_lagging : ∀ settings ∈ habits,
    (lagging settings).isPaired settings (isLagging settings) = true := by decide +kernel

theorem exists_lagging {settings : Settings} (h : settings ∈ habits) : ∃ r l, Lagging settings r l := by
  obtain ⟨r, l, hpaired, htest⟩ := exists_paired (isPaired_lagging settings h)
  obtain ⟨hon, hone, hstore, htakes, htip, hheld, hboth, hshort, hfirst, hpending⟩ := of_decide_eq_true htest
  obtain ⟨hsource, hl⟩ := leading?_eq_some_iff.mp hpaired.leads
  have hheight : l.ledger.tip.height = 1 := htip
  have hdistinct : [Block.genesis, l.ledger.tip].Pairwise fun b d => b.height ≠ d.height := by
    rw [List.pairwise_pair, hheight]
    decide
  have hheld' : l.ledger.store.readable 1 = some l.ledger.tip := by
    rw [hheld, ← hheight]
    exact Store.readable_filled (by decide +kernel) hdistinct hboth (Nat.lt_of_le_of_lt hshort (by decide))
      (List.mem_cons_of_mem _ List.mem_cons_self)
  have hgenesis : l.ledger.store.readable 0 = some .genesis := by
    rw [hheld]
    exact Store.readable_filled (b := .genesis) (by decide +kernel) hdistinct hboth Ledger.fits_genesis
      List.mem_cons_self
  have hsupplies : (lagging settings).Supplies r 0 l (0 + 1) := by
    have hdescends : Sync.Descends ((0 : UInt64) + 1).toNat [l.ledger.tip] := by
      rw [Sync.Descends, List.map_singleton, hheight]
      rfl
    exact hpaired.supplies (by rw [htip]; decide) (by rw [htip]; decide) (by rw [htip]; rfl) hdescends
      (List.forall_mem_singleton.mpr (hheight ▸ hheld')) (List.forall_mem_singleton.mpr hshort) htakes
  have hchain : ∀ height ≤ l.ledger.tipHeight,
      ∃ b, l.ledger.block? height = some b ∧ l.ledger.store.readable height = some b := by
    intro height hle
    rw [htip, UInt64.le_iff_toNat_le] at hle
    rcases Nat.le_one_iff_eq_zero_or_eq_one.mp hle with hzero | hone
    · obtain rfl : height = 0 := UInt64.toNat_inj.mp hzero
      exact ⟨_, hfirst, hgenesis⟩
    · obtain rfl : height = 1 := UInt64.toNat_inj.mp hone
      exact ⟨_, htip ▸ l.ledger.block?_tipHeight, hheld'⟩
  have hprefixed : ∀ height, r.ledger.store.readable height = if height ≤ 0 then l.ledger.block? height else none := by
    intro height
    rw [hstore, Store.readable_filled_singleton hon hone Ledger.fits_genesis]
    by_cases hzero : height = 0
    · rw [hzero, if_pos (UInt64.le_refl 0), hfirst]
      rfl
    · rw [if_neg (mt UInt64.le_zero_iff.mp hzero)]
      exact if_neg hzero
  have hnaming : r.ledger.store.naming = settings.storage.naming := by rw [hstore, Store.filled, Store.naming_writeAll]
  exact ⟨r, l, hpaired.running, hpaired.leader ▸ hsource, member?_register hpaired.running, hl, hpaired.configured,
    hsupplies, htip, hchain, hprefixed, hnaming, hpending⟩

/-- The one transaction pending can be taken. -/
theorem Lagging.sizes {settings : Settings} {r l : Replica} (h : Lagging settings r l)
    (hmost : wide.size ≤ settings.maxSize) :
    (∀ tx ∈ l.pool.queue, tx.size ≤ r.settings.maxSize) ∧ FitsSize l.pool.queue.length := by
  rw [h.pending, h.configured]
  exact ⟨List.forall_mem_singleton.mpr hmost, by decide⟩

/-- The replica gets the one transaction that is pending, and the one block that it lacks. -/
theorem transfer_catches_up_lagging : ((lagging fetching).transfer 0 1).1 = .ok () ∧
    ∃ s, ((lagging fetching).transfer 0 1).2.replica? 1 = some s ∧ s.pool.queue = [wide] ∧ s.pending = none ∧
      s.ledger.tipHeight = 1 := by
  obtain ⟨r, l, h⟩ := exists_lagging (by simp [habits] : fetching ∈ habits)
  have hpatience : r.settings.transfer.patience ≠ some 0 := by
    rw [h.configured]
    decide
  have hflat : r.ledger.store.naming.Flat := by
    rw [h.naming]
    decide +kernel
  obtain ⟨hsizes, hnumber⟩ := h.sizes (by decide +kernel)
  obtain ⟨hok, s, hs, hqueue, hpending, hheight, -⟩ := transfer_catches_up (reachable_lagging fetching) h.source h.leads
    h.target h.running (by decide) h.supplies hpatience hflat h.chain UInt64.zero_le h.prefixed hsizes hnumber
  exact ⟨hok, s, hs, hqueue.trans h.pending, hpending, hheight.trans h.tip⟩

/-- **A replica may stay behind.** With slashes in its file names it does not find the block that it fetched, and
without patience it fetches none, although the leader can supply the block. -/
theorem exists_transfer_behind :
    (∃ r l, Lagging .slashed r l ∧ l.ledger.tipHeight = 1 ∧
      ∃ s, ((lagging .slashed).transfer 0 1).2.replica? 1 = some s ∧ s.ledger.tipHeight = 0) ∧
    ∃ r l, Lagging .hasty r l ∧ l.ledger.tipHeight = 1 ∧
      ∃ s, ((lagging .hasty).transfer 0 1).2.replica? 1 = some s ∧ s.ledger.tipHeight = 0 := by
  constructor
  · obtain ⟨r, l, h⟩ := exists_lagging (by simp [habits] : Settings.slashed ∈ habits)
    have htest : (((lagging .slashed).transfer 0 1).2.replica? 1).any
        (fun s => decide (s.ledger.tipHeight = 0)) = true := by decide +kernel
    obtain ⟨s, hs, hzero⟩ := (Option.any_eq_true _ _).mp htest
    exact ⟨r, l, h, h.tip, s, hs, of_decide_eq_true hzero⟩
  · obtain ⟨r, l, h⟩ := exists_lagging (by simp [habits] : Settings.hasty ∈ habits)
    have hflat : r.ledger.store.naming.Flat := by
      rw [h.naming]
      decide +kernel
    have hthere : (r.ledger.store.readable 0).isSome := by
      obtain ⟨b, hb, -⟩ := h.chain 0 UInt64.zero_le
      rw [h.prefixed, if_pos (UInt64.le_refl 0), hb, Option.isSome_some]
    obtain ⟨hsizes, hnumber⟩ := h.sizes (by decide +kernel)
    obtain ⟨pool, m, -, hfaithful, hstore, htransfer⟩ := transfer_eq (reachable_lagging .hasty) h.source h.leads
      h.target h.running hflat hthere hsizes hnumber
    have hzero : m.tipHeight = 0 := hfaithful.tipHeight_eq (hstore ▸ hthere) fun height hgt => by
      rw [hstore, h.prefixed, if_neg (UInt64.not_le.mpr hgt)]
    have hready := h.supplies.setReplica (s := { r with pool, pending := none, ledger := m }) h.running (by decide) rfl
      rfl hstore
    have hcaught := Supplies.catchUp_of_impatient (r := { r with pool, pending := none, ledger := m }) (hzero ▸ hready)
      (by rw [h.configured]; rfl) (by rw [replica?_setReplica, if_pos rfl]) (by decide)
      (by rw [h.tip, hzero]; decide)
    rw [htransfer]
    exact ⟨r, l, h, h.tip, _, hcaught, hzero⟩

end Cluster

end ReplicatedLedger
