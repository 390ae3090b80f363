import ReplicatedLedger.Proofs.Cluster.Fetching
import ReplicatedLedger.Proofs.Ledger.Links

/-! # What a check of a chain repairs

A check that finds a chain broken fetches all blocks from the first one up to the leader's tip, and loads the ledger
anew. The leader's blocks then stand over the own ones, but nothing is removed above them. So it is left to the blocks
there whether the chain is linked in the end: they have to go on from the leader's tip (`Store.Continues`), or there
are none (`check_repairs`). -/

namespace ReplicatedLedger

/-- What can be read above a block has consecutive heights, from the next one up, and each block names the one below
it as its parent. -/
def Store.Continues (s : Store) (b : Block) : Prop :=
  ∃ top ≥ b.height, (∀ height > top, s.readable height = none) ∧
    ∀ height, b.height ≤ height → height < top → LinkedAt (Function.update s.readable b.height (some b)) height

/-- **A ledger of linked blocks up to one**, and of another store's blocks above it, has a valid chain if these go on
from that block. -/
theorem Ledger.Faithful.isChainValid_iff_continues {l : Ledger} {s : Store} {b : Block} (hl : l.Faithful)
    (hb : l.store.readable b.height = some b)
    (habove : ∀ height > b.height, l.store.readable height = s.readable height)
    (hbelow : ∀ height < b.height, LinkedAt l.store.readable height) : l.isChainValid = true ↔ s.Continues b := by
  have hmirrors := hl.mirrors
  have hle : b.height ≤ l.tipHeight := hmirrors.highest _ (Option.isSome_of_eq_some hb)
  have hread : ∀ height, b.height ≤ height →
      l.store.readable height = Function.update s.readable b.height (some b) height := by
    intro height hge
    rcases eq_or_ne height b.height with rfl | hne
    · rw [Function.update_self, hb]
    · rw [Function.update_of_ne hne, habove height (UInt64.lt_of_le_of_ne hge (Ne.symm hne))]
  -- below the tip a ledger finds neighbours that its store reads
  have hfound : ∀ height < l.tipHeight, (LinkedAt l.block? height ↔ LinkedAt l.store.readable height) :=
    fun height hlt => linkedAt_congr (hmirrors.below _ (UInt64.le_of_lt hlt))
      (hmirrors.below _ ((add_one_le_iff hlt).mpr hlt))
  have hover : ∀ height, b.height ≤ height → height < l.tipHeight → (LinkedAt l.store.readable height ↔
      LinkedAt (Function.update s.readable b.height (some b)) height) := fun height hge hlt => by
    have hnext : height < height + 1 := (add_one_le_iff hlt).mp (UInt64.le_refl _)
    exact linkedAt_congr (hread _ hge) (hread _ (UInt64.le_trans hge (UInt64.le_of_lt hnext)))
  rw [isChainValid_iff_linkedAt]
  constructor
  · intro hlinked
    refine ⟨l.tipHeight, hle, fun height hgt => ?_, fun height hge hlt => ?_⟩
    · rw [← habove height (UInt64.lt_of_le_of_lt hle hgt), ← Option.not_isSome_iff_eq_none]
      exact fun hsome => UInt64.not_le.mpr hgt (hmirrors.highest height hsome)
    · exact (hover height hge hlt).mp ((hfound height hlt).mp (hlinked height hlt))
  · rintro ⟨top, hge, hnone, hlinked⟩ height hlt
    refine (hfound height hlt).mpr ?_
    by_cases hbelow' : height < b.height
    · exact hbelow height hbelow'
    · -- the tip is not above the blocks that go on
      have htop : l.tipHeight ≤ top := by
        by_contra hgt
        have habove' := UInt64.lt_of_le_of_lt hge (UInt64.not_le.mp hgt)
        have htip := habove l.tipHeight habove'
        rw [hmirrors.tip, hnone l.tipHeight (UInt64.not_le.mp hgt)] at htip
        cases htip
      have hge' := UInt64.not_lt.mp hbelow'
      exact (hover height hge' hlt).mpr (hlinked height hge' (UInt64.lt_of_lt_of_le hlt htop))

namespace Cluster

variable {c : Cluster} {host k : ReplicaId} {l r : Replica}

/-- A check that finds the chain broken: the replica loads its ledger anew over what it fetched from the leader, if
anything can be read then, and the chain that it finds decides. -/
theorem check_of_broken (h : c.leading? = some (host, l)) (hr : c.replica? k = some r) (hne : k ≠ host)
    (hbroken : r.ledger.isChainValid = false) (hflat : (c.fetchedFrom r 0).store.naming.Flat) {height : UInt64}
    (hsome : ((c.fetchedFrom r 0).store.readable height).isSome) :
    ∃ m : Ledger, m.Faithful ∧ m.store = (c.fetchedFrom r 0).store ∧
      (c.check k).2.replica? k = some { r with ledger := m } ∧
      (c.check k).1 = if m.isChainValid then .repaired else .broken := by
  have hsync := congrArg Prod.snd (syncFromLeader_of_leading h hr hne 0)
  generalize c.fetchedFrom r 0 = fetched at hflat hsome hsync ⊢
  have hinvalid : c.isChainValid k = false := by
    rw [isChainValid, hr, Option.any_some, hbroken]
  have hfetched : (c.syncFromLeader k 0).2.replica? k = some (r.withStore fetched.store) := by
    rw [hsync, replica?_setReplica, if_pos rfl]
  obtain ⟨m, hfaithful, hstore, hreload⟩ := reload_of_readable hfetched hflat hsome
  refine ⟨m, hfaithful, hstore, ?_⟩
  rw [check, hinvalid, hreload]
  simp only [Bool.false_eq_true, if_false, replica?_setReplica, if_true, isChainValid, Option.any_some, and_true]
  rfl

/-- **A check of a chain.** If the chain is valid then it says so and changes nothing. If it is broken, and the leader
can supply all of its blocks, linked down to the first one, to a replica that waits for them and has no slashes in its
file names, then the replica finds the leader's blocks afterwards; its chain is repaired exactly if its own blocks above
the leader's tip go on from that, and otherwise it is broken. -/
theorem check_repairs : (∀ (c : Cluster) (k : ReplicaId), c.isChainValid k = true → c.check k = (.valid, c)) ∧
    ∀ (c : Cluster) (k host : ReplicaId) (r l : Replica) (tip : Block), c.replica? k = some r →
      r.ledger.isChainValid = false → k ≠ host → c.Supplies r host l 0 →
      r.settings.transfer.patience ≠ some 0 → r.ledger.store.naming.Flat →
      l.ledger.store.readable l.ledger.tipHeight = some tip →
      (∀ height < l.ledger.tipHeight, LinkedAt l.ledger.store.readable height) →
      ∃ s, (c.check k).2.replica? k = some s ∧
        (∀ height ≤ l.ledger.tipHeight, s.ledger.block? height = l.ledger.store.readable height) ∧
        ((c.check k).1 = .repaired ↔ r.ledger.store.Continues tip) ∧
        ((c.check k).1 = .broken ↔ ¬ r.ledger.store.Continues tip) := by
  refine ⟨fun c k hvalid => by rw [check, hvalid, if_pos rfl], ?_⟩
  intro c k host r l tip hr hbroken hne hsupplies hpatience hflat htip hlinked
  obtain ⟨-, hnaming, hread⟩ := hsupplies.fetched_whole hpatience hflat.leadsOn
  have hthere : ((c.fetchedFrom r 0).store.readable l.ledger.tipHeight).isSome := by
    rw [hread, if_pos ⟨UInt64.zero_le, UInt64.le_refl _⟩, htip, Option.isSome_some]
  obtain ⟨m, hfaithful, hstore, hchecked, houtcome⟩ :=
    check_of_broken hsupplies.leads hr hne hbroken (hnaming ▸ hflat) hthere
  have hheight : tip.height = l.ledger.tipHeight := Store.height_of_readable htip
  have hwithin : ∀ height ≤ l.ledger.tipHeight, m.store.readable height = l.ledger.store.readable height :=
    fun height hle => by rw [hstore, hread, if_pos ⟨UInt64.zero_le, hle⟩]
  have habove : ∀ height > l.ledger.tipHeight, m.store.readable height = r.ledger.store.readable height :=
    fun height hgt => by rw [hstore, hread, if_neg fun hin => UInt64.not_le.mpr hgt hin.2]
  have hmirrors := hfaithful.mirrors
  have hle : l.ledger.tipHeight ≤ m.tipHeight :=
    hmirrors.highest _ (Option.isSome_of_eq_some ((hwithin _ (UInt64.le_refl _)).trans htip))
  have hvalid : m.isChainValid = true ↔ r.ledger.store.Continues tip := by
    refine hfaithful.isChainValid_iff_continues ?_ (hheight ▸ habove) fun height hlt => ?_
    · rw [hheight, hwithin _ (UInt64.le_refl _), htip]
    · rw [hheight] at hlt
      exact (linkedAt_congr (hwithin _ (UInt64.le_of_lt hlt)) (hwithin _ ((add_one_le_iff hlt).mpr hlt))).mpr
        (hlinked height hlt)
  refine ⟨_, hchecked, fun height hle' => ?_, ?_, ?_⟩
  · exact (hmirrors.below height (UInt64.le_trans hle' hle)).trans (hwithin height hle')
  · rw [houtcome, ← hvalid]
    cases m.isChainValid <;> decide
  · rw [houtcome, ← hvalid]
    cases m.isChainValid <;> decide

/-! ### Replicas that went astray -/

/-- The leader has the block `hollow` on the first one. -/
def hollowed : Cluster := (alone.runHook (.addBlock 0 .hollow)).2

/-- Besides the first block the other replica holds it at another height, where it has no parent. -/
def astray (settings : Settings) (height : UInt64) : Cluster :=
  ((hollowed.joined settings).runHook (.addBlock 1 (.raised height))).2

/-- The leader `l` has a valid chain and can supply it to the replica `r`, whose chain is broken. -/
structure Astray (settings : Settings) (height : UInt64) (r l : Replica) : Prop where
  running : (astray settings height).replica? 1 = some r
  configured : r.settings = settings
  broken : r.ledger.isChainValid = false
  store : r.ledger.store = .filled settings.storage.naming [.genesis, .raised height]
  supplies : (astray settings height).Supplies r 0 l 0
  valid : l.ledger.isChainValid = true
  tip : l.ledger.tipHeight = 1
  held : l.ledger.store = .filled .standard [.genesis, .hollow]

variable {settings : Settings} {height : UInt64}

/-- What there is to test. -/
def isAstray (settings : Settings) (height : UInt64) (r l : Replica) : Bool :=
  decide (r.ledger.isChainValid = false ∧
    r.ledger.store = .filled settings.storage.naming [.genesis, .raised height] ∧
    r.ledger.store.TakesAll [.hollow, .genesis] ∧ l.ledger.isChainValid = true ∧ l.ledger.tipHeight = 1 ∧
    l.ledger.store = .filled .standard [.genesis, .hollow])

/-- A leader's chain of two blocks. -/
theorem readable_hollow : ∀ b ∈ [Block.hollow, .genesis],
    (Store.filled .standard [.genesis, .hollow]).readable b.height = some b ∧
      1 + b.encode.length ≤ Block.Record.maxLength := by
  intro b hb
  have hshort : 1 + b.encode.length ≤ Block.Record.maxLength := by
    rcases List.mem_pair.mp hb with rfl | rfl <;> decide +kernel
  refine ⟨Store.readable_filled (by decide +kernel) (List.pairwise_pair.mpr (by decide)) (by decide +kernel)
    (Nat.lt_of_le_of_lt hshort (by decide)) ?_, hshort⟩
  rcases List.mem_pair.mp hb with rfl | rfl
  · exact List.mem_cons_of_mem _ List.mem_cons_self
  · exact List.mem_cons_self

/-- The settings and heights that are looked at. -/
def ways : List (Settings × UInt64) := [(fetching, 1), (.slashed, 5), (.hasty, 1)]

theorem isPaired_astray : ∀ way ∈ ways, (astray way.1 way.2).isPaired way.1 (isAstray way.1 way.2) = true := by
  decide +kernel

theorem exists_astray (hway : (settings, height) ∈ ways) : ∃ r l, Astray settings height r l := by
  obtain ⟨r, l, hpaired, htest⟩ := exists_paired (isPaired_astray _ hway)
  obtain ⟨hbroken, hstore, htakes, hvalid, htip, hheld⟩ := of_decide_eq_true htest
  refine ⟨r, l, hpaired.running, hpaired.configured, hbroken, hstore, ?_, hvalid, htip, hheld⟩
  have hdescends : Sync.Descends (0 : UInt64).toNat [.hollow, .genesis] := rfl
  have hlength : [Block.hollow, .genesis].length = l.ledger.tipHeight.toNat - (0 : UInt64).toNat + 1 := by
    rw [htip]
    rfl
  have htop : Sync.FitsRequest l.ledger.tipHeight := by
    rw [htip]
    decide
  refine hpaired.supplies htop UInt64.zero_le hlength hdescends (fun b hb => ?_) (fun b hb => ?_) htakes
  · exact hheld ▸ (readable_hollow b hb).1
  · exact (readable_hollow b hb).2

theorem Astray.linked (h : Astray settings height r l) :
    ∀ height < l.ledger.tipHeight, LinkedAt l.ledger.store.readable height := by
  intro height hlt
  obtain rfl : height = 0 := by
    rw [h.tip, UInt64.lt_iff_toNat_lt] at hlt
    exact UInt64.toNat_inj.mp (Nat.lt_one_iff.mp hlt)
  rw [h.held]
  exact ⟨.genesis, .hollow, (readable_hollow .genesis (by simp)).1, (readable_hollow .hollow (by simp)).1, rfl⟩

theorem Astray.readable_tip (h : Astray settings height r l) :
    l.ledger.store.readable l.ledger.tipHeight = some .hollow := by
  rw [h.tip, h.held]
  exact (readable_hollow .hollow List.mem_cons_self).1

/-- All that the replica holds is of the height 0, or of the other one. -/
theorem Astray.height_eq (h : Astray settings height r l) {k : UInt64} {b : Block}
    (hb : r.ledger.store.readable k = some b) : k = 0 ∨ k = height := by
  have hheight := Store.height_of_readable hb
  rw [h.store] at hb
  rcases List.mem_pair.mp (Store.mem_of_readable_filled hb) with rfl | rfl
  · exact Or.inl hheight.symm
  · exact Or.inr hheight.symm

theorem Astray.readable_raised (h : Astray settings height r l) (hon : settings.storage.naming.LeadsOn)
    (hne : Block.genesis.height ≠ height)
    (htakes : (⟨settings.storage.naming, .fresh⟩ : Store).TakesAll [.genesis, .raised height]) :
    r.ledger.store.readable height = some (.raised height) := by
  rw [h.store]
  exact Store.readable_filled (b := .raised height) hon (List.pairwise_pair.mpr hne) htakes
    (Nat.lt_of_le_of_lt (Block.short_raised height) (by decide)) (List.mem_cons_of_mem _ List.mem_cons_self)

/-- If the other height is that of the leader's tip, then nothing is above it. -/
theorem Astray.continues (h : Astray settings 1 r l) : r.ledger.store.Continues .hollow := by
  refine ⟨1, UInt64.le_refl 1, fun height hgt => ?_, fun height hge hlt => absurd hge (UInt64.not_le.mpr hlt)⟩
  by_contra hsome
  obtain ⟨b, hb⟩ := Option.ne_none_iff_exists'.mp hsome
  rcases h.height_eq hb with rfl | rfl <;> exact absurd hgt (by decide)

/-- If it is higher, then there is a gap. -/
theorem Astray.not_continues (h : Astray .slashed 5 r l) : ¬ r.ledger.store.Continues .hollow := by
  rintro ⟨top, -, hnone, hlinked⟩
  have hread := h.readable_raised (by decide +kernel) (by decide) (by decide +kernel)
  have htop : 5 ≤ top := by
    by_contra hgt
    have hnothing := hnone 5 (UInt64.not_le.mp hgt)
    rw [hread] at hnothing
    cases hnothing
  obtain ⟨parent, child, -, hchild, -⟩ := hlinked 1 (UInt64.le_refl 1) (UInt64.lt_of_lt_of_le (by decide) htop)
  rw [Function.update_of_ne (by decide)] at hchild
  rcases h.height_eq hchild with heq | heq <;> exact absurd heq (by decide)

/-- The leader's chain is valid; the other's is repaired. -/
theorem check_repairs_astray : (astray fetching 1).check 0 = (.valid, astray fetching 1) ∧
    ((astray fetching 1).check 1).1 = .repaired ∧
    ∃ s, ((astray fetching 1).check 1).2.replica? 1 = some s ∧ s.ledger.block? 1 = some .hollow := by
  obtain ⟨r, l, h⟩ := exists_astray (by simp [ways] : (fetching, 1) ∈ ways)
  have hvalid : (astray fetching 1).isChainValid 0 = true := by
    rw [isChainValid, (leading?_eq_some_iff.mp h.supplies.leads).2, Option.any_some, h.valid]
  have hpatience : r.settings.transfer.patience ≠ some 0 := by
    rw [h.configured]
    decide
  have hflat : r.ledger.store.naming.Flat := by
    rw [h.store]
    decide +kernel
  obtain ⟨s, hs, hblocks, hrepaired, -⟩ := check_repairs.2 _ 1 0 r l .hollow h.running h.broken (by decide) h.supplies
    hpatience hflat h.readable_tip h.linked
  refine ⟨check_repairs.1 _ 0 hvalid, hrepaired.mpr h.continues, s, hs, ?_⟩
  rw [← h.tip, hblocks _ (UInt64.le_refl _), h.readable_tip]

/-- **A check can be misled.** With slashes in its file names a replica finds none of the blocks that it fetched: its
chain is called repaired, although it lacks the leader's tip, and its own blocks do not go on from that. Without
patience it fetches nothing: its chain is called broken, although no block of its own is above the leader's tip. -/
theorem exists_check_misled :
    (∃ r l, Astray .slashed 5 r l ∧ ((astray .slashed 5).check 1).1 = .repaired ∧
      ¬ r.ledger.store.Continues .hollow ∧
      ∃ s, ((astray .slashed 5).check 1).2.replica? 1 = some s ∧ s.ledger.block? 1 = none) ∧
    ∃ r l, Astray .hasty 1 r l ∧ ((astray .hasty 1).check 1).1 = .broken ∧ r.ledger.store.Continues .hollow := by
  constructor
  · obtain ⟨r, l, h⟩ := exists_astray (by simp [ways] : (Settings.slashed, 5) ∈ ways)
    have htest : (decide (((astray .slashed 5).check 1).1 = .repaired) &&
        (((astray .slashed 5).check 1).2.replica? 1).any fun s => decide (s.ledger.block? 1 = none)) = true := by
      decide +kernel
    rw [Bool.and_eq_true, decide_eq_true_iff] at htest
    obtain ⟨s, hs, hnone⟩ := (Option.any_eq_true _ _).mp htest.2
    exact ⟨r, l, h, htest.1, h.not_continues, s, hs, of_decide_eq_true hnone⟩
  · obtain ⟨r, l, h⟩ := exists_astray (by simp [ways] : (Settings.hasty, 1) ∈ ways)
    refine ⟨r, l, h, ?_, h.continues⟩
    have hfetched : ((astray .hasty 1).fetchedFrom r 0).store = r.ledger.store :=
      congrArg Sync.Fetched.store (h.supplies.fetchedFrom_of_impatient (by rw [h.configured]; rfl) UInt64.zero_le)
    have hflat : r.ledger.store.naming.Flat := by
      rw [h.store]
      decide +kernel
    have hread := h.readable_raised (by decide +kernel) (by decide) (by decide +kernel)
    obtain ⟨m, hfaithful, hstore, -, houtcome⟩ := check_of_broken h.supplies.leads h.running (by decide) h.broken
      (hfetched ▸ hflat) (hfetched ▸ Option.isSome_of_eq_some hread)
    -- the own block at height 1 is still there, without a parent
    have hmirrors := hfaithful.mirrors
    rw [← hfetched, ← hstore] at hread
    have hle : 1 ≤ m.tipHeight := hmirrors.highest 1 (Option.isSome_of_eq_some hread)
    have hinvalid : m.isChainValid = false := Bool.eq_false_iff.mpr fun hvalid => by
      obtain ⟨parent, child, -, hchild, hprevious⟩ :=
        Ledger.isChainValid_iff_linkedAt.mp hvalid 0 (UInt64.lt_of_lt_of_le (by decide) hle)
      obtain rfl := Option.some.inj (((hmirrors.below 1 hle).trans hread).symm.trans hchild)
      cases hprevious
    rw [houtcome, hinvalid]
    rfl

end Cluster

end ReplicatedLedger
