import ReplicatedLedger.Proofs.Cluster.Spreading

/-! # Which blocks replicas agree on

In a run the tips only rise and the sequence numbers go on (`follows_stage`), so that the blocks which a
replica commits in different steps have different heights and nonces. Replicas agree on the blocks that
they commit in one step, and those that more than half of the hosts commit are the only ones of their
heights (`agreement`). Proposals are put to the members that are there, however few: members that take
turns commit different blocks of one height (`exists_disagreement`). -/

namespace ReplicatedLedger.Cluster

variable {c d e : Cluster} {ops : List Op} {i j : Nat} {k k' : ReplicaId} {b b' : Block}

/-! ### What happens in many steps -/

/-- The cluster after the first `i` operations. -/
def stage (c : Cluster) (ops : List Op) (i : Nat) : Cluster := c.run (ops.take i)

theorem stage_succ {op : Op} (h : ops[i]? = some op) : c.stage ops (i + 1) = (c.stage ops i).perform op := by
  rw [stage, stage, List.take_add_one, h, Option.toList_some, run, run, List.foldl_append]
  rfl

theorem stage_of_length_le (h : ops.length ≤ i) : c.stage ops i = c.run ops := by
  rw [stage, List.take_of_length_le h]

/-- In `n` steps the sequence number went up by `n` at most, and no tip fell. -/
structure Follows (c : Cluster) (n : Nat) (d : Cluster) : Prop where
  running : ∀ k, (d.replica? k).isSome = (c.replica? k).isSome
  tips : ∀ k s, d.replica? k = some s → ∃ r, c.replica? k = some r ∧ r.ledger.tip.height ≤ s.ledger.tip.height
  sequence : ∃ m ≤ n, d.sequence.toNat = (c.sequence.toNat + m) % UInt64.size

theorem Follows.refl (c : Cluster) : c.Follows 0 c where
  running _ := rfl
  tips _ s hs := ⟨s, hs, UInt64.le_refl _⟩
  sequence := ⟨0, Nat.le_refl _, (Nat.mod_eq_of_lt c.sequence.toNat_lt).symm⟩

/-- One step more. -/
theorem Follows.succ {n : Nat} {gained : Option Block} (h : c.Follows n d) (hnext : d.Spreads gained e) :
    c.Follows (n + 1) e where
  running k := (hnext.running k).trans (h.running k)
  tips k t ht := by
    obtain ⟨s, hs, hledger⟩ := hnext.ledgers k t ht
    obtain ⟨r, hr, hle⟩ := h.tips k s hs
    refine ⟨r, hr, ?_⟩
    rcases hledger with hkeeps | ⟨b, -, hgains⟩
    · rw [hkeeps.tip_eq]
      exact hle
    · rw [hgains.tip_eq]
      exact UInt64.le_trans hle (UInt64.le_of_lt hgains.lt)
  sequence := by
    obtain ⟨m, hm, heq⟩ := h.sequence
    rcases hnext.sequence with hsame | hup
    · exact ⟨m, Nat.le_succ_of_le hm, by rw [hsame, heq]⟩
    · refine ⟨m + 1, Nat.succ_le_succ hm, ?_⟩
      have hone : (1 : UInt64).toNat = 1 := rfl
      rw [hup, UInt64.toNat_add, heq, hone]
      unfold UInt64.size
      omega

section

variable (hplain : c.Plain) (hgenuine : ∀ op ∈ ops, op.Genuine)

include hplain hgenuine

theorem spreads_stage (i : Nat) : ∃ gained, (c.stage ops i).Spreads gained (c.stage ops (i + 1)) := by
  cases hop : ops[i]? with
  | none =>
    have hlength : ops.length ≤ i := List.getElem?_eq_none_iff.mp hop
    rw [stage_of_length_le hlength, stage_of_length_le (Nat.le_succ_of_le hlength)]
    exact ⟨none, .of_keeps (fun _ => rfl) (Or.inl rfl) kept_self⟩
  | some op =>
    rw [stage_succ hop]
    exact spreads_perform (hplain.run _) (hgenuine op (List.mem_of_getElem? hop))

/-- **Along a run** no tip falls, and the sequence number goes up by at most one in a step. -/
theorem follows_stage (i n : Nat) : (c.stage ops i).Follows n (c.stage ops (i + n)) := by
  induction n with
  | zero => exact .refl _
  | succ n ih =>
    obtain ⟨gained, hspreads⟩ := spreads_stage hplain hgenuine (i + n)
    exact ih.succ hspreads

end

/-! ### Commits in a run -/

/-- The tip of a replica. -/
def tip? (c : Cluster) (k : ReplicaId) : Option Block := (c.replica? k).map fun r => r.ledger.tip

/-- In step `i` of the run the replica of the host commits the block: its ledger gains it. -/
def CommitsAt (c : Cluster) (ops : List Op) (i : Nat) (k : ReplicaId) (b : Block) : Prop :=
  ∃ r s, (c.stage ops i).replica? k = some r ∧ (c.stage ops (i + 1)).replica? k = some s ∧
    r.ledger.Gains b s.ledger

/-- More than half of the hosts commit a block in step `i` of the run. -/
def MostCommitAt (c : Cluster) (ops : List Op) (i : Nat) : Prop :=
  ∃ ks : List ReplicaId, ks.Nodup ∧ c.hosts.size < 2 * ks.length ∧ ∀ k ∈ ks, ∃ b, CommitsAt c ops i k b

theorem CommitsAt.lt_length (h : CommitsAt c ops i k b) : i < ops.length := by
  by_contra hlength
  obtain ⟨r, s, hr, hs, hgains⟩ := h
  rw [stage_of_length_le (by omega)] at hr hs
  rw [hr] at hs
  cases hs
  exact hgains.not_keeps (Ledger.Keeps.refl _)

theorem CommitsAt.gained_eq {gained : Option Block} (h : CommitsAt c ops i k b)
    (hspreads : (c.stage ops i).Spreads gained (c.stage ops (i + 1))) : gained = some b := by
  obtain ⟨r, s, hr, hs, hgains⟩ := h
  obtain ⟨r', hr', hledger⟩ := hspreads.ledgers k s hs
  rw [hr] at hr'
  cases hr'
  rcases hledger with hkeeps | ⟨d, hd, hgains'⟩
  · exact absurd hkeeps hgains.not_keeps
  · rw [hd, hgains'.unique hgains]

section

variable (hplain : c.Plain) (hgenuine : ∀ op ∈ ops, op.Genuine)

include hplain hgenuine

/-- **A replica whose tip changes** in a step commits the new tip. -/
theorem exists_commitsAt (hbefore : (c.stage ops i).tip? k = some b)
    (hafter : (c.stage ops (i + 1)).tip? k ≠ some b) :
    ∃ b', CommitsAt c ops i k b' ∧ (c.stage ops (i + 1)).tip? k = some b' := by
  obtain ⟨r, hr, rfl⟩ := Option.map_eq_some_iff.mp hbefore
  obtain ⟨gained, hspreads⟩ := spreads_stage hplain hgenuine i
  have hrunning := hspreads.running k
  rw [hr, Option.isSome_some, Option.isSome_iff_exists] at hrunning
  obtain ⟨s, hs⟩ := hrunning
  have htip : (c.stage ops (i + 1)).tip? k = some s.ledger.tip := by rw [tip?, hs, Option.map_some]
  obtain ⟨r', hr', hledger⟩ := hspreads.ledgers k s hs
  rw [hr] at hr'
  cases hr'
  rcases hledger with hkeeps | ⟨d, -, hgains⟩
  · rw [htip, hkeeps.tip_eq] at hafter
    exact absurd rfl hafter
  · refine ⟨s.ledger.tip, ⟨r, s, hr, hs, ?_⟩, htip⟩
    rw [hgains.tip_eq]
    exact hgains

/-- Blocks that are committed in one step are the same block. -/
theorem CommitsAt.eq (h : CommitsAt c ops i k b) (h' : CommitsAt c ops i k' b') : b = b' := by
  obtain ⟨gained, hspreads⟩ := spreads_stage hplain hgenuine i
  exact Option.some.inj ((h.gained_eq hspreads).symm.trans (h'.gained_eq hspreads))

/-- What a replica commits later is higher. -/
theorem CommitsAt.height_lt (h : CommitsAt c ops i k b) (h' : CommitsAt c ops j k b') (hij : i < j) :
    b.height < b'.height := by
  obtain ⟨r, s, hr, hs, hgains⟩ := h
  obtain ⟨r', s', hr', hs', hgains'⟩ := h'
  obtain ⟨n, rfl⟩ := Nat.exists_eq_add_of_le hij
  obtain ⟨t, ht, hle⟩ := (follows_stage hplain hgenuine (i + 1) n).tips k r' hr'
  rw [hs] at ht
  cases ht
  rw [hgains.tip_eq] at hle
  exact UInt64.lt_of_le_of_lt hle hgains'.lt

/-- What is committed later has another nonce, as long as sequence numbers do not come back. -/
theorem CommitsAt.nonce_ne (h : CommitsAt c ops i k b) (h' : CommitsAt c ops j k' b') (hij : i < j)
    (hj : j < UInt64.size) : b.header.nonce ≠ b'.header.nonce := by
  obtain ⟨gained, hspreads⟩ := spreads_stage hplain hgenuine i
  obtain ⟨gained', hspreads'⟩ := spreads_stage hplain hgenuine j
  obtain ⟨-, hnonce⟩ := hspreads.stamped b (h.gained_eq hspreads)
  obtain ⟨hup, hnonce'⟩ := hspreads'.stamped b' (h'.gained_eq hspreads')
  obtain ⟨n, rfl⟩ := Nat.exists_eq_add_of_le hij
  obtain ⟨m, hm, hsequence⟩ := (follows_stage hplain hgenuine (i + 1) n).sequence
  -- between the two steps the sequence number went up by `m + 1`, too little to come back
  intro heq
  have hnat := congrArg Bytes.toNat heq
  have hone : (1 : UInt64).toNat = 1 := rfl
  rw [hnonce, hnonce', Bytes.toNat_bigEndian, Bytes.toNat_bigEndian, hup, UInt64.toNat_add, hsequence,
    hone] at hnat
  have hlt := (c.stage ops (i + 1)).sequence.toNat_lt
  have hwidth : 1 <<< (8 * 8) = UInt64.size := rfl
  rw [hwidth] at hnat
  unfold UInt64.size at hnat hj
  omega

/-- A replica that commits a block runs on one of the hosts. -/
theorem CommitsAt.mem_keys (h : CommitsAt c ops i k b) : k ∈ c.hosts.keys := by
  obtain ⟨r, -, hr, -, -⟩ := h
  have hrunning := (follows_stage hplain hgenuine 0 i).running k
  rw [Nat.zero_add, hr, Option.isSome_some] at hrunning
  obtain ⟨r₀, hr₀⟩ := Option.isSome_iff_exists.mp hrunning.symm
  obtain ⟨h, hh, -⟩ := Option.bind_eq_some_iff.mp hr₀
  exact c.hosts.contains_iff.mp (Option.isSome_iff_exists.mpr ⟨h, hh⟩)

/-- **Quorums meet**: in two steps in each of which more than half of the hosts commit, some host
commits in both. -/
theorem MostCommitAt.exists_common (h : MostCommitAt c ops i) (h' : MostCommitAt c ops j) :
    ∃ k, (∃ b, CommitsAt c ops i k b) ∧ ∃ b, CommitsAt c ops j k b := by
  obtain ⟨ks, hnodup, hmost, hks⟩ := h
  obtain ⟨ks', hnodup', hmost', hks'⟩ := h'
  by_contra hno
  -- the committing hosts of both steps together would be more than there are
  have hdisjoint : List.Disjoint ks ks' := fun k hk hk' => hno ⟨k, hks k hk, hks' k hk'⟩
  have hsubset : ks ++ ks' ⊆ c.hosts.keys := by
    intro k hk
    rcases List.mem_append.mp hk with hk | hk
    · obtain ⟨b, hb⟩ := hks k hk
      exact hb.mem_keys hplain hgenuine
    · obtain ⟨b, hb⟩ := hks' k hk
      exact hb.mem_keys hplain hgenuine
  have hlength := (hnodup.append hnodup' hdisjoint).length_le_of_subset hsubset
  rw [List.length_append, SortedMap.length_keys] at hlength
  omega

/-- Blocks of one height are the same block, if a common replica commits in the steps that commit them. -/
theorem CommitsAt.eq_of_common (h : CommitsAt c ops i k b) (h' : CommitsAt c ops j k' b')
    (hheight : b.height = b'.height) {l : ReplicaId} (hi : ∃ b, CommitsAt c ops i l b)
    (hj : ∃ b, CommitsAt c ops j l b) : b = b' := by
  obtain ⟨d, hd⟩ := hi
  obtain ⟨d', hd'⟩ := hj
  obtain rfl := hd.eq hplain hgenuine h
  obtain rfl := hd'.eq hplain hgenuine h'
  rcases Nat.lt_trichotomy i j with hij | rfl | hij
  · exact absurd (hheight ▸ hd.height_lt hplain hgenuine hd' hij) (UInt64.lt_irrefl _)
  · exact hd.eq hplain hgenuine hd'
  · exact absurd (hheight ▸ hd'.height_lt hplain hgenuine hd hij) (UInt64.lt_irrefl _)

end

/-! ### Agreement -/

/-- **Which blocks replicas agree on.** In a run of a plain cluster in which proposals come from
replicas only, let two replicas commit a block each. If they do so in one step then it is the same
block, stamp included; blocks that are committed in different steps are different, until sequence
numbers come back. If in each of their steps more than half of the hosts commit and the blocks have the
same height, then they are the same block. -/
theorem agreement (hplain : c.Plain) (hgenuine : ∀ op ∈ ops, op.Genuine) (h : CommitsAt c ops i k b)
    (h' : CommitsAt c ops j k' b') :
    (i = j → b = b') ∧ (ops.length ≤ UInt64.size → b = b' → i = j) ∧
      (MostCommitAt c ops i → MostCommitAt c ops j → b.height = b'.height → b = b') := by
  refine ⟨?_, fun hlength heq => ?_, fun hmost hmost' hheight => ?_⟩
  · rintro rfl
    exact h.eq hplain hgenuine h'
  · have hi := h.lt_length
    have hj := h'.lt_length
    rcases Nat.lt_trichotomy i j with hij | rfl | hij
    · exact absurd (congrArg (·.header.nonce) heq) (h.nonce_ne hplain hgenuine h' hij (by omega))
    · rfl
    · exact absurd (congrArg (·.header.nonce) heq.symm) (h'.nonce_ne hplain hgenuine h hij (by omega))
  · obtain ⟨l, hi, hj⟩ := hmost.exists_common hplain hgenuine hmost'
    exact h.eq_of_common hplain hgenuine h' hheight hi hj

/-- Two members, all that there are, commit a block in one step. -/
theorem agreement_pair : ∃ b b', CommitsAt (pair [0, 1]) [submission, .propose 0] 1 0 b ∧
    CommitsAt (pair [0, 1]) [submission, .propose 0] 1 1 b' ∧
    MostCommitAt (pair [0, 1]) [submission, .propose 0] 1 ∧ b = b' := by
  have hplain := plain_pair [0, 1]
  have hgenuine : ∀ op ∈ [submission, .propose 0], op.Genuine := by
    simp only [List.forall_mem_cons]
    exact ⟨genuine_submission, trivial, List.forall_mem_nil _⟩
  have hbefore : ((pair [0, 1]).stage [submission, .propose 0] 1).tip? 0 = some .genesis ∧
      ((pair [0, 1]).stage [submission, .propose 0] 1).tip? 1 = some .genesis := by decide +kernel
  have hafter : ((pair [0, 1]).stage [submission, .propose 0] 2).tip? 0 ≠ some .genesis ∧
      ((pair [0, 1]).stage [submission, .propose 0] 2).tip? 1 ≠ some .genesis := by decide +kernel
  have hsize : (pair [0, 1]).hosts.size = 2 := by decide +kernel
  generalize pair [0, 1] = c at hplain hbefore hafter hsize
  obtain ⟨b, hb, -⟩ := exists_commitsAt hplain hgenuine hbefore.1 hafter.1
  obtain ⟨b', hb', -⟩ := exists_commitsAt hplain hgenuine hbefore.2 hafter.2
  have hmost : MostCommitAt c [submission, .propose 0] 1 := by
    refine ⟨[0, 1], by decide, by rw [hsize]; decide, ?_⟩
    simp only [List.forall_mem_cons]
    exact ⟨⟨b, hb⟩, ⟨b', hb'⟩, List.forall_mem_nil _⟩
  exact ⟨b, b', hb, hb', hmost, (agreement hplain hgenuine hb hb').1 rfl⟩

/-- Two members take turns: while one proposes, the other is away. -/
def turns : List Op :=
  [submission, .deregister 1, .propose 0,
    .deregister 0, .register 1 1, .setLeader 1, .observe 1 1, .propose 1]

/-- **Members that take turns disagree**: each commits a block of the same height alone, and the blocks
are not the same. -/
theorem exists_disagreement : ∃ b b', CommitsAt (pair [0, 1]) turns 2 0 b ∧
    CommitsAt (pair [0, 1]) turns 7 1 b' ∧ b.height = b'.height ∧ b ≠ b' := by
  have hplain := plain_pair [0, 1]
  have hgenuine : ∀ op ∈ turns, op.Genuine := by
    simp only [turns, List.forall_mem_cons]
    exact ⟨genuine_submission, trivial, trivial, trivial, trivial, trivial, trivial, trivial,
      List.forall_mem_nil _⟩
  have hbefore : ((pair [0, 1]).stage turns 2).tip? 0 = some .genesis ∧
      ((pair [0, 1]).stage turns 7).tip? 1 = some .genesis := by decide +kernel
  have hafter : ((pair [0, 1]).stage turns 3).tip? 0 ≠ some .genesis ∧
      ((pair [0, 1]).stage turns 8).tip? 1 ≠ some .genesis := by decide +kernel
  have hheight : (((pair [0, 1]).stage turns 3).tip? 0).map (·.height) =
      (((pair [0, 1]).stage turns 8).tip? 1).map (·.height) := by decide +kernel
  have hne : ((pair [0, 1]).stage turns 3).tip? 0 ≠ ((pair [0, 1]).stage turns 8).tip? 1 := by decide +kernel
  generalize pair [0, 1] = c at hplain hbefore hafter hheight hne
  obtain ⟨b, hb, htip⟩ := exists_commitsAt hplain hgenuine hbefore.1 hafter.1
  obtain ⟨b', hb', htip'⟩ := exists_commitsAt hplain hgenuine hbefore.2 hafter.2
  rw [htip, htip'] at hheight hne
  exact ⟨b, b', hb, hb', Option.some.inj hheight, fun heq => hne (congrArg some heq)⟩

end ReplicatedLedger.Cluster
