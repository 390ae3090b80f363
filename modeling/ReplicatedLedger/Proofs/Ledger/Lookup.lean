import ReplicatedLedger.Proofs.Ledger.Validity

/-! # Looking up a transaction

A transaction is looked up from the tip down (`Searches`): at every height the search ends if there is no block or if
the block holds the transaction, and otherwise it goes on right below, unless the height is zero. So it ends after no
more steps than it starts high (`searches_findFrom`), and it finds the highest block with the transaction, as long as
there are blocks at all heights above that one (`HighestWith`, `Searches.eq_some_iff`). Nothing is said of where the
blocks are: a height at which none is found, in memory or in the store, hides all that is below it. The main statement
is `findTransaction_exact`. -/

namespace ReplicatedLedger.Ledger

variable {l : Ledger} {hash : Digest} {top height : UInt64} {b : Block} {n : Nat} {found : Option UInt64}

/-! ### The search -/

/-- The search for a transaction from a height down: how often it goes on to the height below, and what it finds. -/
inductive Searches (l : Ledger) (hash : Digest) : UInt64 → Nat → Option UInt64 → Prop
  /-- There is no block. -/
  | lost {top : UInt64} (hnone : l.block? top = none) : Searches l hash top 0 none
  /-- The block holds the transaction. -/
  | found {top : UInt64} {b : Block} (hblock : l.block? top = some b) (hin : b.contains hash = true) :
      Searches l hash top 0 (some top)
  /-- The first block does not hold it either. -/
  | missed {b : Block} (hblock : l.block? 0 = some b) (hout : b.contains hash = false) : Searches l hash 0 0 none
  | down {top : UInt64} {b : Block} {n : Nat} {found : Option UInt64} (h : top ≠ 0) (hblock : l.block? top = some b)
      (hout : b.contains hash = false) (hsearch : Searches l hash (top - 1) n found) :
      Searches l hash top (n + 1) found

/-- **The search from a height ends**, with no more steps than the height says. -/
theorem searches_findFrom (h : top.toNat = n) : ∃ k ≤ n, l.Searches hash top k (l.findFrom hash n) := by
  induction n generalizing top with
  | zero =>
    obtain rfl : top = 0 := UInt64.toNat_inj.mp h
    rw [findFrom]
    cases hblock : l.block? 0 with
    | none => exact ⟨0, Nat.le_refl 0, .lost hblock⟩
    | some b =>
      rw [Option.bind_some]
      cases hin : b.contains hash with
      | true => exact ⟨0, Nat.le_refl 0, .found hblock hin⟩
      | false => exact ⟨0, Nat.le_refl 0, .missed hblock hin⟩
  | succ n ih =>
    obtain ⟨hne, hbelow⟩ := sub_one_eq_of_toNat h
    have htop : (n + 1).toUInt64 = top := by rw [← h, Nat.toUInt64_eq, UInt64.ofNat_toNat]
    rw [findFrom, htop]
    cases hblock : l.block? top with
    | none => exact ⟨0, Nat.zero_le _, .lost hblock⟩
    | some b =>
      dsimp only
      cases hin : b.contains hash with
      | true => exact ⟨0, Nat.zero_le _, .found hblock hin⟩
      | false =>
        have hnext : (top - 1).toNat = n := by
          rw [hbelow, toNat_toUInt64_of_le (by omega : n ≤ top.toNat)]
        obtain ⟨k, hle, hsearch⟩ := ih hnext
        exact ⟨k + 1, Nat.succ_le_succ hle, .down hne hblock hin hsearch⟩

/-! ### What is found -/

/-- The block at a height holds the transaction, and all those above it, up to a top, are there and do not. -/
structure HighestWith (l : Ledger) (hash : Digest) (top height : UInt64) : Prop where
  le : height ≤ top
  holds : ∃ b, l.block? height = some b ∧ b.contains hash = true
  without : ∀ k, height < k → k ≤ top → ∃ b, l.block? k = some b ∧ b.contains hash = false

theorem not_highestWith_of_none (hnone : l.block? top = none) : ¬ l.HighestWith hash top height := by
  intro h
  rcases UInt64.lt_or_eq_of_le h.le with hlt | rfl
  · obtain ⟨b, hblock, -⟩ := h.without top hlt (UInt64.le_refl top)
    exact nomatch hnone.symm.trans hblock
  · obtain ⟨b, hblock, -⟩ := h.holds
    exact nomatch hnone.symm.trans hblock

theorem highestWith_iff_eq (hblock : l.block? top = some b) (hin : b.contains hash = true) :
    l.HighestWith hash top height ↔ top = height := by
  constructor
  · intro h
    rcases UInt64.lt_or_eq_of_le h.le with hlt | heq
    · obtain ⟨c, hc, hout⟩ := h.without top hlt (UInt64.le_refl top)
      cases hblock.symm.trans hc
      exact nomatch hin.symm.trans hout
    · exact heq.symm
  · rintro rfl
    exact ⟨UInt64.le_refl top, ⟨b, hblock, hin⟩, fun k hlt hle => absurd hle (UInt64.not_le.mpr hlt)⟩

/-- A block without the transaction is not where it is found. -/
theorem HighestWith.lt (h : l.HighestWith hash top height) (hblock : l.block? top = some b)
    (hout : b.contains hash = false) : height < top := by
  refine (UInt64.lt_or_eq_of_le h.le).resolve_right fun heq => ?_
  obtain ⟨c, hc, hin⟩ := h.holds
  rw [heq] at hc
  cases hblock.symm.trans hc
  exact nomatch hout.symm.trans hin

theorem le_sub_one_iff {k : UInt64} (h : top ≠ 0) : k ≤ top - 1 ↔ k < top := by
  obtain ⟨n, hn⟩ : ∃ n, top.toNat = n + 1 :=
    Nat.exists_eq_succ_of_ne_zero fun hzero => h (UInt64.toNat_inj.mp hzero)
  rw [(sub_one_eq_of_toNat hn).2, UInt64.le_iff_toNat_le, toNat_toUInt64_of_le (by omega : n ≤ top.toNat),
    UInt64.lt_iff_toNat_lt, hn, Nat.lt_succ_iff]

theorem highestWith_sub_one_iff (h : top ≠ 0) (hblock : l.block? top = some b) (hout : b.contains hash = false) :
    l.HighestWith hash (top - 1) height ↔ l.HighestWith hash top height := by
  constructor
  · intro hbelow
    refine ⟨UInt64.le_of_lt ((le_sub_one_iff h).mp hbelow.le), hbelow.holds, fun k hlt hle => ?_⟩
    rcases UInt64.lt_or_eq_of_le hle with hk | rfl
    · exact hbelow.without k hlt ((le_sub_one_iff h).mpr hk)
    · exact ⟨b, hblock, hout⟩
  · intro habove
    exact ⟨(le_sub_one_iff h).mpr (habove.lt hblock hout), habove.holds,
      fun k hlt hle => habove.without k hlt (UInt64.le_of_lt ((le_sub_one_iff h).mp hle))⟩

/-- **What a search finds** is the highest block with the transaction, if all blocks above it are there. -/
theorem Searches.eq_some_iff (h : l.Searches hash top n found) :
    found = some height ↔ l.HighestWith hash top height := by
  induction h with
  | lost hnone => exact iff_of_false (nomatch ·) (not_highestWith_of_none hnone)
  | found hblock hin => rw [Option.some_inj, highestWith_iff_eq hblock hin]
  | missed hblock hout =>
    refine iff_of_false (nomatch ·) fun hhighest => ?_
    exact absurd (hhighest.lt hblock hout) (UInt64.not_lt.mpr UInt64.zero_le)
  | down h hblock hout _ ih => rw [ih, highestWith_sub_one_iff h hblock hout]

/-- **Looking up a transaction is exact**, for every window and every directory. The search from the tip ends, with no
more steps than the tip is high, and it ends in one way only. What it finds is the highest block with the transaction,
if there are blocks at all heights above that one; else it finds nothing. -/
theorem findTransaction_exact (l : Ledger) (hash : Digest) :
    ((∃ n ≤ l.tipHeight.toNat, l.Searches hash l.tipHeight n (l.findTransaction hash)) ∧
      ∀ n found, l.Searches hash l.tipHeight n found → found = l.findTransaction hash) ∧
    (∀ height, l.findTransaction hash = some height ↔ l.HighestWith hash l.tipHeight height) ∧
    (l.findTransaction hash = none ↔ ∀ height, ¬ l.HighestWith hash l.tipHeight height) := by
  obtain ⟨n, hle, hsearch⟩ : ∃ n ≤ l.tipHeight.toNat, l.Searches hash l.tipHeight n (l.findTransaction hash) :=
    searches_findFrom rfl
  have hexact : ∀ height, l.findTransaction hash = some height ↔ l.HighestWith hash l.tipHeight height :=
    fun height => hsearch.eq_some_iff
  refine ⟨⟨⟨n, hle, hsearch⟩, fun m found hfound => Option.ext fun height => ?_⟩, hexact, ?_⟩
  · rw [hfound.eq_some_iff, hexact]
  · rw [Option.eq_none_iff_forall_ne_some]
    exact forall_congr' fun height => not_congr (hexact height)

/-- The first transaction comes in two blocks, with a block without it above them, and then the directory is gone. -/
def repeated : List Event := [.add (.raised 1), .add .above, .disturb (.vacant ["blocks"] hasRoom_blocks)]

/-- Without memory for more than the tip the transaction is found in the upper one of its two blocks as long as their
files are there; the tip alone hides nothing. -/
theorem findTransaction_exact_repeated : ∃ l dir, openIn .standard 0 .fresh = (.ok l, dir) ∧
    (∃ b, (l.after (repeated.take 2)).block? 0 = some b ∧ b.contains Block.genesisTransaction.hash = true) ∧
    (l.after (repeated.take 2)).HighestWith Block.genesisTransaction.hash (l.after (repeated.take 2)).tipHeight 1 ∧
    ∀ height, ¬ (l.after repeated).HighestWith Block.genesisTransaction.hash (l.after repeated).tipHeight height := by
  have htest : (openIn .standard 0 .fresh).1.toOption.any fun l =>
      ((l.after (repeated.take 2)).block? 0).any (·.contains Block.genesisTransaction.hash) &&
        ((l.after (repeated.take 2)).findTransaction Block.genesisTransaction.hash == some 1 &&
          (l.after repeated).findTransaction Block.genesisTransaction.hash == none) := by decide +kernel
  cases hopen : openIn .standard 0 .fresh with
  | mk result dir =>
    rw [hopen] at htest
    cases result with
    | error e => cases htest
    | ok l =>
      simp only [Except.toOption, Option.any_some, Bool.and_eq_true, beq_iff_eq] at htest
      obtain ⟨hlower, hupper, hgone⟩ := htest
      refine ⟨l, dir, rfl, (Option.any_eq_true _ _).mp hlower, ?_, ?_⟩
      · exact ((findTransaction_exact (l.after (repeated.take 2)) _).2.1 1).mp hupper
      · exact (findTransaction_exact (l.after repeated) _).2.2.mp hgone

end ReplicatedLedger.Ledger
