import ReplicatedLedger.Proofs.Ledger.Links

/-! # Checking the chain

The chain is checked by a walk down from the tip that takes one parent after the other. Where it looks next depends on
the height that the block carries which was just found, so that it is not said beforehand that the walk comes down at
all (`Walks`). It does: a block found at a height carries this height (`height_of_block?`), every step goes down by one
(`walks_linkedFrom`), and the walk ends after no more steps than the tip is high. It ends well exactly if all blocks
are found and linked, so that one block that is not found is enough to break the chain (`isChainValid_exact`). A block
in memory is found as it stands there, and at all other heights nothing is found if the file is missing, holds no
block or the block of another height. -/

namespace ReplicatedLedger.Ledger

variable {l : Ledger} {b : Block} {n : Nat} {v : Bool} {height : UInt64}

/-! ### What is found -/

/-- **A block found at a height** carries this height. -/
theorem height_of_block? (h : l.block? height = some b) : b.height = height := by
  unfold block? at h
  split at h
  · cases h
  · split at h
    · rename_i hfind
      cases h
      simpa using List.find?_some hfind
    · exact Store.height_of_readable h

/-- Beside the window the store is read. -/
theorem block?_of_forall_ne (hle : height ≤ l.tipHeight) (h : ∀ b ∈ l.window.blocks, b.height ≠ height) :
    l.block? height = l.store.readable height := by
  have hfind : l.window.blocks.find? (·.height == height) = none :=
    List.find?_eq_none.mpr fun b hb => by simpa using h b hb
  rw [block?, if_neg (UInt64.not_lt.mpr hle), hfind]

/-! ### The walk -/

/-- The walk down from a block: how often it goes on to the parent, and whether it ends well. -/
inductive Walks (l : Ledger) : Block → Nat → Bool → Prop
  /-- There is nothing below the first block. -/
  | arrived {b : Block} (h : b.height = 0) : Walks l b 0 true
  /-- There is no block right below. -/
  | lost {b : Block} (h : b.height ≠ 0) (hparent : l.block? (b.height - 1) = none) : Walks l b 0 false
  /-- The block right below is not the parent. -/
  | mislinked {b parent : Block} (h : b.height ≠ 0) (hparent : l.block? (b.height - 1) = some parent)
      (hlink : b.header.previous ≠ some parent.hash) : Walks l b 0 false
  | down {b parent : Block} {n : Nat} {v : Bool} (h : b.height ≠ 0)
      (hparent : l.block? (b.height - 1) = some parent) (hlink : b.header.previous = some parent.hash)
      (hwalk : Walks l parent n v) : Walks l b (n + 1) v

/-- **The walk ends in one way**, if it ends. -/
theorem Walks.unique {n' : Nat} {v' : Bool} (h : l.Walks b n v) (h' : l.Walks b n' v') : n = n' ∧ v = v' := by
  induction h generalizing n' v' with
  | arrived hzero =>
    cases h' with
    | arrived => exact ⟨rfl, rfl⟩
    | lost h => exact absurd hzero h
    | mislinked h => exact absurd hzero h
    | down h => exact absurd hzero h
  | lost h hnone =>
    cases h' with
    | arrived hzero => exact absurd hzero h
    | lost => exact ⟨rfl, rfl⟩
    | mislinked _ hparent => exact nomatch hnone.symm.trans hparent
    | down _ hparent => exact nomatch hnone.symm.trans hparent
  | mislinked h hparent hlink =>
    cases h' with
    | arrived hzero => exact absurd hzero h
    | lost _ hnone => exact nomatch hnone.symm.trans hparent
    | mislinked => exact ⟨rfl, rfl⟩
    | down _ hparent' hlink' =>
      obtain rfl := Option.some.inj (hparent.symm.trans hparent')
      exact absurd hlink' hlink
  | down h hparent hlink _ ih =>
    cases h' with
    | arrived hzero => exact absurd hzero h
    | lost _ hnone => exact nomatch hnone.symm.trans hparent
    | mislinked _ hparent' hlink' =>
      obtain rfl := Option.some.inj (hparent.symm.trans hparent')
      exact absurd hlink hlink'
    | down _ hparent' _ hwalk =>
      obtain rfl := Option.some.inj (hparent.symm.trans hparent')
      obtain ⟨rfl, rfl⟩ := ih hwalk
      exact ⟨rfl, rfl⟩

theorem sub_one_eq_of_toNat (h : height.toNat = n + 1) : height ≠ 0 ∧ height - 1 = n.toUInt64 := by
  have hne : height ≠ 0 := fun hzero => by
    rw [hzero] at h
    cases h
  have hone : (1 : UInt64) ≤ height := UInt64.le_iff_toNat_le.mpr (by rw [h, UInt64.toNat_one]; omega)
  refine ⟨hne, UInt64.toNat_inj.mp ?_⟩
  have hnat : n.toUInt64.toNat = n := toNat_toUInt64_of_le (by omega : n ≤ height.toNat)
  rw [UInt64.toNat_sub_of_le _ _ hone, h, UInt64.toNat_one, hnat, Nat.add_sub_cancel]

/-- **The walk from a block comes down**, with no more steps than the block is high. -/
theorem walks_linkedFrom (h : b.height.toNat = n) : ∃ k ≤ n, l.Walks b k (l.linkedFrom n b) := by
  induction n generalizing b with
  | zero => exact ⟨0, Nat.le_refl 0, .arrived (UInt64.toNat_inj.mp h)⟩
  | succ n ih =>
    obtain ⟨hne, hbelow⟩ := sub_one_eq_of_toNat h
    rw [linkedFrom]
    cases hparent : l.block? n.toUInt64 with
    | none => exact ⟨0, Nat.zero_le _, .lost hne (hbelow ▸ hparent)⟩
    | some parent =>
      dsimp only
      by_cases hlink : b.header.previous = some parent.hash
      · -- the block that was found stands one lower
        have hheight : parent.height.toNat = n := by
          rw [height_of_block? hparent, toNat_toUInt64_of_le (by omega : n ≤ b.height.toNat)]
        obtain ⟨k, hle, hwalk⟩ := ih hheight
        rw [beq_iff_eq.mpr hlink, Bool.true_and]
        exact ⟨k + 1, Nat.succ_le_succ hle, .down hne (hbelow ▸ hparent) hlink hwalk⟩
      · rw [beq_eq_false_iff_ne.mpr hlink, Bool.false_and]
        exact ⟨0, Nat.zero_le _, .mislinked hne (hbelow ▸ hparent) hlink⟩

/-! ### What a check tells -/

/-- The links below the tip, counted by the upper blocks. -/
theorem forall_linkedAt_iff (blocks : UInt64 → Option Block) (top : UInt64) :
    (∀ height < top, LinkedAt blocks height) ↔ ∀ height, 1 ≤ height → height ≤ top →
      ∃ child parent, blocks height = some child ∧ blocks (height - 1) = some parent ∧
        child.header.previous = some parent.hash := by
  constructor
  · intro h height hone hle
    have hlt : height - 1 < top := by
      rw [UInt64.lt_iff_toNat_lt, UInt64.toNat_sub_of_le _ _ hone]
      rw [UInt64.le_iff_toNat_le, UInt64.toNat_one] at hone
      rw [UInt64.le_iff_toNat_le] at hle
      rw [UInt64.toNat_one]
      omega
    obtain ⟨parent, child, hparent, hchild, hlink⟩ := h (height - 1) hlt
    rw [UInt64.sub_add_cancel] at hchild
    exact ⟨child, parent, hchild, hparent, hlink⟩
  · intro h height hlt
    have hone : (1 : UInt64) ≤ height + 1 := by
      rw [UInt64.le_iff_toNat_le, toNat_add_one hlt, UInt64.toNat_one]
      omega
    obtain ⟨child, parent, hchild, hparent, hlink⟩ := h (height + 1) hone ((add_one_le_iff hlt).mpr hlt)
    rw [UInt64.add_sub_cancel] at hparent
    exact ⟨parent, child, hparent, hchild, hlink⟩

/-- A block that is not found breaks the chain. -/
theorem isChainValid_of_block?_eq_none (hle : height ≤ l.tipHeight) (h : l.block? height = none) :
    l.isChainValid = false := by
  refine Bool.eq_false_iff.mpr fun hvalid => ?_
  rcases UInt64.lt_or_eq_of_le hle with hlt | rfl
  · obtain ⟨parent, -, hparent, -⟩ := isChainValid_iff_linkedAt.mp hvalid height hlt
    exact nomatch h.symm.trans hparent
  · exact nomatch h.symm.trans l.block?_tipHeight

/-- **Checking a chain is exact**, for every window and every directory. The walk from the tip ends, with no more
steps than the tip is high, and it ends in one way only. It ends well exactly if at each height above zero and right
below it blocks are found of which the upper one names the lower one as its parent. So the chain is broken by any
height up to the tip at which no block is found, which beside the window means any file that is missing or does not
hold the block of its height, and by any two blocks in between which the link is wrong. -/
theorem isChainValid_exact (l : Ledger) :
    ((∃ n ≤ l.tipHeight.toNat, l.Walks l.tip n l.isChainValid) ∧ ∀ n v, l.Walks l.tip n v → v = l.isChainValid) ∧
    (l.isChainValid = true ↔ ∀ height, 1 ≤ height → height ≤ l.tipHeight →
      ∃ child parent, l.block? height = some child ∧ l.block? (height - 1) = some parent ∧
        child.header.previous = some parent.hash) ∧
    (∀ height ≤ l.tipHeight, l.block? height = none → l.isChainValid = false) ∧
    (∀ height ≤ l.tipHeight, (∀ b ∈ l.window.blocks, b.height ≠ height) →
      ∀ e, l.store.read height = .error e → l.isChainValid = false) ∧
    ∀ height, 1 ≤ height → height ≤ l.tipHeight → ∀ child parent, l.block? height = some child →
      l.block? (height - 1) = some parent → child.header.previous ≠ some parent.hash → l.isChainValid = false := by
  obtain ⟨n, hle, hwalk⟩ := l.walks_linkedFrom (b := l.tip) rfl
  have hvalid := isChainValid_iff_linkedAt.trans (forall_linkedAt_iff l.block? l.tipHeight)
  refine ⟨⟨⟨n, hle, hwalk⟩, fun _ _ h => (h.unique hwalk).2⟩, hvalid,
    fun height hle hnone => isChainValid_of_block?_eq_none hle hnone, fun height hle hbeside e hread => ?_,
    fun height hone hle child parent hchild hparent hlink => Bool.eq_false_iff.mpr fun htrue => ?_⟩
  · refine isChainValid_of_block?_eq_none hle ?_
    rw [block?_of_forall_ne hle hbeside, Store.readable, hread]
    rfl
  · obtain ⟨child', parent', hchild', hparent', hlink'⟩ := hvalid.mp htrue height hone hle
    obtain rfl := Option.some.inj (hchild.symm.trans hchild')
    obtain rfl := Option.some.inj (hparent.symm.trans hparent')
    exact hlink hlink'

/-- Two blocks are added on the first one, and then the directory is gone. -/
def emptied : List Event := [.add .hollow, .add .above, .disturb (.vacant ["blocks"] hasRoom_blocks)]

/-- Without memory for more than the tip the chain is valid as long as its files are there. -/
theorem isChainValid_exact_emptied : ∃ l dir, openIn .standard 0 .fresh = (.ok l, dir) ∧
    (l.after (emptied.take 2)).isChainValid = true ∧ (l.after emptied).tipHeight = 2 ∧
    (l.after emptied).isChainValid = false := by
  have htest : (openIn .standard 0 .fresh).1.toOption.any fun l =>
      (l.after (emptied.take 2)).isChainValid && ((l.after emptied).tipHeight == 2 &&
        ((l.after emptied).window.blocks.all (fun b => b.height != 1) &&
          (l.after emptied).store.read 1 == .error (.file .notFound))) := by decide +kernel
  cases hopen : openIn .standard 0 .fresh with
  | mk result dir =>
    rw [hopen] at htest
    cases result with
    | error e => cases htest
    | ok l =>
      simp only [Except.toOption, Option.any_some, Bool.and_eq_true, beq_iff_eq, List.all_eq_true, bne_iff_ne] at htest
      obtain ⟨hvalid, hheight, hbeside, hread⟩ := htest
      have hle : 1 ≤ (l.after emptied).tipHeight := hheight ▸ (by decide : (1 : UInt64) ≤ 2)
      exact ⟨l, dir, rfl, hvalid, hheight, (isChainValid_exact (l.after emptied)).2.2.2.1 1 hle hbeside _ hread⟩

end ReplicatedLedger.Ledger
