import ReplicatedLedger.Proofs.Ledger.Coherence
import ReplicatedLedger.Proofs.Store.Lone

/-! # Finding transactions while a ledger grows

A ledger is sound when its window is part of its store and its files stay apart: either the paths of the files lead
on, or no more than one of them leads anywhere, and then the ledger gains no block at all (`Sound.leadsOn`). An
opened ledger is sound, above all one in an empty directory (`sound_of_openIn`), and stays so as it grows. A
transaction is looked up from the tip down, so that in a sound ledger a block built on the tip adds its own
transactions to what is found, and takes nothing away (`Sound.findTransaction_gains`). -/

namespace ReplicatedLedger.Ledger

variable {l m : Ledger} {b : Block}

/-! ### Sound ledgers -/

/-- The window is part of what the store holds, and blocks do not get into each other's way. -/
structure Sound (l : Ledger) : Prop where
  coherent : l.Coherent
  apart : l.store.naming.LeadsOn ∨ l.store.dir.Lone

theorem Sound.keeps (hl : l.Sound) (h : l.Keeps m) : m.Sound := by
  refine ⟨hl.coherent.keeps h, ?_⟩
  obtain ⟨vs, rfl⟩ := h
  exact hl.apart

/-- **A ledger that gains a block** has file names that lead on. -/
theorem Sound.leadsOn (hl : l.Sound) (h : l.Gains b m) : l.store.naming.LeadsOn := by
  rcases hl.apart with hon | hlone
  · exact hon
  · by_contra hback
    obtain ⟨s, hok, ⟨vs, rfl⟩, hlt, -⟩ := h.add_eq
    have hread : ((l.store.withVerdicts vs).readable l.tipHeight).isSome := by
      rw [Store.readable_withVerdicts, tipHeight, hl.coherent.stored l.tip List.mem_cons_self]
      rfl
    have hheight := Store.height_eq_of_write (s := l.store.withVerdicts vs) hlone hback hread hok
    exact UInt64.lt_irrefl _ (hheight ▸ hlt)

theorem Sound.gains (hl : l.Sound) (h : l.Gains b m) (hfits : Wire.FitsSize (1 + b.encode.length)) : m.Sound :=
  ⟨hl.coherent.gains h (hl.leadsOn h) hfits, Or.inl (h.naming_eq ▸ hl.leadsOn h)⟩

theorem lone_load {s : Store} (hlone : s.dir.Lone) (budget : Nat) : (load s budget).2.dir.Lone := by
  rcases store_load s budget with heq | heq
  · rw [heq]
    exact hlone
  · rw [heq, Store.dir_write]
    exact hlone.write _ _

/-- **An opened ledger is sound**, if the names of its files lead on or the directory is lone. -/
theorem sound_of_openIn {naming : Store.Naming} {budget : Nat} {dir dir' : Directory}
    (h : openIn naming budget dir = (.ok l, dir')) (hdir : naming.LeadsOn ∨ dir.Lone) : l.Sound := by
  obtain ⟨hnaming, hcoherent⟩ := coherent_of_openIn h
  refine ⟨hcoherent, hdir.imp (fun hon => hnaming ▸ hon) fun hlone => ?_⟩
  unfold openIn Store.openIn at h
  cases hensure : dir.ensure with
  | error e =>
    rw [hensure] at h
    cases h
  | ok made =>
    rw [hensure] at h
    dsimp only at h
    split at h
    · cases h
    · rename_i hload
      have hstored := lone_load (s := ⟨naming, made⟩) (hlone.ensure hensure) budget
      rw [hload] at hstored
      cases h
      exact hstored

/-! ### Looking up -/

/-- A search sees no more than the blocks up to where it starts. -/
theorem findFrom_congr (hash : Digest) {n : Nat} (h : ∀ k ≤ n, l.block? k.toUInt64 = m.block? k.toUInt64) :
    l.findFrom hash n = m.findFrom hash n := by
  induction n with
  | zero =>
    have hzero := h 0 (Nat.le_refl 0)
    change l.block? 0 = m.block? 0 at hzero
    rw [findFrom, findFrom, hzero]
  | succ n ih => rw [findFrom, findFrom, h (n + 1) (Nat.le_refl _), ih fun k hk => h k (Nat.le_succ_of_le hk)]

theorem block?_withVerdicts (l : Ledger) (vs : List Bool) (height : UInt64) :
    (l.withVerdicts vs).block? height = l.block? height := by
  unfold block? withVerdicts
  rw [Store.readable_withVerdicts]
  rfl

theorem Keeps.findTransaction_eq (h : l.Keeps m) (hash : Digest) :
    m.findTransaction hash = l.findTransaction hash := by
  obtain ⟨vs, rfl⟩ := h
  exact findFrom_congr hash fun k _ => block?_withVerdicts l vs _

theorem block?_of_lt {height : UInt64} (h : l.tipHeight < height) : l.block? height = none := if_pos h

/-- The topmost block is found at its height. -/
theorem block?_tipHeight (l : Ledger) : l.block? l.tipHeight = some l.tip := by
  have hfind : l.window.blocks.find? (·.height == l.tipHeight) = some l.tip :=
    List.find?_cons_of_pos (beq_self_eq_true l.tipHeight)
  rw [block?, if_neg (UInt64.lt_irrefl _), hfind]

/-- A ledger whose tip is the first block has no other. -/
theorem block?_of_tip_genesis (h : l.tip = .genesis) (height : UInt64) :
    l.block? height = if height = 0 then some .genesis else none := by
  have htip : l.tipHeight = 0 := congrArg Block.height h
  split_ifs with hzero
  · rw [hzero, ← htip, block?_tipHeight, h]
  · refine block?_of_lt ?_
    rw [htip, UInt64.lt_iff_toNat_lt]
    exact Nat.pos_of_ne_zero fun hnat => hzero (UInt64.toNat_inj.mp hnat)

/-- Ledgers with the same blocks have the same tip. -/
theorem tip_eq_of_block?_eq (h : ∀ height, m.block? height = l.block? height) : m.tip = l.tip := by
  have hle : ∀ {l m : Ledger}, (∀ height, m.block? height = l.block? height) → l.tipHeight ≤ m.tipHeight := by
    intro l m h
    by_contra hgt
    have htip := h l.tipHeight
    rw [block?_tipHeight, block?_of_lt (UInt64.not_le.mp hgt)] at htip
    cases htip
  have hheight : m.tipHeight = l.tipHeight := UInt64.le_antisymm (hle fun k => (h k).symm) (hle h)
  have htip := h l.tipHeight
  rw [block?_tipHeight, ← hheight, block?_tipHeight] at htip
  exact Option.some.inj htip

/-- **The blocks after one was added** on the tip: the new one, and those that were there. -/
theorem Sound.block?_gains (hl : l.Sound) (h : l.Gains b m) (hbuilt : b.height.toNat = l.tip.height.toNat + 1)
    (hfits : Wire.FitsSize (1 + b.encode.length)) (height : UInt64) :
    m.block? height = if height = b.height then some b else l.block? height := by
  have hon := hl.leadsOn h
  have hm := hl.coherent.gains h hon hfits
  have htip : m.tipHeight = b.height := congrArg Block.height h.tip_eq
  split_ifs with hself
  · rw [hself, hm.block?_eq (htip ▸ UInt64.le_refl _), h.readable_self hfits]
  · rcases UInt64.lt_or_lt_of_ne hself with hlt | hgt
    · have hle : height ≤ l.tipHeight := by
        rw [UInt64.lt_iff_toNat_lt, hbuilt] at hlt
        exact UInt64.le_iff_toNat_le.mpr (Nat.le_of_lt_succ hlt)
      rw [hl.coherent.block?_eq hle, hm.block?_eq (htip ▸ UInt64.le_of_lt hlt), h.readable_of_lt hon hlt]
    · -- there is nothing above either tip
      rw [block?_of_lt (htip ▸ hgt), block?_of_lt (UInt64.lt_trans h.lt hgt)]

/-- **Looking up after a block was added**: a transaction of the block is found there, any other where it was
found before. -/
theorem Sound.findTransaction_gains (hl : l.Sound) (h : l.Gains b m) (hbuilt : b.height.toNat = l.tip.height.toNat + 1)
    (hfits : Wire.FitsSize (1 + b.encode.length)) (hash : Digest) :
    m.findTransaction hash = if b.contains hash then some b.height else l.findTransaction hash := by
  have htip : m.tipHeight = b.height := congrArg Block.height h.tip_eq
  have hbelow : ∀ k ≤ l.tip.height.toNat, m.block? k.toUInt64 = l.block? k.toUInt64 := by
    intro k hk
    have hnat : k.toUInt64.toNat = k := toNat_toUInt64_of_le hk
    rw [hl.block?_gains h hbuilt hfits, if_neg]
    intro hself
    have hheight := congrArg UInt64.toNat hself
    omega
  have hself : (l.tip.height.toNat + 1).toUInt64 = b.height := by rw [← hbuilt]; exact UInt64.ofNat_toNat
  rw [findTransaction, htip, hbuilt, findFrom, hself, hl.block?_gains h hbuilt hfits, if_pos rfl]
  dsimp only
  split
  · rfl
  · exact findFrom_congr hash hbelow

end ReplicatedLedger.Ledger
