import ReplicatedLedger.Proofs.Ledger.Growth

/-! # The window and the store of a ledger

A ledger is coherent when every block of its window is also read under its height from the store, and
none is higher than the tip. A loaded ledger is coherent (`coherent_of_openIn`) and stays so as it grows
(`Coherent.gains`), whatever is evicted. What a coherent ledger finds at a height is what its store
reads there (`Coherent.block?_eq`), so its chain is valid when the blocks in the store are linked
(`Coherent.isChainValid_iff`), and a block that was built on the tip extends a valid chain
(`Coherent.isChainValid_gains`). -/

namespace ReplicatedLedger

/-- The `n` predecessors of a block are in the store, each the parent of the one above it. -/
def Store.Linked (s : Store) : Nat → Block → Prop
  | 0, _ => True
  | n + 1, b => ∃ parent, s.readable n.toUInt64 = some parent ∧ b.header.previous = some parent.hash ∧
      s.Linked n parent

theorem Store.Linked.congr {s s' : Store} {n : Nat} {b : Block} (h : s.Linked n b)
    (hread : ∀ k < n, s'.readable k.toUInt64 = s.readable k.toUInt64) : s'.Linked n b := by
  induction n generalizing b with
  | zero => trivial
  | succ n ih =>
    obtain ⟨parent, hparent, hprevious, hlinked⟩ := h
    refine ⟨parent, (hread n (by omega)).trans hparent, hprevious, ih hlinked fun k hk => ?_⟩
    exact hread k (by omega)

namespace Ledger

/-- The blocks in memory are also in the store, and none is above the tip. -/
structure Coherent (l : Ledger) : Prop where
  stored : ∀ b ∈ l.window.blocks, l.store.readable b.height = some b
  le_tip : ∀ b ∈ l.window.blocks, b.height ≤ l.tipHeight

variable {l m : Ledger} {b : Block} {s s' : Store} {w : Window} {budget : Nat}

/-! ### Reading the chain -/

/-- Up to the tip a coherent ledger finds what its store reads. -/
theorem Coherent.block?_eq (hl : l.Coherent) {height : UInt64} (hle : height ≤ l.tipHeight) :
    l.block? height = l.store.readable height := by
  unfold block?
  rw [if_neg (UInt64.not_lt.mpr hle)]
  cases hfind : l.window.blocks.find? (·.height == height) with
  | none => rfl
  | some b =>
    have hheight : b.height = height := by simpa using List.find?_some hfind
    rw [← hheight, hl.stored b (List.mem_of_find?_eq_some hfind)]

theorem toNat_toUInt64_of_le {n : Nat} {height : UInt64} (h : n ≤ height.toNat) : n.toUInt64.toNat = n :=
  UInt64.toNat_ofNat_of_lt' (Nat.lt_of_le_of_lt h height.toNat_lt)

theorem Coherent.linkedFrom_iff (hl : l.Coherent) {n : Nat} (hn : n ≤ l.tipHeight.toNat) (b : Block) :
    l.linkedFrom n b = true ↔ l.store.Linked n b := by
  induction n generalizing b with
  | zero => simp [linkedFrom, Store.Linked]
  | succ n ih =>
    have hbelow : n ≤ l.tipHeight.toNat := by omega
    have hle : n.toUInt64 ≤ l.tipHeight := by rwa [UInt64.le_iff_toNat_le, toNat_toUInt64_of_le hbelow]
    unfold linkedFrom Store.Linked
    rw [hl.block?_eq hle]
    cases hread : l.store.readable n.toUInt64 with
    | none => simp
    | some parent => simp [ih (by omega) parent]

/-- The chain of a coherent ledger is valid when the blocks in the store are linked. -/
theorem Coherent.isChainValid_iff (hl : l.Coherent) :
    l.isChainValid = true ↔ l.store.Linked l.tipHeight.toNat l.tip := hl.linkedFrom_iff (Nat.le_refl _) _

/-! ### Loading -/

theorem stored_loadBelow (s : Store) (budget : Nat) (lowest : Block) (size : Nat) (hs : List UInt64) :
    ∀ b ∈ (loadBelow s budget lowest size hs).1,
      s.readable b.height = some b ∧ b.height ≤ lowest.height := by
  induction hs generalizing lowest size with
  | nil => simp [loadBelow]
  | cons h hs ih =>
    unfold loadBelow
    split
    · simp
    · rename_i hnext
      cases hread : s.read h with
      | error e => simp
      | ok b =>
        have hb := Store.readable_eq_some_iff.mpr hread
        have hheight := Store.height_of_readable hb
        have hle : b.height ≤ lowest.height := by
          rw [UInt64.le_iff_toNat_le, hheight]
          omega
        dsimp only
        split
        · simp
        · -- what is loaded after the block stands below it
          intro b' hb'
          rcases List.mem_cons.mp hb' with rfl | hmem
          · exact ⟨hheight ▸ hb, hle⟩
          · obtain ⟨hstored, hle'⟩ := ih b (size + b.size) b' hmem
            exact ⟨hstored, UInt64.le_trans hle' hle⟩

theorem coherent_of_loadFrom {hs : List UInt64} (h : loadFrom s budget hs = some w) :
    Coherent ⟨s, w, budget⟩ := by
  induction hs with
  | nil => cases h
  | cons height hs ih =>
    unfold loadFrom at h
    cases hread : s.read height with
    | error e => exact ih (by simpa [hread] using h)
    | ok tip =>
      rw [hread] at h
      cases h
      have htip := Store.readable_eq_some_iff.mpr hread
      have hheight := Store.height_of_readable htip
      have hbelow := stored_loadBelow s budget tip tip.size hs
      refine ⟨fun b hb => ?_, fun b hb => ?_⟩
      · rcases List.mem_cons.mp hb with rfl | hmem
        · exact hheight ▸ htip
        · exact (hbelow b hmem).1
      · rcases List.mem_cons.mp hb with rfl | hmem
        · exact UInt64.le_refl _
        · exact (hbelow b hmem).2

/-- The record of the first block fits. -/
theorem fits_genesis : Wire.FitsSize (1 + Block.genesis.encode.length) := by decide +kernel

/-- Loading leaves a store as it is, or writes the first block. -/
theorem store_load (s : Store) (budget : Nat) :
    (load s budget).2 = s ∨ (load s budget).2 = (s.write .genesis).2 := by
  unfold load
  split
  · exact Or.inl rfl
  · right
    split <;> rename_i hw <;> rw [hw]
  · left
    split <;> rfl

theorem coherent_of_load (h : load s budget = (.ok w, s')) :
    s'.naming = s.naming ∧ Coherent ⟨s', w, budget⟩ := by
  unfold load at h
  split at h
  · cases h
  · split at h
    · cases h
    · rename_i hw
      have hok : (s.write .genesis).1 = .ok () := congrArg Prod.fst hw
      obtain rfl : (s.write .genesis).2 = s' := (congrArg Prod.snd hw).trans (congrArg Prod.snd h)
      obtain rfl : (⟨.genesis, [], Block.genesis.size⟩ : Window) = w := Except.ok.inj (congrArg Prod.fst h)
      refine ⟨Store.naming_write _ _, fun b hb => ?_, fun b hb => ?_⟩
      · obtain rfl := List.mem_singleton.mp hb
        exact Store.readable_write_self fits_genesis hok
      · obtain rfl := List.mem_singleton.mp hb
        exact UInt64.le_refl _
  · split at h
    · cases h
    · rename_i hload
      cases h
      exact ⟨rfl, coherent_of_loadFrom hload⟩

/-- **A ledger that was opened** is coherent. -/
theorem coherent_of_openIn {naming : Store.Naming} {dir dir' : Directory}
    (h : openIn naming budget dir = (.ok l, dir')) :
    l.store.naming = naming ∧ l.Coherent := by
  unfold openIn at h
  split at h
  · cases h
  · rename_i s hopen
    have hnaming : s.naming = naming := by
      unfold Store.openIn at hopen
      split at hopen
      · cases hopen
      · cases hopen
        rfl
    split at h
    · cases h
    · rename_i hload
      cases h
      obtain ⟨hsame, hcoherent⟩ := coherent_of_load hload
      exact ⟨hsame.trans hnaming, hcoherent⟩

/-! ### Growing -/

theorem mem_of_mem_evict {bs : List Block} {memory : Nat} (h : b ∈ (evict budget bs memory).1) : b ∈ bs := by
  induction bs generalizing memory with
  | nil => exact h
  | cons c bs ih =>
    unfold evict at h
    split at h
    · exact List.mem_cons_of_mem c (ih h)
    · exact h

/-- A window grows by the new tip alone. -/
theorem mem_blocks_grow {c : Block} (h : c ∈ (w.grow budget b).blocks) : c = b ∨ c ∈ w.blocks := by
  unfold Window.grow at h
  split at h
  · rcases List.mem_cons.mp h with rfl | hmem
    · exact Or.inl rfl
    · exact Or.inr (List.mem_reverse.mp (mem_of_mem_evict (List.mem_reverse.mp hmem)))
  · exact Or.inl (List.mem_singleton.mp h)

theorem Coherent.keeps (hl : l.Coherent) (h : l.Keeps m) : m.Coherent := by
  obtain ⟨vs, rfl⟩ := h
  refine ⟨fun b hb => ?_, hl.le_tip⟩
  rw [withVerdicts, Store.readable_withVerdicts]
  exact hl.stored b hb

/-- Apart from a block that a ledger gains its store reads as before. -/
theorem Gains.readable_of_ne (h : l.Gains b m) (hon : l.store.naming.LeadsOn)
    {height : UInt64} (hne : height ≠ b.height) : m.store.readable height = l.store.readable height := by
  obtain ⟨s, -, ⟨vs, rfl⟩, -, rfl⟩ := h.add_eq
  have hapart : (l.store.withVerdicts vs).Apart b.height height := Store.Naming.LeadsOn.apart hon hne.symm
  exact (Store.readable_write_of_apart hapart).trans (Store.readable_withVerdicts _ _ _)

theorem Gains.readable_of_lt (h : l.Gains b m) (hon : l.store.naming.LeadsOn)
    {height : UInt64} (hlt : height < b.height) : m.store.readable height = l.store.readable height :=
  h.readable_of_ne hon (UInt64.ne_of_lt hlt)

theorem Gains.readable_self (h : l.Gains b m) (hfits : Wire.FitsSize (1 + b.encode.length)) :
    m.store.readable b.height = some b := by
  obtain ⟨s, hok, ⟨vs, rfl⟩, -, rfl⟩ := h.add_eq
  exact Store.readable_write_self hfits hok

/-- **A coherent ledger** stays coherent as it grows. -/
theorem Coherent.gains (hl : l.Coherent) (h : l.Gains b m) (hon : l.store.naming.LeadsOn)
    (hfits : Wire.FitsSize (1 + b.encode.length)) : m.Coherent := by
  have hmem : ∀ c ∈ m.window.blocks, c = b ∨ c ∈ l.window.blocks := by
    obtain ⟨s, -, -, -, rfl⟩ := h.add_eq
    exact fun c hc => mem_blocks_grow hc
  have htip : m.tipHeight = b.height := congrArg Block.height h.tip_eq
  have hbelow : ∀ c ∈ l.window.blocks, c.height < b.height := fun c hc =>
    UInt64.lt_of_le_of_lt (hl.le_tip c hc) h.lt
  refine ⟨fun c hc => ?_, fun c hc => ?_⟩
  · rcases hmem c hc with rfl | hold
    · exact h.readable_self hfits
    · rw [h.readable_of_lt hon (hbelow c hold), hl.stored c hold]
  · rw [htip]
    rcases hmem c hc with rfl | hold
    · exact UInt64.le_refl _
    · exact UInt64.le_of_lt (hbelow c hold)

theorem Coherent.isChainValid_keeps (hl : l.Coherent) (h : l.Keeps m) (hvalid : l.isChainValid = true) :
    m.isChainValid = true := by
  rw [hl.isChainValid_iff] at hvalid
  rw [(hl.keeps h).isChainValid_iff]
  obtain ⟨vs, rfl⟩ := h
  exact hvalid.congr fun k _ => Store.readable_withVerdicts _ _ _

/-- **A block built on the tip** extends a valid chain. -/
theorem Coherent.isChainValid_gains (hl : l.Coherent) (h : l.Gains b m)
    (hon : l.store.naming.LeadsOn) (hfits : Wire.FitsSize (1 + b.encode.length))
    (hbuilt : b.BuiltOn l.tip) (hvalid : l.isChainValid = true) : m.isChainValid = true := by
  rw [hl.isChainValid_iff] at hvalid
  rw [(hl.gains h hon hfits).isChainValid_iff]
  have hheight : m.tipHeight.toNat = l.tipHeight.toNat + 1 :=
    (congrArg (·.height.toNat) h.tip_eq).trans (h.toNat_height hbuilt)
  -- up to the old tip the store reads as before
  have hbelow : ∀ k ≤ l.tipHeight.toNat, m.store.readable k.toUInt64 = l.store.readable k.toUInt64 := by
    intro k hk
    refine h.readable_of_lt hon (UInt64.lt_of_le_of_lt ?_ h.lt)
    rwa [UInt64.le_iff_toNat_le, toNat_toUInt64_of_le hk]
  rw [hheight, h.tip_eq]
  refine ⟨l.tip, ?_, hbuilt.previous, hvalid.congr fun k hk => hbelow k (by omega)⟩
  have htip : l.tipHeight.toNat.toUInt64 = l.tip.height := UInt64.ofNat_toNat
  rw [hbelow _ (Nat.le_refl _), htip]
  exact hl.stored l.tip List.mem_cons_self

end Ledger

end ReplicatedLedger
