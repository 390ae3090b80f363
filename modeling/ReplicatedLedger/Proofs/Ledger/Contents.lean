import ReplicatedLedger.Proofs.Codec.Canonical
import ReplicatedLedger.Proofs.Ledger.Coherence

/-! # Which blocks a ledger holds

A directory holds only blocks with some property when every record in its tree is one of such a block, and a
ledger when the blocks of its window have the property as well. That stays so while only such blocks are written
(`Directory.HoldsOnly.write`, `Ledger.HoldsOnly.gains`), and when the window is loaded anew
(`Ledger.HoldsOnly.reload`). A ledger holds the transactions of the blocks in its window and of those that it can
read up to its tip. When it gains a block it holds no others than before but those of the block
(`Ledger.Gains.holds`). -/

namespace ReplicatedLedger

variable {P : Block → Prop}

/-! ### Directories -/

namespace Directory

/-- Every block of which a record stands in the tree has the property. -/
def HoldsOnly (P : Block → Prop) (d : Directory) : Prop :=
  ∀ p content b, d.tree.get? p = some (.file content) → Block.Record.decode content = .ok b → P b

variable {d d' : Directory}

theorem eq_folder_of_get?_around {place p : Place} {e : Entry} (h : (around place).get? p = some e) : e = .folder := by
  induction place with
  | nil => simp [around] at h
  | cons name place ih =>
    rw [around, SortedMap.get?_insert] at h
    split at h
    · exact (Option.some.inj h).symm
    · exact ih h

theorem holdsOnly_vacant (P : Block → Prop) (place : Place) (room : place.HasRoom) :
    (vacant place room).HoldsOnly P := by
  intro p content b hp
  cases eq_folder_of_get?_around hp

theorem HoldsOnly.insert_folder {x : Place} (h : d.HoldsOnly P) (htree : d'.tree = d.tree.insert x .folder) :
    d'.HoldsOnly P := by
  intro p content b hp
  rw [htree, SortedMap.get?_insert] at hp
  split at hp
  · cases hp
  · exact h p content b hp

theorem holdsOnly_empty (P : Block → Prop) (place : Place) (room : place.HasRoom) : (empty place room).HoldsOnly P :=
  (holdsOnly_vacant P place room).insert_folder rfl

theorem HoldsOnly.ensure (h : d.HoldsOnly P) (hok : d.ensure = .ok d') : d'.HoldsOnly P := by
  unfold Directory.ensure at hok
  split at hok
  · cases hok
    exact h.insert_folder rfl
  · cases hok
  · cases hok
    exact h

/-- The record of a block with the property may be written. -/
theorem HoldsOnly.write {b : Block} (h : d.HoldsOnly P) (hb : P b) (text : String) :
    (d.write text (Block.Record.encode b)).2.HoldsOnly P := by
  rcases d.write_cases text (Block.Record.encode b) with ⟨e, vs, hw⟩ | ⟨x, vs, hw, -⟩
  · rw [hw]
    exact h
  · rw [hw]
    intro p content c hp hc
    simp only [SortedMap.get?_insert] at hp
    split at hp
    · cases hp
      exact (Block.Record.eq_of_decode_encode hc).1 ▸ hb
    · exact h p content c hp hc

theorem HoldsOnly.of_read {text : String} {content : Bytes} {b : Block} (h : d.HoldsOnly P)
    (hread : d.read text = .ok content) (hb : Block.Record.decode content = .ok b) : P b := by
  obtain ⟨p, -, hget⟩ := read_eq_ok_iff.mp hread
  exact h p content b hget hb

end Directory

/-! ### Stores -/

namespace Store

variable {s : Store} {b c : Block} {height : UInt64}

theorem holdsOnly_read (h : s.dir.HoldsOnly P) (hread : s.read height = .ok b) : P b := by
  obtain ⟨content, hcontent, hdecode, -⟩ := read_eq_ok_iff.mp hread
  exact h.of_read (toOption_eq_some_iff.mp hcontent) hdecode

theorem holdsOnly_write (h : s.dir.HoldsOnly P) (hb : P b) : (s.write b).2.dir.HoldsOnly P := by
  rw [dir_write]
  exact h.write hb _

/-- **After a block was written** a store reads that block, or one that it read before. -/
theorem readable_write (h : (s.write b).2.readable height = some c) : c = b ∨ s.readable height = some c := by
  obtain ⟨content, hcontent, hdecode, hheight⟩ := read_eq_ok_iff.mp (readable_eq_some_iff.mp h)
  rw [content?, naming_write, dir_write] at hcontent
  rcases Directory.read_of_read_write (toOption_eq_some_iff.mp hcontent) with rfl | hold
  · exact Or.inl (Block.Record.eq_of_decode_encode hdecode).1
  · refine Or.inr (readable_eq_some_iff.mpr (read_eq_ok_iff.mpr ⟨content, ?_, hdecode, hheight⟩))
    exact toOption_eq_some_iff.mpr hold

/-- Under its own height no other block is read than the one that was written. -/
theorem eq_of_readable_write (hok : (s.write b).1 = .ok ()) (h : (s.write b).2.readable b.height = some c) :
    c = b := by
  obtain ⟨content, hcontent, hdecode, -⟩ := read_eq_ok_iff.mp (readable_eq_some_iff.mp h)
  rw [content?_write_self hok] at hcontent
  cases hcontent
  exact (Block.Record.eq_of_decode_encode hdecode).1

end Store

/-! ### Ledgers -/

namespace Ledger

/-- Every block in the directory and in the window has the property. -/
structure HoldsOnly (P : Block → Prop) (l : Ledger) : Prop where
  stored : l.store.dir.HoldsOnly P
  window : ∀ b ∈ l.window.blocks, P b

variable {l m : Ledger} {b : Block} {s : Store} {budget : Nat} {hash : Digest}

theorem HoldsOnly.keeps (h : l.HoldsOnly P) (hkeeps : l.Keeps m) : m.HoldsOnly P := by
  obtain ⟨vs, rfl⟩ := hkeeps
  exact ⟨h.stored, h.window⟩

theorem HoldsOnly.gains (h : l.HoldsOnly P) (hgains : l.Gains b m) (hb : P b) : m.HoldsOnly P := by
  obtain ⟨s, -, ⟨vs, rfl⟩, -, rfl⟩ := hgains.add_eq
  refine ⟨Store.holdsOnly_write (s := l.store.withVerdicts vs) h.stored hb, fun c hc => ?_⟩
  rcases mem_blocks_grow hc with rfl | hold
  · exact hb
  · exact h.window c hold

/-- The window of a coherent ledger is in its store. -/
theorem Coherent.holdsOnly (hl : l.Coherent) (h : l.store.dir.HoldsOnly P) : l.HoldsOnly P :=
  ⟨h, fun _ hb => Store.holdsOnly_read h (Store.readable_eq_some_iff.mp (hl.stored _ hb))⟩

theorem holdsOnly_load (h : s.dir.HoldsOnly P) (hgenesis : P .genesis) (budget : Nat) :
    (load s budget).2.dir.HoldsOnly P := by
  rcases store_load s budget with heq | heq
  · rw [heq]
    exact h
  · rw [heq]
    exact Store.holdsOnly_write h hgenesis

/-- **Loading anew** brings no other blocks than those of the store, or the first. -/
theorem HoldsOnly.reload (h : l.HoldsOnly P) (hgenesis : P .genesis) : l.reload.2.HoldsOnly P := by
  have hstored := holdsOnly_load h.stored hgenesis l.budget
  unfold Ledger.reload
  split
  · rename_i hload
    rw [hload] at hstored
    exact ⟨hstored, h.window⟩
  · rename_i hload
    rw [hload] at hstored
    exact (coherent_of_load hload).2.holdsOnly hstored

/-- An opened ledger holds what was in the directory, or the first block; so does the directory of one that cannot
be opened. -/
theorem holdsOnly_openIn {dir : Directory} (h : dir.HoldsOnly P) (hgenesis : P .genesis) (naming : Store.Naming)
    (budget : Nat) : (openIn naming budget dir).2.HoldsOnly P ∧
      ∀ l, (openIn naming budget dir).1 = .ok l → l.HoldsOnly P := by
  unfold openIn Store.openIn
  cases hensure : dir.ensure with
  | error e => exact ⟨h, fun l hl => by cases hl⟩
  | ok made =>
    have hstored := holdsOnly_load (s := ⟨naming, made⟩) (h.ensure hensure) hgenesis budget
    dsimp only
    cases hload : load ⟨naming, made⟩ budget with
    | mk result s =>
      rw [hload] at hstored
      cases result with
      | error e => exact ⟨hstored, fun l hl => by cases hl⟩
      | ok w =>
        refine ⟨hstored, fun l hl => ?_⟩
        cases hl
        exact (coherent_of_load hload).2.holdsOnly hstored

/-! ### Transactions -/

/-- The transaction is in a block in memory, or in one that can be read up to the tip. -/
def Holds (l : Ledger) (hash : Digest) : Prop :=
  ∃ b, (b ∈ l.window.blocks ∨ ∃ height ≤ l.tipHeight, l.store.readable height = some b) ∧ b.contains hash = true

/-- The transactions of the blocks that a ledger finds are held. -/
theorem holds_of_block? {height : UInt64} (h : l.block? height = some b) (hb : b.contains hash = true) :
    l.Holds hash := by
  refine ⟨b, ?_, hb⟩
  unfold block? at h
  split at h
  · cases h
  · rename_i hle
    split at h
    · rename_i hfind
      cases h
      exact Or.inl (List.mem_of_find?_eq_some hfind)
    · exact Or.inr ⟨height, UInt64.not_lt.mp hle, h⟩

theorem HoldsOnly.not_holds (h : l.HoldsOnly fun b => b.contains hash = false) : ¬ l.Holds hash := by
  rintro ⟨b, hmem | ⟨height, -, hread⟩, hb⟩
  · rw [h.window b hmem] at hb
    cases hb
  · rw [Store.holdsOnly_read h.stored (Store.readable_eq_some_iff.mp hread)] at hb
    cases hb

theorem Keeps.holds (h : l.Keeps m) (hm : m.Holds hash) : l.Holds hash := by
  obtain ⟨vs, rfl⟩ := h
  obtain ⟨b, hmem | ⟨height, hle, hread⟩, hb⟩ := hm
  · exact ⟨b, Or.inl hmem, hb⟩
  · rw [withVerdicts, Store.readable_withVerdicts] at hread
    exact ⟨b, Or.inr ⟨height, hle, hread⟩, hb⟩

/-- **What a ledger holds after it gained a block** was in the block, or was held before. -/
theorem Gains.holds (h : l.Gains b m) (hbuilt : b.height.toNat = l.tip.height.toNat + 1) (hm : m.Holds hash) :
    b.contains hash = true ∨ l.Holds hash := by
  obtain ⟨c, hc, hin⟩ := hm
  by_cases hcb : c = b
  · exact Or.inl (hcb ▸ hin)
  have htip : m.tipHeight = b.height := congrArg Block.height h.tip_eq
  obtain ⟨s, hok, ⟨vs, rfl⟩, -, rfl⟩ := h.add_eq
  refine Or.inr ⟨c, ?_, hin⟩
  rcases hc with hmem | ⟨height, hle, hread⟩
  · exact Or.inl ((mem_blocks_grow hmem).resolve_left hcb)
  · have hold := (Store.readable_write hread).resolve_left hcb
    rw [Store.readable_withVerdicts] at hold
    -- the block is not the new one, so it lies below, where the ledger reached before
    have hne : height ≠ b.height := fun he => hcb (Store.eq_of_readable_write hok (he ▸ hread))
    refine Or.inr ⟨height, ?_, hold⟩
    have hlt : height < b.height := UInt64.lt_of_le_of_ne (htip ▸ hle) hne
    rw [UInt64.lt_iff_toNat_lt, hbuilt] at hlt
    exact UInt64.le_iff_toNat_le.mpr (Nat.le_of_lt_succ hlt)

end Ledger

end ReplicatedLedger
