import ReplicatedLedger.Proofs.Store.Names

/-! # Stores that take blocks

A store that takes blocks one after the other, of heights that are apart, holds the record of each of them under its
height, and nothing else in its tree changes (`TakesAll.gains`). So heights apart from those of the blocks keep what
they had (`Gains.content?_of_apart`). Heights of a range are apart when the extension does not go back
(`Naming.LeadsOn.separates`); when it does, the paths of two heights may meet in one file (`meeting`). -/

namespace ReplicatedLedger.Store

variable {s s' : Store} {b : Block} {bs : List Block} {height : UInt64} {p : Place}

/-! ### Ranges -/

/-- Different heights of a range have paths that lead to different places. -/
def Separates (s : Store) (bottom top : UInt64) : Prop := ∀ height height', bottom ≤ height → height ≤ top →
  bottom ≤ height' → height' ≤ top → height ≠ height' → s.Apart height height'

theorem Naming.LeadsOn.separates (hon : s.naming.LeadsOn) (bottom top : UInt64) : s.Separates bottom top :=
  fun _ _ _ _ _ _ hne => hon.apart hne

/-! ### Blocks one after the other -/

/-- The store after blocks were written to it, one after the other. -/
def writeAll (s : Store) : List Block → Store
  | [] => s
  | b :: bs => (s.write b).2.writeAll bs

theorem naming_writeAll (s : Store) (bs : List Block) : (s.writeAll bs).naming = s.naming := by
  induction bs generalizing s with
  | nil => rfl
  | cons b bs ih => exact (ih _).trans (s.naming_write b)

/-- The store takes the blocks, one after the other. -/
def TakesAll (s : Store) : List Block → Prop
  | [] => True
  | b :: bs => (s.write b).1 = .ok () ∧ (s.write b).2.TakesAll bs

instance decidableTakesAll : (s : Store) → (bs : List Block) → Decidable (s.TakesAll bs)
  | _, [] => inferInstanceAs (Decidable True)
  | s, b :: bs =>
    have := decidableTakesAll (s.write b).2 bs
    inferInstanceAs (Decidable (_ ∧ _))

/-- What a store becomes when it gains blocks: paths lead where they led, the file of each block holds its record, and
what stands at other places stays. -/
structure Gains (s : Store) (bs : List Block) (s' : Store) : Prop where
  leadsTo_iff : ∀ height p, s'.LeadsTo height p ↔ s.LeadsTo height p
  stored : ∀ b ∈ bs, s'.content? b.height = some (Block.Record.encode b)
  others : ∀ p, (∀ b ∈ bs, ¬ s.LeadsTo b.height p) → s'.dir.tree.get? p = s.dir.tree.get? p

theorem Gains.withVerdicts (h : s.Gains bs s') (vs : List Bool) : s.Gains bs (s'.withVerdicts vs) where
  leadsTo_iff height p := (s'.leadsTo_withVerdicts vs).trans (h.leadsTo_iff height p)
  stored b hb := (s'.content?_withVerdicts vs b.height).trans (h.stored b hb)
  others := h.others

/-- A height apart from those of the blocks has the file it had. -/
theorem Gains.content?_of_apart (h : s.Gains bs s') (hapart : ∀ b ∈ bs, s.Apart height b.height) :
    s'.content? height = s.content? height :=
  content?_congr (h.leadsTo_iff height) fun p hp => h.others p fun b hb => hapart b hb p hp

/-- **Blocks of heights that are apart** are all held after they were taken, and nothing else changes. -/
theorem TakesAll.gains (h : s.TakesAll bs) (hapart : bs.Pairwise fun b c => s.Apart b.height c.height) :
    s.Gains bs (s.writeAll bs) := by
  induction bs generalizing s with
  | nil => exact ⟨fun _ _ => Iff.rfl, fun b hb => absurd hb List.not_mem_nil, fun _ _ => rfl⟩
  | cons b bs ih =>
    obtain ⟨hok, hlater⟩ := h
    obtain ⟨hb, hbs⟩ := List.pairwise_cons.mp hapart
    have hgains := ih hlater (hbs.imp fun hc => (s.apart_write b).mpr hc)
    refine ⟨fun height p => ?_, fun c hc => ?_, fun p hp => ?_⟩
    · exact (hgains.leadsTo_iff height p).trans (s.leadsTo_write b)
    · rcases List.mem_cons.mp hc with rfl | hmem
      · -- the blocks that are written later do not meet the first
        have hkept := hgains.content?_of_apart fun d hd => (s.apart_write c).mpr (hb d hd)
        exact hkept.trans (content?_write_self hok)
      · exact hgains.stored c hmem
    · obtain ⟨hfirst, hrest⟩ := List.forall_mem_cons.mp hp
      rw [writeAll, hgains.others p fun c hc hc' => hrest c hc ((s.leadsTo_write b).mp hc')]
      exact get?_write_of_ne hfirst

/-- A gained block is read back. -/
theorem Gains.readable (h : s.Gains bs s') (hb : b ∈ bs) (hfits : Wire.FitsSize (1 + b.encode.length)) :
    s'.readable b.height = some b := readable_of_content? hfits (h.stored b hb)

/-! ### Paths that meet -/

/-- **A block is lost** when one of another height is written to the place of its file. -/
theorem readable_write_of_meet (hfits : Wire.FitsSize (1 + b.encode.length)) (hok : (s.write b).1 = .ok ())
    (hp : s.LeadsTo b.height p) (hp' : s.LeadsTo height p) (hne : height ≠ b.height) :
    (s.write b).2.readable height = none := by
  have hsame : (s.write b).2.content? height = (s.write b).2.content? b.height := by
    refine content?_congr (fun q => ?_) fun _ _ => rfl
    rw [leadsTo_write, leadsTo_write, LeadsTo, LeadsTo, hp, hp']
  rw [Option.eq_none_iff_forall_ne_some]
  intro c hc
  obtain ⟨content, hcontent, hdecode, hheight⟩ := read_eq_ok_iff.mp (readable_eq_some_iff.mp hc)
  rw [hsame, content?_write_self hok] at hcontent
  cases hcontent
  rw [Block.Record.decode_encode hfits] at hdecode
  cases hdecode
  exact hne hheight.symm

/-- An empty store whose paths for the heights 1 and 2 go into folders of their own, and back to one file. -/
def meeting : Store :=
  let dir := Directory.fresh
  ⟨⟨"block", "x/../blk"⟩,
    { dir with tree := (dir.tree.insert ["block_1.x", "blocks"] .folder).insert ["block_2.x", "blocks"] .folder }⟩

end ReplicatedLedger.Store
