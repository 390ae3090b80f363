import ReplicatedLedger.Ledger
import ReplicatedLedger.Proofs.Store.Names

/-! # How a ledger changes when a block is added

An attempt to add a block either keeps the ledger, but for verdicts of the medium that it uses up, or the
ledger gains the block as its tip (`add_cases`). The tip of a ledger that gains a block is lower than the
block (`Gains.lt`); if the block was built on the tip then it stands right above it
(`Gains.toNat_height`). -/

namespace ReplicatedLedger

/-- The block was built on the other one: it has the next height, and names the other one as its parent. -/
structure Block.BuiltOn (b parent : Block) : Prop where
  height : b.height = parent.height + 1
  previous : b.header.previous = some parent.hash

namespace Ledger

/-- The ledger with other verdicts of its medium to come. -/
def withVerdicts (l : Ledger) (vs : List Bool) : Ledger := { l with store := l.store.withVerdicts vs }

/-- The second ledger is the first, up to the verdicts of the medium. -/
def Keeps (l m : Ledger) : Prop := ∃ vs, m = l.withVerdicts vs

/-- The second ledger is the first with the block added, up to the verdicts of the medium. -/
def Gains (l : Ledger) (b : Block) (m : Ledger) : Prop := ∃ vs, (l.withVerdicts vs).add b = (true, m)

variable {l m n : Ledger} {b : Block}

theorem Keeps.refl (l : Ledger) : l.Keeps l := ⟨l.store.dir.verdicts, rfl⟩

theorem Keeps.trans (h : l.Keeps m) (h' : m.Keeps n) : l.Keeps n := by
  obtain ⟨vs, rfl⟩ := h
  obtain ⟨ws, rfl⟩ := h'
  exact ⟨ws, rfl⟩

theorem Keeps.tip_eq (h : l.Keeps m) : m.tip = l.tip := by
  obtain ⟨vs, rfl⟩ := h
  rfl

theorem Keeps.trans_gains (h : l.Keeps m) (h' : m.Gains b n) : l.Gains b n := by
  obtain ⟨vs, rfl⟩ := h
  obtain ⟨ws, hadd⟩ := h'
  exact ⟨ws, hadd⟩

/-- **Adding a block** keeps the ledger or makes it gain the block. -/
theorem add_cases (l : Ledger) (b : Block) :
    (∃ m, l.add b = (false, m) ∧ l.Keeps m) ∨ ∃ m, l.add b = (true, m) ∧ l.Gains b m := by
  cases hadd : l.add b with
  | mk done m =>
    cases done with
    | true => exact Or.inr ⟨m, rfl, l.store.dir.verdicts, hadd⟩
    | false =>
      refine Or.inl ⟨m, rfl, ?_⟩
      unfold add at hadd
      split at hadd
      · cases hadd
        exact Keeps.refl l
      · split at hadd
        · rename_i hw
          obtain ⟨vs, hvs⟩ := Store.write_of_error (congrArg Prod.fst hw)
          cases hadd
          rw [hw] at hvs
          exact ⟨vs, by rw [withVerdicts, ← hvs]⟩
        · cases hadd

/-- A block above the tip that the store takes is added. -/
theorem add_of_write (hlt : l.tipHeight < b.height) (h : (l.store.write b).1 = .ok ()) : (l.add b).1 = true := by
  have hwrite : l.store.write b = (.ok (), (l.store.write b).2) := Prod.ext h rfl
  rw [add, if_neg (UInt64.not_le.mpr hlt), hwrite]

/-- A block that could be added is gained. -/
theorem gains_of_add (h : (l.add b).1 = true) : l.Gains b (l.add b).2 := by
  obtain ⟨m, hadd, -⟩ | ⟨m, hadd, hgains⟩ := l.add_cases b
  · rw [hadd] at h
    cases h
  · rw [hadd]
    exact hgains

/-- A block that is gained is higher than the tip was; the store takes it, and the window grows. -/
theorem Gains.add_eq (h : l.Gains b m) : ∃ s : Store,
    (s.write b).1 = .ok () ∧ (∃ vs, s = l.store.withVerdicts vs) ∧ l.tipHeight < b.height ∧
      m = ⟨(s.write b).2, l.window.grow l.budget b, l.budget⟩ := by
  obtain ⟨vs, hadd⟩ := h
  unfold add at hadd
  split at hadd
  · cases hadd
  · rename_i hlt
    split at hadd
    · cases hadd
    · rename_i hw
      cases hadd
      refine ⟨l.store.withVerdicts vs, congrArg Prod.fst hw, ⟨vs, rfl⟩, UInt64.not_le.mp hlt, ?_⟩
      rw [show ((l.store.withVerdicts vs).write b).2 = _ from congrArg Prod.snd hw]
      rfl

theorem tip_grow (w : Window) (budget : Nat) (b : Block) : (w.grow budget b).tip = b := by
  unfold Window.grow
  split <;> rfl

theorem Gains.tip_eq (h : l.Gains b m) : m.tip = b := by
  obtain ⟨s, -, -, -, rfl⟩ := h.add_eq
  exact tip_grow _ _ _

theorem Keeps.naming_eq (h : l.Keeps m) : m.store.naming = l.store.naming := by
  obtain ⟨vs, rfl⟩ := h
  rfl

theorem Gains.naming_eq (h : l.Gains b m) : m.store.naming = l.store.naming := by
  obtain ⟨s, -, ⟨vs, rfl⟩, -, rfl⟩ := h.add_eq
  exact Store.naming_write _ _

theorem Gains.lt (h : l.Gains b m) : l.tip.height < b.height := by
  obtain ⟨s, -, -, hlt, -⟩ := h.add_eq
  exact hlt

/-- The height of a block that was built on the tip does not run over. -/
theorem Gains.toNat_height (h : l.Gains b m) (hb : b.BuiltOn l.tip) :
    b.height.toNat = l.tip.height.toNat + 1 := by
  have hlt : l.tip.height.toNat < b.height.toNat := UInt64.lt_iff_toNat_lt.mp h.lt
  rw [hb.height, UInt64.toNat_add] at hlt ⊢
  have h1 : (1 : UInt64).toNat = 1 := rfl
  omega

end Ledger

end ReplicatedLedger
