import ReplicatedLedger.Proofs.Ledger.Growth
import Mathlib.Algebra.GroupWithZero.Nat
import Mathlib.Data.List.Chain

/-! # The window of a ledger

A window is well kept when its blocks stand one above the other, when the bytes that it counts are those of its
blocks, and when they fit the budget, unless the tip is alone (`Window.WellKept`). Three operations write a
window, and each leaves it well kept: loading (`wellKept_of_load`), starting anew above a gap and growing under a
new tip (`Window.WellKept.grow`). What is dropped while it grows was counted before, so that no subtraction falls
below zero (`evict?_eq`). So every opened ledger has a well-kept window, whatever becomes of its directory
(`window_wellKept`). -/

namespace ReplicatedLedger.Ledger

/-- One block stands right above the other. -/
def Above (b lower : Block) : Prop := b.height.toNat = lower.height.toNat + 1

/-- The bytes that blocks take. -/
def bytes (bs : List Block) : Nat := (bs.map Block.size).sum

/-- The blocks stand one above the other, their bytes are counted, and they fit the budget, unless there is
but one of them. -/
structure Window.WellKept (w : Window) (budget : Nat) : Prop where
  descending : w.blocks.IsChain Above
  memory_eq : w.memory = bytes w.blocks
  fits : w.memory ≤ budget ∨ w.blocks.length = 1

@[simp] theorem bytes_nil : bytes [] = 0 := rfl

@[simp] theorem bytes_cons (b : Block) (bs : List Block) : bytes (b :: bs) = b.size + bytes bs := rfl

theorem bytes_reverse (bs : List Block) : bytes bs.reverse = bytes bs := by
  rw [bytes, List.map_reverse, List.sum_reverse, bytes]

variable {l : Ledger} {s s' : Store} {w : Window} {b : Block} {budget : Nat}

/-- The window of a single block is well kept, whatever its size. -/
theorem wellKept_alone (b : Block) (budget : Nat) : Window.WellKept ⟨b, [], b.size⟩ budget where
  descending := List.IsChain.singleton b
  memory_eq := rfl
  fits := Or.inr rfl

/-! ### Loading -/

/-- What is loaded below a block goes on downwards from it; its bytes are counted, and if there is any then it
fits the budget. -/
theorem loaded_below (s : Store) (budget : Nat) (lowest : Block) (size : Nat) (hs : List UInt64) :
    (lowest :: (loadBelow s budget lowest size hs).1).IsChain Above ∧
      (loadBelow s budget lowest size hs).2 = size + bytes (loadBelow s budget lowest size hs).1 ∧
      ((loadBelow s budget lowest size hs).2 ≤ budget ∨ (loadBelow s budget lowest size hs).1 = []) := by
  induction hs generalizing lowest size with
  | nil => exact ⟨List.IsChain.singleton lowest, rfl, Or.inr rfl⟩
  | cons h hs ih =>
    have hnone : (lowest :: ([] : List Block)).IsChain Above ∧ size = size + bytes [] ∧
        (size ≤ budget ∨ ([] : List Block) = []) := ⟨List.IsChain.singleton lowest, rfl, Or.inr rfl⟩
    unfold loadBelow
    split
    · exact hnone
    · rename_i hnext
      cases hread : s.read h with
      | error e => exact hnone
      | ok b =>
        dsimp only
        split
        · exact hnone
        · rename_i hroom
          obtain ⟨hchain, hbytes, hfits⟩ := ih b (size + b.size)
          have hheight : b.height = h := Store.height_of_readable (Store.readable_eq_some_iff.mpr hread)
          have habove : Above lowest b := by
            unfold Above
            rw [hheight]
            omega
          refine ⟨List.isChain_cons_cons.mpr ⟨habove, hchain⟩, ?_, Or.inl ?_⟩
          · rw [bytes_cons, hbytes, Nat.add_assoc]
          · rcases hfits with hle | hempty
            · exact hle
            · rw [hbytes, hempty, bytes_nil]
              omega

theorem wellKept_of_loadFrom {hs : List UInt64} (h : loadFrom s budget hs = some w) : w.WellKept budget := by
  induction hs with
  | nil => cases h
  | cons height hs ih =>
    unfold loadFrom at h
    cases hread : s.read height with
    | error e => exact ih (by simpa [hread] using h)
    | ok tip =>
      rw [hread] at h
      cases h
      obtain ⟨hchain, hbytes, hfits⟩ := loaded_below s budget tip tip.size hs
      refine ⟨hchain, hbytes, hfits.imp_right fun hempty => ?_⟩
      rw [Window.blocks, hempty]
      rfl

/-- **A window that was loaded** is well kept, whatever stands in the directory. -/
theorem wellKept_of_load (h : load s budget = (.ok w, s')) : w.WellKept budget := by
  unfold load at h
  split at h
  · cases h
  · split at h
    · cases h
    · cases h
      exact wellKept_alone _ _
  · split at h
    · cases h
    · rename_i hload
      cases h
      exact wellKept_of_loadFrom hload

/-! ### Growing -/

/-- Dropping the lowest blocks with each subtraction checked; none if one of them would fall below zero. -/
def evict? (budget : Nat) : List Block → Nat → Option (List Block × Nat)
  | [], memory => some ([], memory)
  | b :: bs, memory =>
    if memory > budget then
      if b.size ≤ memory then evict? budget bs (memory - b.size) else none
    else some (b :: bs, memory)

/-- **No subtraction falls below zero** while blocks are dropped whose bytes are counted. -/
theorem evict?_eq (budget : Nat) {bs : List Block} {memory : Nat} (h : bytes bs ≤ memory) :
    evict? budget bs memory = some (evict budget bs memory) := by
  induction bs generalizing memory with
  | nil => rfl
  | cons b bs ih =>
    rw [bytes_cons] at h
    have hsize : b.size ≤ memory := by omega
    have hrest : bytes bs ≤ memory - b.size := by omega
    by_cases hover : memory > budget
    · rw [evict?, evict, if_pos hover, if_pos hsize, if_pos hover]
      exact ih hrest
    · rw [evict?, evict, if_neg hover, if_neg hover]

/-- What stays after blocks were dropped is the upper part, with its bytes and those kept anyway; it fits the budget,
if anything stays. -/
theorem exists_evict (budget kept : Nat) (bs : List Block) : ∃ rest,
    evict budget bs (kept + bytes bs) = (rest, kept + bytes rest) ∧ rest <:+ bs ∧
      (kept + bytes rest ≤ budget ∨ rest = []) := by
  induction bs with
  | nil => exact ⟨[], rfl, List.suffix_refl _, Or.inr rfl⟩
  | cons b bs ih =>
    obtain ⟨rest, hevict, hsuffix, hfits⟩ := ih
    unfold evict
    by_cases hover : kept + bytes (b :: bs) > budget
    · have hdrop : kept + bytes (b :: bs) - b.size = kept + bytes bs := by
        rw [bytes_cons]
        omega
      rw [if_pos hover, hdrop]
      exact ⟨rest, hevict, hsuffix.trans (List.suffix_cons b bs), hfits⟩
    · rw [if_neg hover]
      exact ⟨b :: bs, rfl, List.suffix_refl _, Or.inl (by omega)⟩

/-- **A window that grows** stays well kept: under a block right above the tip it loses its lowest blocks, and above
a gap it starts anew. -/
theorem Window.WellKept.grow (h : w.WellKept budget) (b : Block) : (w.grow budget b).WellKept budget := by
  unfold Window.grow
  split
  · rename_i hnext
    have hmemory : w.memory + b.size = b.size + bytes w.blocks.reverse := by
      rw [bytes_reverse, h.memory_eq, Nat.add_comm]
    obtain ⟨rest, hevict, hsuffix, hfits⟩ := exists_evict budget b.size w.blocks.reverse
    rw [hmemory, hevict]
    dsimp only
    have hupper : rest.reverse <+: w.blocks := by
      rw [← List.reverse_reverse w.blocks]
      exact List.reverse_prefix.mpr hsuffix
    refine ⟨?_, ?_, ?_⟩
    · -- what stays starts with the old tip, if anything stays
      change (b :: rest.reverse).IsChain Above
      have hchain := h.descending.prefix hupper
      cases hrest : rest.reverse with
      | nil => exact List.IsChain.singleton b
      | cons c cs =>
        rw [hrest] at hchain hupper
        have hc : c = w.tip := (List.cons_prefix_cons.mp hupper).1
        exact List.isChain_cons_cons.mpr ⟨hc ▸ hnext, hchain⟩
    · change b.size + bytes rest = bytes (b :: rest.reverse)
      rw [bytes_cons, bytes_reverse]
    · rcases hfits with hle | rfl
      · exact Or.inl hle
      · exact Or.inr rfl
  · exact wellKept_alone b budget

/-! ### What happens to an open ledger -/

/-- What happens to an open ledger. -/
inductive Event where
  | add (b : Block)
  | reload
  /-- Others change the directory; this is what is then in its place. -/
  | disturb (dir : Directory)

/-- The ledger after an event. -/
def undergo (l : Ledger) : Event → Ledger
  | .add b => (l.add b).2
  | .reload => l.reload.2
  | .disturb dir => { l with store := { l.store with dir } }

/-- The ledger after events. -/
def after (l : Ledger) (es : List Event) : Ledger := es.foldl undergo l

theorem wellKept_add (h : l.window.WellKept l.budget) (b : Block) :
    (l.add b).2.budget = l.budget ∧ (l.add b).2.window.WellKept l.budget := by
  unfold add
  split
  · exact ⟨rfl, h⟩
  · split
    · exact ⟨rfl, h⟩
    · exact ⟨rfl, h.grow b⟩

/-- A ledger that cannot be loaded anew keeps its window. -/
theorem window_reload_of_error {e : LedgerError} (h : l.reload.1 = .error e) : l.reload.2.window = l.window := by
  unfold reload at h ⊢
  cases hload : load l.store l.budget with
  | mk result s =>
    rw [hload] at h
    cases result with
    | error e => rfl
    | ok w => cases h

theorem wellKept_reload (h : l.window.WellKept l.budget) :
    l.reload.2.budget = l.budget ∧ l.reload.2.window.WellKept l.budget := by
  unfold reload
  split
  · exact ⟨rfl, h⟩
  · rename_i hload
    exact ⟨rfl, wellKept_of_load hload⟩

theorem wellKept_undergo (h : l.window.WellKept l.budget) (e : Event) :
    (l.undergo e).budget = l.budget ∧ (l.undergo e).window.WellKept l.budget := by
  cases e with
  | add b => exact wellKept_add h b
  | reload => exact wellKept_reload h
  | disturb dir => exact ⟨rfl, h⟩

theorem wellKept_after (h : l.window.WellKept l.budget) (es : List Event) :
    (l.after es).budget = l.budget ∧ (l.after es).window.WellKept l.budget := by
  induction es generalizing l with
  | nil => exact ⟨rfl, h⟩
  | cons e es ih =>
    obtain ⟨hbudget, hkept⟩ := wellKept_undergo h e
    rw [← hbudget] at hkept
    obtain ⟨hlast, hwhole⟩ := ih hkept
    rw [hbudget] at hlast hwhole
    exact ⟨hlast, hwhole⟩

theorem wellKept_of_openIn {naming : Store.Naming} {dir dir' : Directory}
    (h : openIn naming budget dir = (.ok l, dir')) : l.budget = budget ∧ l.window.WellKept budget := by
  unfold openIn at h
  split at h
  · cases h
  · split at h
    · cases h
    · rename_i hload
      cases h
      exact ⟨rfl, wellKept_of_load hload⟩

/-- **The window of an opened ledger** is well kept, whatever is added or loaded anew, with or without success, and
whatever others do to the directory. The blocks that are dropped when it grows were all counted, and a failed
attempt to load it anew leaves it as it is. -/
theorem window_wellKept {naming : Store.Naming} {dir dir' : Directory} (h : openIn naming budget dir = (.ok l, dir'))
    (es : List Event) :
    (l.after es).window.blocks ≠ [] ∧ (l.after es).window.WellKept budget ∧
    (∀ b : Block, evict? budget (l.after es).window.blocks.reverse ((l.after es).window.memory + b.size) =
      some (evict budget (l.after es).window.blocks.reverse ((l.after es).window.memory + b.size))) ∧
    ∀ e, (l.after es).reload.1 = .error e → (l.after es).reload.2.window = (l.after es).window := by
  obtain ⟨hbudget, hopened⟩ := wellKept_of_openIn h
  rw [← hbudget] at hopened
  have hkept := (wellKept_after hopened es).2
  rw [hbudget] at hkept
  refine ⟨List.cons_ne_nil _ _, hkept, fun b => evict?_eq budget ?_, fun e he => window_reload_of_error he⟩
  rw [bytes_reverse, hkept.memory_eq]
  omega

theorem hasRoom_blocks : Place.HasRoom ["blocks"] := by decide

/-- Two blocks are added, and then the directory is gone. -/
def shaken : List Event := [.reload, .add (.raised 1), .add (.raised 2), .disturb (.vacant ["blocks"] hasRoom_blocks)]

/-- With memory for exactly two blocks the first is dropped; without a directory the others stay. -/
theorem window_wellKept_shaken : ∃ l dir' e, openIn .standard 144 .fresh = (.ok l, dir') ∧
    (l.after shaken).window.blocks.map Block.height = [2, 1] ∧ (l.after shaken).window.WellKept 144 ∧
    (l.after shaken).window.memory = 144 ∧ (l.after shaken).reload.1 = .error e ∧
    (l.after shaken).reload.2.window = (l.after shaken).window := by
  have htest : (openIn .standard 144 .fresh).1.toOption.any fun l =>
      (l.after shaken).window.blocks.map Block.height == [2, 1] &&
        ((l.after shaken).window.memory == 144 && !(l.after shaken).reload.1.isOk) := by decide +kernel
  obtain ⟨l, hopened, hl⟩ := Option.any_eq_true _ _ |>.mp htest
  simp only [Bool.and_eq_true, beq_iff_eq, Bool.not_eq_true'] at hl
  obtain ⟨hheights, hmemory, hfails⟩ := hl
  have hopen : openIn .standard 144 .fresh = (.ok l, (openIn .standard 144 .fresh).2) := by
    refine Prod.ext ?_ rfl
    cases hresult : (openIn .standard 144 .fresh).1 with
    | error e => simp [hresult, Except.toOption] at hopened
    | ok l' => simpa [hresult, Except.toOption] using hopened
  cases hreload : (l.after shaken).reload.1 with
  | ok u => simp [hreload, Except.isOk, Except.toBool] at hfails
  | error e =>
    obtain ⟨-, hkept, -, hsame⟩ := window_wellKept hopen shaken
    exact ⟨l, _, e, hopen, hheights, hkept, hmemory, hreload, hsame e hreload⟩

end ReplicatedLedger.Ledger
