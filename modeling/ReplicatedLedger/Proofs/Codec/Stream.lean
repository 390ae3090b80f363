import ReplicatedLedger.Proofs.Codec.Block

/-! # Records one after another

A record tells its own length, so that whoever reads it knows where it ends, whatever its block holds and whatever
follows it (`Record.read_encodeItem`). So records that are written one after another are read one after another, the
markers among them too, and what follows the last one is left (`Record.readMany_encodeItem`). -/

namespace ReplicatedLedger.Block.Record

open Wire

/-- Takes `n` records off a stream, and leaves the rest of it. -/
def readMany : Nat → Bytes → Except RecordError (List (Option Block) × Bytes)
  | 0, stream => return ([], stream)
  | n + 1, stream => do
    let (item, later) ← read stream
    let (items, rest) ← readMany n later
    return (item :: items, rest)

theorem readMany_succ {n : Nat} {stream later : Bytes} {item : Option Block} (h : read stream = .ok (item, later)) :
    readMany (n + 1) stream = (readMany n later).map fun x => (item :: x.1, x.2) := by
  simp only [readMany, h, bind, Except.bind]
  cases readMany n later <;> rfl

/-- **An item is read back**, and nothing of what follows it. -/
theorem read_encodeItem {item : Option Block} (hshort : ∀ b, item = some b → 1 + b.encode.length ≤ maxLength)
    (rest : Bytes) : read (encodeItem item ++ rest) = .ok (item, rest) := by
  cases item with
  | none => rfl
  | some b => exact read_encode_of_short (hshort b rfl) rest

/-- **Records on a stream delimit themselves.** Blocks whose records are not too long, and markers, are read back in
order from what was written of them one after another, and exactly the bytes behind them are left. -/
theorem readMany_encodeItem {items : List (Option Block)}
    (hshort : ∀ b, some b ∈ items → 1 + b.encode.length ≤ maxLength) (rest : Bytes) :
    readMany items.length (items.flatMap encodeItem ++ rest) = .ok (items, rest) := by
  induction items with
  | nil => rfl
  | cons item items ih =>
    have hfirst := read_encodeItem (fun b hb => hshort b (hb ▸ List.mem_cons_self)) (items.flatMap encodeItem ++ rest)
    have hlater := ih fun b hb => hshort b (List.mem_cons_of_mem item hb)
    rw [List.flatMap_cons, List.append_assoc, List.length_cons, readMany_succ hfirst, hlater]
    rfl

/-- A marker stands between two blocks, and what follows them looks like a marker and a record that was cut off. -/
theorem readMany_encodeItem_marked :
    let items := [some (raised 1), none, some genesis]
    (∀ b, some b ∈ items → 1 + b.encode.length ≤ maxLength) ∧
      readMany 3 (encode (raised 1) ++ (marker ++ (encode genesis ++ [0, 0, 0, 0, 0, 0, 0, 9, 1]))) =
        .ok (items, [0, 0, 0, 0, 0, 0, 0, 9, 1]) := by
  intro items
  have hshort : ∀ b, some b ∈ items → 1 + b.encode.length ≤ maxLength := by
    intro b hb
    rcases List.mem_cons.mp hb with hb | hb
    · cases hb
      exact short_raised 1
    · obtain rfl : b = genesis := by simpa using hb
      exact short_raised 0
  refine ⟨hshort, ?_⟩
  have hread := readMany_encodeItem hshort [0, 0, 0, 0, 0, 0, 0, 9, 1]
  simpa [items, encodeItem] using hread

end ReplicatedLedger.Block.Record
