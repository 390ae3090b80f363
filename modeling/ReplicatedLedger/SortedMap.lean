/-! # Finite maps with ordered keys

A finite map is kept as its entries with strictly ascending keys, so that two maps with the same entries are
equal. `get?_insert` and `get?_erase` say what the two changes do to a look-up. -/

namespace ReplicatedLedger

/-- A finite map from `κ` to `α`. -/
structure SortedMap (κ α : Type) [LT κ] where
  entries : List (κ × α)
  ascending : entries.Pairwise fun a b => a.1 < b.1
  deriving DecidableEq

namespace SortedMap

variable {κ α : Type} [LT κ]

theorem ext {m n : SortedMap κ α} (h : m.entries = n.entries) : m = n := by
  cases m; cases n; simp_all

/-- The map with no entry. -/
def empty : SortedMap κ α := ⟨[], .nil⟩

instance : EmptyCollection (SortedMap κ α) := ⟨empty⟩

instance : Inhabited (SortedMap κ α) := ⟨empty⟩

/-! ### Views -/

/-- The number of entries. -/
def size (m : SortedMap κ α) : Nat := m.entries.length

/-- The keys, ascending. -/
def keys (m : SortedMap κ α) : List κ := m.entries.map Prod.fst

/-- The values, by ascending key. -/
def values (m : SortedMap κ α) : List α := m.entries.map Prod.snd

variable [DecidableEq κ]

/-- The value under `key`. -/
def get? (m : SortedMap κ α) (key : κ) : Option α := m.entries.lookup key

/-- Whether there is a value under `key`. -/
def contains (m : SortedMap κ α) (key : κ) : Bool := (m.get? key).isSome

/-! ### Changes -/

/-- The map without a value under `key`. -/
def erase (m : SortedMap κ α) (key : κ) : SortedMap κ α :=
  ⟨m.entries.filter (·.1 ≠ key), m.ascending.filter _⟩

/-- The map with the entries that satisfy `p`. -/
def filter (m : SortedMap κ α) (p : κ × α → Bool) : SortedMap κ α :=
  ⟨m.entries.filter p, m.ascending.filter _⟩

variable [DecidableLT κ]

/-- Puts an entry into entries with ascending keys, in place of one with the same key. -/
@[specialize] def insertEntry (e : κ × α) : List (κ × α) → List (κ × α)
  | [] => [e]
  | f :: r =>
    if f.1 < e.1 then f :: insertEntry e r
    else if f.1 = e.1 then e :: r
    else e :: f :: r

theorem mem_insertEntry {e x : κ × α} {l : List (κ × α)} (h : x ∈ insertEntry e l) : x = e ∨ x ∈ l := by
  induction l with
  | nil => simpa [insertEntry] using h
  | cons f r ih =>
    unfold insertEntry at h
    split at h
    · rcases List.mem_cons.mp h with h | h
      · exact .inr (h ▸ List.mem_cons_self)
      · exact (ih h).imp_right (List.mem_cons_of_mem _)
    · split at h
      · rcases List.mem_cons.mp h with h | h
        · exact .inl h
        · exact .inr (List.mem_cons_of_mem _ h)
      · simpa using h

variable [LE κ] [Std.IsLinearOrder κ] [Std.LawfulOrderLT κ]

omit [Std.IsLinearOrder κ] in
theorem lookup_insertEntry (e : κ × α) (l : List (κ × α)) (k : κ) :
    (insertEntry e l).lookup k = if k = e.1 then some e.2 else l.lookup k := by
  induction l with
  | nil => grind [insertEntry]
  | cons f r ih =>
    have : f.1 < e.1 → f.1 ≠ e.1 := fun h h' => Std.lt_irrefl (h' ▸ h)
    grind [insertEntry]

theorem pairwise_insertEntry (e : κ × α) {l : List (κ × α)}
    (h : l.Pairwise fun a b => a.1 < b.1) : (insertEntry e l).Pairwise fun a b => a.1 < b.1 := by
  induction l with
  | nil => simp [insertEntry]
  | cons f r ih =>
    obtain ⟨hf, hr⟩ := List.pairwise_cons.mp h
    unfold insertEntry
    split
    · rename_i hlt
      refine List.pairwise_cons.mpr ⟨fun x hx => ?_, ih hr⟩
      rcases mem_insertEntry hx with rfl | hx
      · exact hlt
      · exact hf x hx
    · split
      · rename_i heq
        exact List.pairwise_cons.mpr ⟨fun x hx => heq ▸ hf x hx, hr⟩
      · rename_i hnlt hne
        have hlt : e.1 < f.1 := by
          rcases Std.lt_trichotomy e.1 f.1 with h | h | h
          · exact h
          · exact absurd h.symm hne
          · exact absurd h hnlt
        refine List.pairwise_cons.mpr ⟨fun x hx => ?_, h⟩
        rcases List.mem_cons.mp hx with rfl | hx
        · exact hlt
        · exact Std.lt_trans hlt (hf x hx)

/-- The map with `a` under `key`, in place of what was there. -/
def insert (m : SortedMap κ α) (key : κ) (a : α) : SortedMap κ α :=
  ⟨insertEntry (key, a) m.entries, pairwise_insertEntry _ m.ascending⟩

/-- The map with the value under `key`, if there is one, replaced by its image. -/
def modify (m : SortedMap κ α) (key : κ) (f : α → α) : SortedMap κ α :=
  match m.get? key with
  | some a => m.insert key (f a)
  | none => m

/-- The map of a list of entries; of two with the same key the later one counts. -/
def ofList (es : List (κ × α)) : SortedMap κ α := es.foldl (fun m e => m.insert e.1 e.2) empty

theorem get?_insert (m : SortedMap κ α) (key : κ) (a : α) (k : κ) :
    (m.insert key a).get? k = if k = key then some a else m.get? k :=
  lookup_insertEntry (key, a) m.entries k

omit [DecidableLT κ] [LE κ] [Std.IsLinearOrder κ] [Std.LawfulOrderLT κ] in
theorem get?_erase (m : SortedMap κ α) (key k : κ) :
    (m.erase key).get? k = if k = key then none else m.get? k := by
  change (m.entries.filter (·.1 ≠ key)).lookup k = if k = key then none else m.entries.lookup k
  induction m.entries with
  | nil => simp
  | cons e r ih => grind

end SortedMap

end ReplicatedLedger
