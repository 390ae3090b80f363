import ReplicatedLedger.Transaction.Map
import Mathlib.Data.List.Perm.Subperm
import Mathlib.Data.List.Nodup

/-! # Maps determined by their look-ups

The entries of a map with ordered keys are what can be looked up in it (`get?_eq_some_iff`), so that two
maps with the same look-ups are equal (`ext_get?`). A keyed map of transactions is therefore determined
by its transactions: collecting them in any order gives the map back (`Keyed.ofTransactions_of_perm`). Of
transactions that share a hash one is kept, so that the map is smaller than the list
(`nodup_iff_size_ofTransactions`). -/

namespace ReplicatedLedger

/-- A list has no repetition just if it is as long as one that has none and the same members. -/
theorem nodup_iff_length_eq {α : Type} {l m : List α} (hl : l.Nodup) (h : ∀ a, a ∈ l ↔ a ∈ m) :
    m.Nodup ↔ l.length = m.length := by
  constructor
  · intro hm
    exact ((List.perm_ext_iff_of_nodup hl hm).mpr h).length_eq
  · intro hlength
    have hperm := (List.subperm_of_subset hl fun a => (h a).mp).perm_of_length_le (Nat.le_of_eq hlength.symm)
    exact hperm.nodup_iff.mp hl

namespace SortedMap

variable {κ α : Type} [LT κ]

@[simp] theorem length_keys (m : SortedMap κ α) : m.keys.length = m.size := List.length_map _

@[simp] theorem length_values (m : SortedMap κ α) : m.values.length = m.size := List.length_map _

@[simp] theorem get?_empty [DecidableEq κ] (k : κ) : (SortedMap.empty : SortedMap κ α).get? k = none := rfl

variable [LE κ] [Std.LawfulOrderLT κ]

theorem nodup_keys (m : SortedMap κ α) : m.keys.Nodup :=
  List.Pairwise.map Prod.fst (fun _ _ h h' => Std.lt_irrefl (h' ▸ h)) m.ascending

variable [DecidableEq κ]

theorem get?_eq_some_iff (m : SortedMap κ α) {k : κ} {a : α} : m.get? k = some a ↔ (k, a) ∈ m.entries := by
  unfold get?
  constructor
  · intro h
    obtain ⟨l, r, he, -⟩ := List.lookup_eq_some_iff.mp h
    simp [he]
  · intro h
    obtain ⟨l, r, he⟩ := List.append_of_mem h
    refine List.lookup_eq_some_iff.mpr ⟨l, r, he, fun e hl => ?_⟩
    have hlt := (List.pairwise_append.mp (he ▸ m.ascending)).2.2 e hl (k, a) (by simp)
    have hne : k ≠ e.1 := fun h' => Std.lt_irrefl (h' ▸ hlt : k < k)
    simpa using hne

theorem contains_iff (m : SortedMap κ α) {k : κ} : m.contains k = true ↔ k ∈ m.keys := by
  simp only [contains, Option.isSome_iff_exists, get?_eq_some_iff, keys, List.mem_map, Prod.exists]
  exact ⟨fun ⟨a, h⟩ => ⟨k, a, h, rfl⟩, fun ⟨_, a, h, e⟩ => ⟨a, e ▸ h⟩⟩

/-- Two maps with the same look-ups are equal. -/
theorem ext_get? [Std.IsLinearOrder κ] {m n : SortedMap κ α} (h : ∀ k, m.get? k = n.get? k) : m = n := by
  have hmem : ∀ e, e ∈ m.entries ↔ e ∈ n.entries := fun ⟨k, a⟩ => by
    rw [← get?_eq_some_iff, ← get?_eq_some_iff, h]
  have hperm : m.entries.Perm n.entries :=
    (List.perm_ext_iff_of_nodup (List.Nodup.of_map Prod.fst m.nodup_keys)
      (List.Nodup.of_map Prod.fst n.nodup_keys)).mpr hmem
  refine ext (hperm.eq_of_pairwise (fun a b _ _ hab hba => ?_) m.ascending n.ascending)
  exact absurd (Std.lt_trans hab hba) Std.lt_irrefl

/-- Of two values that are put under one key the later one stays. -/
theorem insert_insert [DecidableLT κ] [Std.IsLinearOrder κ] (m : SortedMap κ α) (key : κ) (a b : α) :
    (m.insert key a).insert key b = m.insert key b := by
  refine ext_get? fun k => ?_
  simp only [get?_insert]
  split_ifs <;> rfl

theorem mem_keys_insert [DecidableLT κ] [Std.IsLinearOrder κ] {m : SortedMap κ α} {key k : κ} {a : α} :
    k ∈ (m.insert key a).keys ↔ k ∈ m.keys ∨ k = key := by
  rw [← contains_iff, ← contains_iff, contains, contains, get?_insert]
  split_ifs with hk
  · simp [hk]
  · simp [hk]

theorem get?_modify [DecidableLT κ] [Std.IsLinearOrder κ] (m : SortedMap κ α) (key k : κ) (f : α → α) :
    (m.modify key f).get? k = if k = key then (m.get? k).map f else m.get? k := by
  unfold modify
  split_ifs with hk
  · subst hk
    cases hget : m.get? k with
    | none => exact hget
    | some a => exact (get?_insert m k (f a) k).trans (if_pos rfl)
  · cases m.get? key with
    | none => rfl
    | some a => exact (get?_insert m key (f a) k).trans (if_neg hk)

omit [DecidableEq κ] in
/-- Maps of the same keys have them in the same order. -/
theorem keys_eq_iff [Std.IsLinearOrder κ] {m n : SortedMap κ α} :
    m.keys = n.keys ↔ ∀ k, k ∈ m.keys ↔ k ∈ n.keys := by
  refine ⟨fun h k => h ▸ Iff.rfl, fun h => ?_⟩
  have hascending : ∀ o : SortedMap κ α, o.keys.Pairwise (· < ·) := fun o => o.ascending.map Prod.fst fun _ _ => id
  have hperm : m.keys.Perm n.keys := (List.perm_ext_iff_of_nodup m.nodup_keys n.nodup_keys).mpr h
  refine hperm.eq_of_pairwise (fun a b _ _ hab hba => ?_) (hascending m) (hascending n)
  exact absurd (Std.lt_trans hab hba) Std.lt_irrefl

end SortedMap

namespace TxMap

/-! ### Collecting transactions -/

/-- Puts transactions under their own hashes, one by one. -/
def insertAll (m : TxMap) (ts : List Transaction) : TxMap := ts.foldl (fun m t => m.insert t.hash t) m

theorem ofTransactions_eq_insertAll (ts : List Transaction) :
    ofTransactions ts = insertAll .empty ts := by
  rw [ofTransactions, SortedMap.ofList, List.foldl_map]
  rfl

theorem find?_hash_eq_some_iff {ts : List Transaction} (h : (ts.map (·.hash)).Nodup) {k : Digest}
    {t : Transaction} : ts.find? (·.hash = k) = some t ↔ t ∈ ts ∧ t.hash = k := by
  constructor
  · intro hf
    exact ⟨List.mem_of_find?_eq_some hf, by simpa using List.find?_some hf⟩
  · rintro ⟨ht, rfl⟩
    cases hf : ts.find? (·.hash = t.hash) with
    | none => simpa using List.find?_eq_none.mp hf t ht
    | some s =>
      have hs : s.hash = t.hash := by simpa using List.find?_some hf
      rw [List.inj_on_of_nodup_map h (List.mem_of_find?_eq_some hf) ht hs]

theorem get?_insertAll {ts : List Transaction} (h : (ts.map (·.hash)).Nodup) (m : TxMap) (k : Digest) :
    (insertAll m ts).get? k = (ts.find? (·.hash = k)).or (m.get? k) := by
  induction ts generalizing m with
  | nil => simp [insertAll]
  | cons t ts ih =>
    obtain ⟨ht, hts⟩ := List.nodup_cons.mp h
    have hstep : insertAll m (t :: ts) = insertAll (m.insert t.hash t) ts := rfl
    rw [hstep, ih hts, SortedMap.get?_insert]
    by_cases hk : t.hash = k
    · subst hk
      have hnone : ts.find? (·.hash = t.hash) = none := by
        rw [List.find?_eq_none]
        intro s hs heq
        exact ht (List.mem_map.mpr ⟨s, hs, by simpa using heq⟩)
      simp [hnone]
    · simp [hk, Ne.symm hk]

theorem mem_keys_insertAll {ts : List Transaction} {m : TxMap} {k : Digest} :
    k ∈ (insertAll m ts).keys ↔ k ∈ m.keys ∨ k ∈ ts.map (·.hash) := by
  induction ts generalizing m with
  | nil => simp [insertAll]
  | cons t ts ih =>
    have hstep : insertAll m (t :: ts) = insertAll (m.insert t.hash t) ts := rfl
    rw [hstep, ih, SortedMap.mem_keys_insert, List.map_cons, List.mem_cons, or_assoc]

/-- The keys are the hashes of the transactions, also if some of them share one. -/
theorem mem_keys_ofTransactions {ts : List Transaction} {k : Digest} :
    k ∈ (ofTransactions ts).keys ↔ k ∈ ts.map (·.hash) := by
  rw [ofTransactions_eq_insertAll, mem_keys_insertAll]
  exact or_iff_right List.not_mem_nil

/-- **No hash is shared** just if the map has as many entries as there are transactions. -/
theorem nodup_iff_size_ofTransactions {ts : List Transaction} :
    (ts.map (·.hash)).Nodup ↔ (ofTransactions ts).size = ts.length := by
  rw [nodup_iff_length_eq (SortedMap.nodup_keys _) fun _ => mem_keys_ofTransactions, SortedMap.length_keys,
    List.length_map]

/-- Among transactions with different hashes the one with a given hash is looked up. -/
theorem get?_ofTransactions_eq_some_iff {ts : List Transaction} (h : (ts.map (·.hash)).Nodup) {k : Digest}
    {t : Transaction} : (ofTransactions ts).get? k = some t ↔ t ∈ ts ∧ t.hash = k := by
  rw [ofTransactions_eq_insertAll, get?_insertAll h, SortedMap.get?_empty, Option.or_none,
    find?_hash_eq_some_iff h]

theorem keys_ofTransactions_perm {ts : List Transaction} (h : (ts.map (·.hash)).Nodup) :
    (ofTransactions ts).keys.Perm (ts.map (·.hash)) :=
  (List.perm_ext_iff_of_nodup (SortedMap.nodup_keys _) h).mpr fun _ => mem_keys_ofTransactions

/-! ### Keyed maps -/

/-- In a keyed map the keys are the hashes of the transactions. -/
theorem Keyed.map_hash_values {m : TxMap} (h : m.Keyed) : m.values.map (·.hash) = m.keys := by
  rw [SortedMap.values, SortedMap.keys, List.map_map]
  exact List.map_congr_left fun e he => (h e he).symm

theorem Keyed.nodup_map_hash {m : TxMap} (h : m.Keyed) {ts : List Transaction} (hp : ts.Perm m.values) :
    (ts.map (·.hash)).Nodup := by
  rw [(hp.map _).nodup_iff, h.map_hash_values]
  exact m.nodup_keys

theorem Keyed.get?_eq_some_iff {m : TxMap} (h : m.Keyed) {k : Digest} {t : Transaction} :
    m.get? k = some t ↔ t ∈ m.values ∧ t.hash = k := by
  rw [SortedMap.get?_eq_some_iff, SortedMap.values, List.mem_map]
  constructor
  · intro he
    exact ⟨⟨(k, t), he, rfl⟩, (h _ he).symm⟩
  · rintro ⟨⟨e, he, rfl⟩, hk⟩
    rwa [← hk, ← h e he]

/-- A keyed map comes back from its transactions in any order. -/
theorem Keyed.ofTransactions_of_perm {m : TxMap} (h : m.Keyed) {ts : List Transaction}
    (hp : ts.Perm m.values) : ofTransactions ts = m := by
  refine SortedMap.ext_get? fun k => Option.ext fun t => ?_
  rw [get?_ofTransactions_eq_some_iff (h.nodup_map_hash hp), h.get?_eq_some_iff, hp.mem_iff]

/-- Transactions with different hashes are all there once. -/
theorem values_ofTransactions_perm {ts : List Transaction} (h : (ts.map (·.hash)).Nodup) :
    (ofTransactions ts).values.Perm ts := by
  have hkeyed := keyed_ofTransactions ts
  refine (List.perm_ext_iff_of_nodup (hkeyed.nodup_map_hash (.refl _)).of_map h.of_map).mpr fun t => ?_
  have hvalue : t ∈ (ofTransactions ts).values ↔ (ofTransactions ts).get? t.hash = some t := by
    rw [hkeyed.get?_eq_some_iff, and_iff_left rfl]
  rw [hvalue, get?_ofTransactions_eq_some_iff h, and_iff_left rfl]

/-! ### Order of the transactions -/

/-- The number of entries does not depend on the order. -/
theorem size_ofTransactions_of_perm {ts us : List Transaction} (h : ts.Perm us) :
    (ofTransactions ts).size = (ofTransactions us).size := by
  have hkeys : (ofTransactions ts).keys = (ofTransactions us).keys := SortedMap.keys_eq_iff.mpr fun k => by
    rw [mem_keys_ofTransactions, mem_keys_ofTransactions, (h.map _).mem_iff]
  rw [← SortedMap.length_keys, hkeys, SortedMap.length_keys]

/-- Nor does the map, if no hash is shared: else the last one of those that share it stays. -/
theorem ofTransactions_eq_of_perm {ts us : List Transaction} (h : ts.Perm us) (hnodup : (ts.map (·.hash)).Nodup) :
    ofTransactions ts = ofTransactions us :=
  (keyed_ofTransactions us).ofTransactions_of_perm
    (h.trans (values_ofTransactions_perm ((h.map _).nodup_iff.mp hnodup)).symm)

end TxMap

end ReplicatedLedger
