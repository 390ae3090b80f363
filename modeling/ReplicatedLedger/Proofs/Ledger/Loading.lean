import ReplicatedLedger.Proofs.Ledger.Refinement
import ReplicatedLedger.Proofs.Ledger.Window
import ReplicatedLedger.Proofs.Store.Spellings

/-! # What is loaded

A ledger is loaded from the list of heights, and what it loads can be said without the list: the block at the
greatest height that can be read, and below it the blocks that fill the budget downwards (`Window.Maximal`). They
end at the first height at which no block can be read or the block is too large (`Fills`). In a directory of
canonical names the list is strictly ascending and misses no height that can be read, so that the loop over the list
stops exactly there (`fills_loadBelow`, `maximal_of_loadFrom`). There is one window of this kind if any block can be
read, and loading a store with block files finds it, or else fails because none can be read (`load_maximal`). -/

namespace ReplicatedLedger

/-! ### Directories of block files -/

namespace Store

variable {s : Store} {hs : List UInt64}

/-- Some file of the directory counts for a height. -/
def Listed (s : Store) : Prop :=
  ∃ names, s.dir.names = .ok names ∧ ∃ name ∈ names, (s.naming.height? name).isSome

/-- The names in the directory are no paths, and those that count for a height are canonical. -/
structure Tidy (s : Store) : Prop where
  slashless : ∀ names, s.dir.names = .ok names → ∀ name ∈ names, '/' ∉ name.toList
  canonical : ∀ names, s.dir.names = .ok names → s.naming.Canonical names

theorem exists_names_of_heights (h : s.heights = .ok hs) :
    ∃ names, s.dir.names = .ok names ∧ hs = (names.filterMap s.naming.height?).mergeSort (· ≤ ·) := by
  unfold heights at h
  split at h
  · cases h
  · rename_i names hnames
    exact ⟨names, hnames, (Except.ok.inj h).symm⟩

theorem listed_iff : s.Listed ↔ ∃ hs, s.heights = .ok hs ∧ hs ≠ [] := by
  constructor
  · rintro ⟨names, hnames, name, hmem, hname⟩
    obtain ⟨height, hheight⟩ := Option.isSome_iff_exists.mp hname
    refine ⟨_, by rw [heights, hnames], List.ne_nil_of_mem (a := height) ?_⟩
    exact List.mem_mergeSort.mpr (List.mem_filterMap.mpr ⟨name, hmem, hheight⟩)
  · rintro ⟨hs, hheights, hne⟩
    obtain ⟨names, hnames, rfl⟩ := exists_names_of_heights hheights
    obtain ⟨height, hheight⟩ := List.exists_mem_of_ne_nil _ hne
    obtain ⟨name, hmem, hname⟩ := List.mem_filterMap.mp (List.mem_mergeSort.mp hheight)
    exact ⟨names, hnames, name, hmem, Option.isSome_of_eq_some hname⟩

/-- A directory that is listed is opened as it is. -/
theorem openIn_of_names {naming : Naming} {dir : Directory} {names : List String} (h : dir.names = .ok names) :
    openIn naming dir = .ok ⟨naming, dir⟩ := by
  rw [openIn, Directory.ensure, Directory.folder_of_names h]

/-- Where a file counts for a height no part of the file names has a slash. -/
theorem Tidy.flat (h : s.Tidy) (hlisted : s.Listed) : s.naming.Flat := by
  obtain ⟨names, hnames, name, hmem, hname⟩ := hlisted
  obtain ⟨height, hheight⟩ := Option.isSome_iff_exists.mp hname
  obtain ⟨zeros, rfl⟩ := Naming.height?_eq_some_iff.mp hheight
  exact Naming.flat_of_spelling (h.slashless names hnames _ hmem)

theorem Tidy.pairwise_lt (h : s.Tidy) (hheights : s.heights = .ok hs) : hs.Pairwise (· < ·) := by
  obtain ⟨names, hnames, -⟩ := exists_names_of_heights hheights
  exact pairwise_lt_heights (h.canonical names hnames) hnames hheights

end Store

namespace Ledger

variable {s s' : Store} {budget n size : Nat} {w w' : Window} {bs bs' : List Block} {hs : List UInt64}

/-! ### Windows that fill the budget -/

/-- The blocks that fill a budget from below the height `n` downwards, when `size` bytes are taken already: each
height in turn, up to the first one at which no block can be read or the block is too large. -/
inductive Fills (s : Store) (budget : Nat) : Nat → Nat → List Block → Prop
  /-- There is no height left. -/
  | bottom {size : Nat} : Fills s budget 0 size []
  /-- The file is missing, or it holds no block of this height. -/
  | unreadable {n size : Nat} (h : s.readable n.toUInt64 = none) : Fills s budget (n + 1) size []
  /-- The block exceeds the budget. -/
  | exceeding {n size : Nat} {b : Block} (h : s.readable n.toUInt64 = some b) (hsize : budget < size + b.size) :
      Fills s budget (n + 1) size []
  | next {n size : Nat} {b : Block} {bs : List Block} (h : s.readable n.toUInt64 = some b)
      (hsize : size + b.size ≤ budget) (hbelow : Fills s budget n (size + b.size) bs) :
      Fills s budget (n + 1) size (b :: bs)

/-- The block at the greatest height that can be read, and below it blocks that fill the budget. -/
structure Window.Maximal (s : Store) (budget : Nat) (w : Window) : Prop where
  tip : s.readable w.tip.height = some w.tip
  highest : ∀ height, (s.readable height).isSome → height ≤ w.tip.height
  older : Fills s budget w.tip.height.toNat w.tip.size w.older
  memory : w.memory = bytes w.blocks

/-- **A budget is filled in one way.** -/
theorem Fills.unique (h : Fills s budget n size bs) (h' : Fills s budget n size bs') : bs = bs' := by
  induction h generalizing bs' with
  | bottom => cases h' with | bottom => rfl
  | unreadable hnone =>
    cases h' with
    | unreadable => rfl
    | exceeding => rfl
    | next hsome => exact absurd (hnone.symm.trans hsome) (Option.some_ne_none _).symm
  | exceeding hsome hlarge =>
    cases h' with
    | unreadable => rfl
    | exceeding => rfl
    | next hsome' hsmall =>
      obtain rfl := Option.some.inj (hsome.symm.trans hsome')
      omega
  | next hsome hsmall _ ih =>
    cases h' with
    | unreadable hnone => exact absurd (hnone.symm.trans hsome) (Option.some_ne_none _).symm
    | exceeding hsome' hlarge =>
      obtain rfl := Option.some.inj (hsome.symm.trans hsome')
      omega
    | next hsome' _ hbelow =>
      obtain rfl := Option.some.inj (hsome.symm.trans hsome')
      rw [ih hbelow]

/-- **There is one window of this kind** at most. -/
theorem Window.Maximal.unique (h : w.Maximal s budget) (h' : w'.Maximal s budget) : w = w' := by
  have hheight : w.tip.height = w'.tip.height := UInt64.le_antisymm
    (h'.highest _ (Option.isSome_of_eq_some h.tip)) (h.highest _ (Option.isSome_of_eq_some h'.tip))
  have htip : w.tip = w'.tip := Option.some.inj (h.tip.symm.trans (hheight ▸ h'.tip))
  have holder : w.older = w'.older := h.older.unique (htip ▸ h'.older)
  have hmemory : w.memory = w'.memory := by
    rw [h.memory, h'.memory, Window.blocks, Window.blocks, htip, holder]
  cases w
  cases w'
  cases htip
  cases holder
  cases hmemory
  rfl

/-! ### Loading -/

/-- Nothing can be read right below a block if that height is not listed. -/
theorem unreadable_below {lowest : Block} (hcomplete : ∀ k < lowest.height, (s.readable k).isSome → k ∈ hs)
    (hn : lowest.height.toNat = n + 1) (hnot : ∀ k ∈ hs, k.toNat ≠ n) : s.readable n.toUInt64 = none := by
  have hnat : n.toUInt64.toNat = n := toNat_toUInt64_of_le (by omega : n ≤ lowest.height.toNat)
  by_contra hsome
  have hlt : n.toUInt64 < lowest.height := UInt64.lt_iff_toNat_lt.mpr (by omega)
  exact hnot _ (hcomplete _ hlt (Option.isSome_iff_ne_none.mpr hsome)) hnat

/-- **What is loaded below a block** fills the budget, if the heights that are left stand below it, strictly
descending, and none is missing at which a block can be read. -/
theorem fills_loadBelow (s : Store) (budget : Nat) (lowest : Block) (size : Nat) (hs : List UInt64)
    (hdescending : hs.Pairwise (· > ·)) (hbelow : ∀ k ∈ hs, k < lowest.height)
    (hcomplete : ∀ k < lowest.height, (s.readable k).isSome → k ∈ hs) :
    Fills s budget lowest.height.toNat size (loadBelow s budget lowest size hs).1 := by
  induction hs generalizing lowest size with
  | nil =>
    rcases hn : lowest.height.toNat with _ | n
    · exact .bottom
    · exact .unreadable (unreadable_below hcomplete hn fun k hk => absurd hk List.not_mem_nil)
  | cons h hs ih =>
    obtain ⟨hfirst, hrest⟩ := List.pairwise_cons.mp hdescending
    have hlt := UInt64.lt_iff_toNat_lt.mp (hbelow h List.mem_cons_self)
    obtain ⟨n, hn⟩ : ∃ n, lowest.height.toNat = n + 1 := ⟨lowest.height.toNat - 1, by omega⟩
    rw [hn, loadBelow]
    split
    · -- a gap: the next height is not listed
      rename_i hgap
      refine .unreadable (unreadable_below hcomplete hn fun k hk => ?_)
      rcases List.mem_cons.mp hk with rfl | hk
      · omega
      · have := UInt64.lt_iff_toNat_lt.mp (hfirst k hk)
        omega
    · rename_i hnext
      have hheight : n.toUInt64 = h := by
        have hnat : h.toNat = n := by omega
        exact hnat ▸ UInt64.ofNat_toNat
      cases hread : s.read h with
      | error e =>
        refine .unreadable ?_
        rw [hheight, Store.readable, hread]
        rfl
      | ok b =>
        have hsome : s.readable n.toUInt64 = some b := hheight ▸ Store.readable_eq_some_iff.mpr hread
        dsimp only
        split
        · rename_i hlarge
          exact .exceeding hsome hlarge
        · rename_i hroom
          have hb : b.height = h := hheight ▸ Store.height_of_readable hsome
          have hbn : b.height.toNat = n := by
            rw [hb]
            omega
          refine .next hsome (Nat.le_of_not_gt hroom) ?_
          rw [← hbn]
          refine ih b (size + b.size) hrest (fun k hk => hb ▸ hfirst k hk) fun k hk hk' => ?_
          -- the height was listed, and not first, since it is below
          have hmem := hcomplete k (UInt64.lt_trans hk (hb ▸ hbelow h List.mem_cons_self)) hk'
          rcases List.mem_cons.mp hmem with rfl | hmem
          · exact absurd (hb ▸ hk) (UInt64.lt_irrefl _)
          · exact hmem

/-- **A window that is loaded** from strictly descending heights is maximal, if none is missing at which a block
can be read. -/
theorem maximal_of_loadFrom (hdescending : hs.Pairwise (· > ·)) (hcomplete : ∀ k, (s.readable k).isSome → k ∈ hs)
    (h : loadFrom s budget hs = some w) : w.Maximal s budget := by
  induction hs with
  | nil => cases h
  | cons height hs ih =>
    obtain ⟨hfirst, hrest⟩ := List.pairwise_cons.mp hdescending
    unfold loadFrom at h
    cases hread : s.read height with
    | error e =>
      refine ih hrest (fun k hk => (List.mem_cons.mp (hcomplete k hk)).resolve_left ?_) (by simpa [hread] using h)
      rintro rfl
      rw [Store.readable, hread] at hk
      cases hk
    | ok tip =>
      rw [hread] at h
      cases h
      have hsome := Store.readable_eq_some_iff.mpr hread
      have hheight : tip.height = height := Store.height_of_readable hsome
      refine ⟨hheight ▸ hsome, fun k hk => ?_, ?_, (loaded_below s budget tip tip.size hs).2.1⟩
      · rcases List.mem_cons.mp (hcomplete k hk) with rfl | hmem
        · exact hheight ▸ UInt64.le_refl _
        · exact hheight ▸ UInt64.le_of_lt (hfirst k hmem)
      · refine fills_loadBelow s budget tip tip.size hs hrest (fun k hk => hheight ▸ hfirst k hk) fun k hk hk' => ?_
        rcases List.mem_cons.mp (hcomplete k hk') with rfl | hmem
        · exact absurd (hheight ▸ hk) (UInt64.lt_irrefl _)
        · exact hmem

theorem loadFrom_eq_none_iff : loadFrom s budget hs = none ↔ ∀ k ∈ hs, s.readable k = none := by
  rw [← Option.map_eq_none_iff (f := fun w : Window => w.tip.height), tipHeight_loadFrom, List.find?_eq_none]
  simp only [Bool.not_eq_true, Option.isSome_eq_false_iff, Option.isNone_iff_eq_none]

theorem load_of_heights (hheights : s.heights = .ok hs) (hne : hs ≠ []) :
    load s budget = ((loadFrom s budget hs.reverse).elim (.error .noReadableBlock) .ok, s) := by
  obtain ⟨k, hs, rfl⟩ := List.exists_cons_of_ne_nil hne
  simp only [load, hheights]
  cases loadFrom s budget (k :: hs).reverse <;> simp only [Option.elim_none, Option.elim_some]

/-- **Loading succeeds** with the maximal window, where block files are listed. -/
theorem load_eq_ok_iff (htidy : s.Tidy) (hlisted : s.Listed) :
    load s budget = (.ok w, s') ↔ s' = s ∧ w.Maximal s budget := by
  obtain ⟨hs, hheights, hne⟩ := Store.listed_iff.mp hlisted
  have hdescending : hs.reverse.Pairwise (· > ·) := List.pairwise_reverse.mpr (htidy.pairwise_lt hheights)
  have hcomplete : ∀ k, (s.readable k).isSome → k ∈ hs.reverse := fun k hk => by
    obtain ⟨hs', hheights', hmem⟩ := Store.mem_heights_of_readable (htidy.flat hlisted) hk
    obtain rfl := Except.ok.inj (hheights.symm.trans hheights')
    exact List.mem_reverse.mpr hmem
  rw [load_of_heights hheights hne]
  cases hload : loadFrom s budget hs.reverse with
  | none =>
    refine iff_of_false (fun h => nomatch h) fun h => ?_
    have hnone := loadFrom_eq_none_iff.mp hload _ (hcomplete _ (Option.isSome_of_eq_some h.2.tip))
    exact Option.some_ne_none _ (h.2.tip.symm.trans hnone)
  | some v =>
    have hmaximal := maximal_of_loadFrom hdescending hcomplete hload
    constructor
    · rintro h
      cases h
      exact ⟨rfl, hmaximal⟩
    · rintro ⟨rfl, hw⟩
      simp only [Option.elim_some, hmaximal.unique hw]

/-- **Loading fails for want of a readable block** when block files are listed and none can be read. -/
theorem load_eq_noReadableBlock_iff (htidy : s.Tidy) :
    (load s budget).1 = .error .noReadableBlock ↔ s.Listed ∧ ∀ height, s.readable height = none := by
  constructor
  · intro h
    unfold load at h
    split at h
    · cases h
    · split at h <;> cases h
    · rename_i hs hne hheights
      have hlisted : s.Listed := Store.listed_iff.mpr ⟨hs, hheights, hne⟩
      refine ⟨hlisted, fun height => ?_⟩
      split at h
      · rename_i hload
        by_contra hsome
        obtain ⟨hs', hheights', hmem⟩ :=
          Store.mem_heights_of_readable (htidy.flat hlisted) (Option.isSome_iff_ne_none.mpr hsome)
        obtain rfl := Except.ok.inj (hheights.symm.trans hheights')
        exact hsome (loadFrom_eq_none_iff.mp hload height (List.mem_reverse.mpr hmem))
      · cases h
  · rintro ⟨hlisted, hnone⟩
    obtain ⟨hs, hheights, hne⟩ := Store.listed_iff.mp hlisted
    have hload : loadFrom s budget hs.reverse = none := loadFrom_eq_none_iff.mpr fun k _ => hnone k
    simp only [load_of_heights hheights hne, hload, Option.elim_none]

/-! ### Opening and reloading -/

section

variable {naming : Store.Naming} {dir dir' : Directory} {l m : Ledger} {e : LedgerError}

theorem openIn_eq_ok_iff (hopen : Store.openIn naming dir = .ok s) :
    openIn naming budget dir = (.ok l, dir') ↔
      dir' = l.store.dir ∧ l.budget = budget ∧ load s budget = (.ok l.window, l.store) := by
  obtain ⟨store, window, budget'⟩ := l
  simp only [openIn, hopen]
  rcases load s budget with ⟨_ | w, s'⟩
  · simp
  · simp only [Prod.mk.injEq, Except.ok.injEq, Ledger.mk.injEq]
    constructor
    · rintro ⟨⟨rfl, rfl, rfl⟩, rfl⟩
      exact ⟨rfl, rfl, rfl, rfl⟩
    · rintro ⟨rfl, rfl, rfl, rfl⟩
      exact ⟨⟨rfl, rfl, rfl⟩, rfl⟩

theorem openIn_eq_error_iff (hopen : Store.openIn naming dir = .ok s) :
    (openIn naming budget dir).1 = .error e ↔ (load s budget).1 = .error e := by
  simp only [openIn, hopen]
  rcases load s budget with ⟨_ | w, s'⟩ <;> simp

theorem reload_eq_ok_iff :
    l.reload = (.ok (), m) ↔ m.budget = l.budget ∧ load l.store l.budget = (.ok m.window, m.store) := by
  obtain ⟨store, window, budget'⟩ := m
  rw [reload]
  rcases load l.store l.budget with ⟨_ | w, s'⟩
  · simp
  · simp only [Prod.mk.injEq, Except.ok.injEq, Ledger.mk.injEq, true_and]
    constructor
    · rintro ⟨rfl, rfl, rfl⟩
      exact ⟨rfl, rfl, rfl⟩
    · rintro ⟨rfl, rfl, rfl⟩
      exact ⟨rfl, rfl, rfl⟩

theorem reload_eq_error_iff : l.reload.1 = .error e ↔ (load l.store l.budget).1 = .error e := by
  rw [reload]
  rcases load l.store l.budget with ⟨_ | w, s'⟩ <;> simp

end

/-- **What opening and reloading load.** Where block files are listed, a ledger opens, or is loaded anew, exactly with
the maximal window over its store, and there is one if any block can be read. Both fail for want of a readable block
exactly if block files are listed and none can be read. -/
theorem load_maximal (htidy : s.Tidy) :
    (s.Listed →
      (∀ naming dir budget l dir', Store.openIn naming dir = .ok s →
        (openIn naming budget dir = (.ok l, dir') ↔
          dir' = s.dir ∧ l.store = s ∧ l.budget = budget ∧ l.window.Maximal s budget)) ∧
      (∀ l m : Ledger, l.store = s →
        (l.reload = (.ok (), m) ↔ m.store = s ∧ m.budget = l.budget ∧ m.window.Maximal s l.budget)) ∧
      ∀ budget height, (s.readable height).isSome → ∃ w : Window, w.Maximal s budget) ∧
    (∀ naming dir budget, Store.openIn naming dir = .ok s →
      ((openIn naming budget dir).1 = .error .noReadableBlock ↔
        s.Listed ∧ ∀ height, s.readable height = none)) ∧
    ∀ l : Ledger, l.store = s →
      (l.reload.1 = .error .noReadableBlock ↔ s.Listed ∧ ∀ height, s.readable height = none) := by
  refine ⟨fun hlisted => ⟨fun naming dir budget l dir' hopen => ?_, fun l m hl => ?_, fun budget height hsome => ?_⟩,
    fun naming dir budget hopen => ?_, fun l hl => ?_⟩
  · rw [openIn_eq_ok_iff hopen, load_eq_ok_iff htidy hlisted]
    constructor
    · rintro ⟨hdir, hbudget, hstore, hmaximal⟩
      exact ⟨hstore ▸ hdir, hstore, hbudget, hmaximal⟩
    · rintro ⟨hdir, hstore, hbudget, hmaximal⟩
      exact ⟨hstore ▸ hdir, hbudget, hstore, hmaximal⟩
  · obtain rfl := hl
    rw [reload_eq_ok_iff, load_eq_ok_iff htidy hlisted, and_left_comm]
  · obtain ⟨top, htop⟩ := Store.exists_top? (htidy.flat hlisted) hsome
    obtain ⟨w, hload⟩ := exists_load_of_top? htop budget
    exact ⟨w, ((load_eq_ok_iff htidy hlisted).mp hload).2⟩
  · rw [openIn_eq_error_iff hopen, load_eq_noReadableBlock_iff htidy]
  · obtain rfl := hl
    rw [reload_eq_error_iff, load_eq_noReadableBlock_iff htidy]

/-- A store of three blocks, over a gap and a file that holds none. -/
def patchy : Store := ⟨.standard, .ofFiles [("block_0.blk", Block.Record.encode .genesis),
  ("block_1.blk", Block.Record.encode (.raised 1)), ("block_2.blk", Block.Record.encode (.raised 2)),
  ("block_4.blk", [])]⟩

theorem names_patchy :
    patchy.dir.names = .ok ["block_0.blk", "block_1.blk", "block_2.blk", "block_4.blk"] := by decide +kernel

theorem tidy_patchy : patchy.Tidy where
  slashless names hnames := by
    obtain rfl := Except.ok.inj (names_patchy.symm.trans hnames)
    decide
  canonical names hnames := by
    obtain rfl := Except.ok.inj (names_patchy.symm.trans hnames)
    decide +kernel

/-- With memory for exactly two blocks the first one is not loaded. -/
theorem load_maximal_patchy : patchy.Listed ∧
    openIn .standard 144 patchy.dir = (.ok ⟨patchy, ⟨.raised 2, [.raised 1], 144⟩, 144⟩, patchy.dir) := by
  have hlisted : patchy.Listed := ⟨_, names_patchy, "block_4.blk", by decide, by decide +kernel⟩
  have hopen : Store.openIn .standard patchy.dir = .ok patchy := Store.openIn_of_names names_patchy
  have hheights : patchy.heights = .ok [0, 1, 2, 4] :=
    Store.heights_of_pairwise names_patchy (by decide +kernel) (by decide)
  have hzero : patchy.readable 0 = some .genesis := Store.readable_of_content? fits_genesis (by decide +kernel)
  have hone : patchy.readable 1 = some (.raised 1) :=
    Store.readable_of_content? (Block.fits_raised 1) (by decide +kernel)
  have htwo : patchy.readable 2 = some (.raised 2) :=
    Store.readable_of_content? (Block.fits_raised 2) (by decide +kernel)
  refine ⟨hlisted, (((load_maximal tidy_patchy).1 hlisted).1 _ _ _ _ _ hopen).mpr ⟨rfl, rfl, rfl, ?_⟩⟩
  refine ⟨htwo, fun height hsome => ?_, .next hone (by decide +kernel) (.exceeding hzero (by decide +kernel)),
    by decide +kernel⟩
  obtain ⟨hs, hhs, hmem⟩ := Store.mem_heights_of_readable (tidy_patchy.flat hlisted) hsome
  obtain rfl := Except.ok.inj (hheights.symm.trans hhs)
  simp only [List.mem_cons, List.not_mem_nil, or_false] at hmem
  rcases hmem with rfl | rfl | rfl | rfl
  · decide
  · decide
  · decide
  · -- the file at height 4 holds no record
    exact absurd hsome (by decide +kernel)

end Ledger

end ReplicatedLedger
