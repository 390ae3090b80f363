import ReplicatedLedger.Proofs.Ledger.Search
import ReplicatedLedger.Proofs.Store.Listing

/-! # A ledger is its store

A ledger answers from memory and from its store. Seen from outside it is the store alone: its tip is the greatest
height that can be read, and at every height it finds what is read there (`Mirrors`). A plain store that is asked
each time (`Machine.plain`) does the same and gives the same answers, over any use of both (`use_refines`,
`uses_refines`). The plain store has no budget, so nothing that a ledger does depends on its own
(`refines_store`). The names of the files have no slash here, since with one the files need not stand in the
directory that is listed when a ledger is opened. -/

namespace ReplicatedLedger

/-! ### The plain store -/

namespace Store

/-- The greatest height that can be read, of those with a file. -/
def top? (s : Store) : Option UInt64 :=
  s.heights.toOption.bind fun hs => hs.reverse.find? fun height => (s.readable height).isSome

/-- Opens the store in a directory. One without block files gets the first block, in any other one some block has
to be readable. -/
def setUp (naming : Naming) (dir : Directory) : Except LedgerError Store × Directory :=
  match openIn naming dir with
  | .error e => (.error (.store e), dir)
  | .ok s =>
    match s.heights with
    | .error e => (.error (.store e), s.dir)
    | .ok [] =>
      match s.write .genesis with
      | (.error e, s) => (.error (.genesis e), s.dir)
      | (.ok (), s) => (.ok s, s.dir)
    | .ok _ => (if s.top?.isSome then .ok s else .error .noReadableBlock, s.dir)

/-- Stores a block above all that can be read, and tells whether it could. -/
def append (s : Store) (b : Block) : Bool × Store :=
  if s.top?.any (b.height ≤ ·) then (false, s) else ((s.write b).1.isOk, (s.write b).2)

variable {s s' : Store} {height : UInt64}

theorem readable_of_top? (h : s.top? = some height) : (s.readable height).isSome := by
  obtain ⟨hs, -, hfind⟩ := Option.bind_eq_some_iff.mp h
  exact List.find?_some (p := fun k => (s.readable k).isSome) hfind

/-- Without slashes in the file names the top is above all that can be read. -/
theorem le_top? (hflat : s.naming.Flat) (h : s.top? = some height) {k : UInt64} (hk : (s.readable k).isSome) :
    k ≤ height := by
  obtain ⟨hs, hheights, hmem⟩ := mem_heights_of_readable hflat hk
  rw [top?, hheights] at h
  obtain ⟨-, above, below, hsplit, hunreadable⟩ := List.find?_eq_some_iff_append.mp h
  have hdescending : hs.reverse.Pairwise (· ≥ ·) := List.pairwise_reverse.mpr (pairwise_heights hheights)
  rw [hsplit] at hdescending
  have hk' : k ∈ above ++ height :: below := hsplit ▸ List.mem_reverse.mpr hmem
  rcases List.mem_append.mp hk' with habove | hbelow
  · exact absurd hk (by simpa using hunreadable k habove)
  · rcases List.mem_cons.mp hbelow with rfl | hbelow
    · exact UInt64.le_refl _
    · exact (List.pairwise_cons.mp (List.pairwise_append.mp hdescending).2.1).1 k hbelow

/-- Without slashes in the file names whatever can be read is below the top. -/
theorem exists_top? (hflat : s.naming.Flat) (h : (s.readable height).isSome) : ∃ top, s.top? = some top := by
  obtain ⟨hs, hheights, hmem⟩ := mem_heights_of_readable hflat h
  rw [← Option.isSome_iff_exists, top?, hheights]
  exact List.find?_isSome.mpr ⟨height, List.mem_reverse.mpr hmem, h⟩

theorem top?_eq_some_iff (hflat : s.naming.Flat) :
    s.top? = some height ↔ (s.readable height).isSome ∧ ∀ k, (s.readable k).isSome → k ≤ height := by
  refine ⟨fun h => ⟨readable_of_top? h, fun k hk => le_top? hflat h hk⟩, fun ⟨hheight, hgreatest⟩ => ?_⟩
  obtain ⟨k, htop⟩ := exists_top? hflat hheight
  have hle : k ≤ height := hgreatest k (readable_of_top? htop)
  exact htop.trans (congrArg some (UInt64.le_antisymm hle (le_top? hflat htop hheight)))

end Store

namespace Ledger

variable {l m : Ledger} {b : Block} {s s' : Store} {w : Window} {budget : Nat}

/-! ### What a ledger tells -/

/-- What a ledger tells is what its store reads. -/
structure Mirrors (l : Ledger) : Prop where
  tip : l.store.readable l.tipHeight = some l.tip
  highest : ∀ height, (l.store.readable height).isSome → height ≤ l.tipHeight
  below : ∀ height ≤ l.tipHeight, l.block? height = l.store.readable height
  above : ∀ height > l.tipHeight, l.block? height = none

/-- The window is part of what the store holds, and nothing in the store is above it. -/
structure Faithful (l : Ledger) : Prop where
  flat : l.store.naming.Flat
  coherent : l.Coherent
  top : l.store.top? = some l.tipHeight

theorem Faithful.mirrors (h : l.Faithful) : l.Mirrors where
  tip := h.coherent.stored l.tip List.mem_cons_self
  highest := fun _ hk => Store.le_top? h.flat h.top hk
  below := fun _ hle => h.coherent.block?_eq hle
  above := fun _ hlt => if_pos hlt

/-- Both ledgers answer alike. -/
structure Agrees (l m : Ledger) : Prop where
  tip : l.tip = m.tip
  block? : ∀ height, l.block? height = m.block? height
  isChainValid : l.isChainValid = m.isChainValid
  findTransaction : ∀ hash, l.findTransaction hash = m.findTransaction hash

theorem linkedFrom_congr (h : ∀ height, l.block? height = m.block? height) (n : Nat) (b : Block) :
    l.linkedFrom n b = m.linkedFrom n b := by
  induction n generalizing b with
  | zero => rfl
  | succ n ih => simp only [linkedFrom, h, ih]

/-- Ledgers that mirror the same store answer alike. -/
theorem Mirrors.agrees (hl : l.Mirrors) (hm : m.Mirrors) (hstore : l.store = m.store) : l.Agrees m := by
  have hheight : l.tipHeight = m.tipHeight := UInt64.le_antisymm
    (hm.highest _ (by rw [← hstore, hl.tip]; rfl)) (hl.highest _ (by rw [hstore, hm.tip]; rfl))
  have htip : l.tip = m.tip := Option.some.inj (hl.tip.symm.trans (by rw [hstore, hheight, hm.tip]))
  have hblock : ∀ height, l.block? height = m.block? height := by
    intro height
    by_cases hle : height ≤ l.tipHeight
    · rw [hl.below height hle, hm.below height (hheight ▸ hle), hstore]
    · have hlt : height > l.tipHeight := UInt64.not_le.mp hle
      rw [hl.above height hlt, hm.above height (hheight ▸ hlt)]
  refine ⟨htip, hblock, ?_, fun hash => ?_⟩
  · rw [isChainValid, isChainValid, hheight, htip]
    exact linkedFrom_congr hblock _ _
  · rw [findTransaction, findTransaction, hheight]
    exact findFrom_congr hash fun _ _ => hblock _

/-! ### Opening -/

/-- The first block that is loaded has the first height that can be read. -/
theorem tipHeight_loadFrom (s : Store) (budget : Nat) (hs : List UInt64) :
    (loadFrom s budget hs).map (·.tip.height) = hs.find? fun height => (s.readable height).isSome := by
  induction hs with
  | nil => rfl
  | cons height hs ih =>
    cases hread : s.read height with
    | error e =>
      have hnone : (s.readable height).isSome = false := by rw [Store.readable, hread]; rfl
      rw [loadFrom, hread, List.find?_cons_of_neg (by rw [hnone]; decide)]
      exact ih
    | ok tip =>
      have hsome := Store.readable_eq_some_iff.mpr hread
      rw [loadFrom, hread, List.find?_cons_of_pos (by rw [hsome]; rfl)]
      exact congrArg some (Store.height_of_readable hsome)

theorem top?_eq_loadFrom {hs : List UInt64} (h : s.heights = .ok hs) (budget : Nat) :
    s.top? = (loadFrom s budget hs.reverse).map (·.tip.height) := by
  rw [tipHeight_loadFrom, Store.top?, h]
  rfl

/-- A loaded window is that of a faithful ledger. -/
theorem faithful_of_load (hflat : s.naming.Flat) (h : load s budget = (.ok w, s')) :
    Faithful ⟨s', w, budget⟩ := by
  obtain ⟨hnaming, hcoherent⟩ := coherent_of_load h
  refine ⟨hnaming ▸ hflat, hcoherent, ?_⟩
  unfold load at h
  split at h
  · cases h
  · -- without a file nothing was readable, and then the first block is
    rename_i hheights
    have hnone : ∀ k, s.readable k = none := by
      intro k
      by_contra hsome
      obtain ⟨hs, hhs, hmem⟩ := Store.mem_heights_of_readable hflat (Option.isSome_iff_ne_none.mpr hsome)
      rw [hheights] at hhs
      cases hhs
      cases hmem
    split at h
    · cases h
    · rename_i hw
      have hok : (s.write .genesis).1 = .ok () := congrArg Prod.fst hw
      obtain rfl : (s.write .genesis).2 = s' := (congrArg Prod.snd hw).trans (congrArg Prod.snd h)
      obtain rfl : (⟨.genesis, [], Block.genesis.size⟩ : Window) = w := Except.ok.inj (congrArg Prod.fst h)
      refine (Store.top?_eq_some_iff (hnaming ▸ hflat)).mpr ⟨?_, fun k hk => ?_⟩
      · have hself := Store.readable_write_self fits_genesis hok
        exact Option.isSome_of_eq_some hself
      · by_cases hne : k = Block.genesis.height
        · exact hne ▸ UInt64.le_refl _
        · rw [Store.readable_write_of_apart (hflat.leadsOn.apart (Ne.symm hne)), hnone k] at hk
          cases hk
  · rename_i hs hne hheights
    split at h
    · cases h
    · rename_i hload
      cases h
      rw [top?_eq_loadFrom hheights budget, hload]
      rfl

/-- **Opening a ledger** is setting up its store. -/
theorem openIn_eq_setUp (naming : Store.Naming) (budget : Nat) (dir : Directory) :
    (openIn naming budget dir).map (·.map store) id = Store.setUp naming dir := by
  unfold openIn Store.setUp
  cases Store.openIn naming dir with
  | error e => rfl
  | ok s =>
    dsimp only [load]
    cases hheights : s.heights with
    | error e => rfl
    | ok hs =>
      cases hs with
      | nil =>
        dsimp only
        cases hw : s.write .genesis with
        | mk result s' => cases result <;> rfl
      | cons height hs =>
        dsimp only
        rw [top?_eq_loadFrom hheights budget]
        cases loadFrom s budget (height :: hs).reverse <;> rfl

theorem faithful_of_openIn {naming : Store.Naming} {dir dir' : Directory} (hflat : naming.Flat)
    (h : openIn naming budget dir = (.ok l, dir')) : l.Faithful := by
  unfold openIn at h
  split at h
  · cases h
  · rename_i s hopen
    have hnaming : s.naming = naming := by
      unfold Store.openIn at hopen
      split at hopen
      · cases hopen
      · cases hopen
        rfl
    split at h
    · cases h
    · rename_i hload
      cases h
      exact faithful_of_load (hnaming ▸ hflat) hload

/-! ### Adding and reloading -/

theorem top?_withVerdicts (s : Store) (vs : List Bool) : (s.withVerdicts vs).top? = s.top? := by
  simp only [Store.top?, Store.readable_withVerdicts]
  rfl

theorem Faithful.keeps (hl : l.Faithful) (h : l.Keeps m) : m.Faithful := by
  refine ⟨h.naming_eq ▸ hl.flat, hl.coherent.keeps h, ?_⟩
  obtain ⟨vs, rfl⟩ := h
  exact (top?_withVerdicts _ _).trans hl.top

/-- The store of a ledger that gains a block holds the block, and at all other heights what it held. -/
theorem Gains.readable_eq (h : l.Gains b m) (hon : l.store.naming.LeadsOn)
    (hfits : Wire.FitsSize (1 + b.encode.length)) (height : UInt64) :
    m.store.readable height = if height = b.height then some b else l.store.readable height := by
  by_cases heq : height = b.height
  · rw [if_pos heq, heq, h.readable_self hfits]
  · rw [if_neg heq, h.readable_of_ne hon heq]

theorem Faithful.gains (hl : l.Faithful) (h : l.Gains b m) (hfits : Wire.FitsSize (1 + b.encode.length)) :
    m.Faithful := by
  have hread := h.readable_eq hl.flat.leadsOn hfits
  have htip : m.tipHeight = b.height := congrArg Block.height h.tip_eq
  have hflat : m.store.naming.Flat := h.naming_eq ▸ hl.flat
  refine ⟨hflat, hl.coherent.gains h hl.flat.leadsOn hfits, ?_⟩
  refine (Store.top?_eq_some_iff hflat).mpr ⟨by rw [hread, htip, if_pos rfl]; rfl, fun k hk => ?_⟩
  rw [htip]
  by_cases heq : k = b.height
  · exact heq ▸ UInt64.le_refl _
  · rw [hread, if_neg heq] at hk
    exact UInt64.le_of_lt (UInt64.lt_of_le_of_lt (hl.mirrors.highest k hk) h.lt)

theorem Faithful.add (hl : l.Faithful) (hfits : Wire.FitsSize (1 + b.encode.length)) : (l.add b).2.Faithful := by
  rcases l.add_cases b with ⟨m, hadd, hkeeps⟩ | ⟨m, hadd, hgains⟩
  · exact hadd ▸ hl.keeps hkeeps
  · exact hadd ▸ hl.gains hgains hfits

/-- **Adding to a ledger** is appending to its store. -/
theorem Faithful.add_eq_append (hl : l.Faithful) (b : Block) : (l.add b).map id store = l.store.append b := by
  unfold Ledger.add Store.append
  rw [hl.top, Option.any_some]
  by_cases hle : b.height ≤ l.tipHeight
  · rw [if_pos hle, if_pos (decide_eq_true hle)]
    rfl
  · rw [if_neg hle, if_neg (by simpa using hle)]
    cases l.store.write b with
    | mk result s => cases result <;> rfl

theorem add_eq_true_iff : (l.add b).1 = true ↔ l.tipHeight < b.height ∧ (l.store.write b).1 = .ok () := by
  unfold add
  split
  · rename_i hle
    exact ⟨fun h => absurd h Bool.false_ne_true, fun h => absurd hle (UInt64.not_le.mpr h.1)⟩
  · rename_i hlt
    split
    · rename_i hw
      rw [hw]
      exact ⟨fun h => absurd h Bool.false_ne_true, fun h => nomatch h.2⟩
    · rename_i hw
      rw [hw]
      exact ⟨fun _ => ⟨UInt64.not_le.mp hlt, rfl⟩, fun _ => rfl⟩

theorem exists_load_of_top? {height : UInt64} (h : s.top? = some height) (budget : Nat) :
    ∃ w, load s budget = (.ok w, s) := by
  unfold load
  cases hheights : s.heights with
  | error e =>
    rw [Store.top?, hheights] at h
    cases h
  | ok hs =>
    cases hs with
    | nil =>
      rw [Store.top?, hheights] at h
      cases h
    | cons k hs =>
      rw [top?_eq_loadFrom hheights budget] at h
      obtain ⟨w, hload, -⟩ := Option.map_eq_some_iff.mp h
      exact ⟨w, by simp only [hload]⟩

/-- If anything can be read, then a ledger is loaded anew, and its store stays. -/
theorem exists_reload (hflat : l.store.naming.Flat) {height : UInt64} (h : (l.store.readable height).isSome) :
    ∃ w, l.reload = (.ok (), { l with window := w }) ∧ Faithful { l with window := w } := by
  obtain ⟨top, htop⟩ := Store.exists_top? hflat h
  obtain ⟨w, hload⟩ := exists_load_of_top? htop l.budget
  exact ⟨w, by rw [Ledger.reload, hload], faithful_of_load hflat hload⟩

/-- **What can be read** is found by a ledger that was loaded anew. -/
theorem block?_reload (hflat : l.store.naming.Flat) {height : UInt64} (h : l.store.readable height = some b) :
    l.reload.2.block? height = some b := by
  have hsome : (l.store.readable height).isSome := Option.isSome_of_eq_some h
  obtain ⟨w, hreload, hfaithful⟩ := exists_reload hflat hsome
  rw [hreload]
  exact (hfaithful.mirrors.below height (hfaithful.mirrors.highest height hsome)).trans h

/-- Reloading a faithful ledger succeeds, and leaves the store alone. -/
theorem Faithful.reload (hl : l.Faithful) :
    l.reload.1 = .ok () ∧ l.reload.2.store = l.store ∧ l.reload.2.Faithful := by
  obtain ⟨w, hreload, hfaithful⟩ := exists_reload hl.flat (Store.readable_of_top? hl.top)
  rw [hreload]
  exact ⟨rfl, rfl, hfaithful⟩

end Ledger

/-! ### Uses of a ledger -/

/-- What is done with a ledger. -/
inductive Use where
  /-- It is opened, anew if it is open, with a budget. -/
  | reopen (budget : Nat)
  | add (b : Block)
  | reload

/-- The same without the budget. -/
def Use.unbudgeted : Use → Use
  | reopen _ => reopen 0
  | add b => add b
  | reload => reload

/-- What is told of a use. -/
inductive Outcome where
  | reopened (result : Except LedgerError Unit)
  | added (done : Bool)
  | reloaded (result : Except LedgerError Unit)
  /-- There is no open ledger. -/
  | idle

/-- A directory, with or without what was opened in it. -/
inductive Holding (α : Type) where
  | closed (dir : Directory)
  | opened (a : α)

def Holding.map {α β : Type} (f : α → β) : Holding α → Holding β
  | closed dir => closed dir
  | opened a => opened (f a)

/-- What comes of opening. -/
def Holding.ofOpening {α : Type} : Except LedgerError α × Directory → Outcome × Holding α
  | (.error e, dir) => (.reopened (.error e), closed dir)
  | (.ok a, _) => (.reopened (.ok ()), opened a)

theorem Holding.map_ofOpening {α β : Type} (f : α → β) (r : Except LedgerError α × Directory) :
    (ofOpening r).map id (Holding.map f) = ofOpening (r.map (·.map f) id) := by
  obtain ⟨result, dir⟩ := r
  cases result <;> rfl

/-- What can be used as a ledger. -/
structure Machine (α : Type) where
  reopen : Nat → Directory → Except LedgerError α × Directory
  add : α → Block → Bool × α
  reload : α → Except LedgerError Unit × α
  dir : α → Directory

namespace Machine

/-- The ledgers. -/
def windowed (naming : Store.Naming) : Machine Ledger :=
  ⟨fun budget dir => Ledger.openIn naming budget dir, Ledger.add, Ledger.reload, fun l => l.store.dir⟩

/-- The plain stores, which have no budget and nothing to reload. -/
def plain (naming : Store.Naming) : Machine Store :=
  ⟨fun _ dir => Store.setUp naming dir, Store.append, fun s => (.ok (), s), Store.dir⟩

variable {α : Type}

/-- The directory that is held. -/
def held (m : Machine α) : Holding α → Directory
  | .closed dir => dir
  | .opened a => m.dir a

/-- One use. Only opening does something to a directory without an open ledger. -/
def use (m : Machine α) (x : Holding α) : Use → Outcome × Holding α
  | .reopen budget => Holding.ofOpening (m.reopen budget (m.held x))
  | .add b =>
    match x with
    | .closed dir => (.idle, .closed dir)
    | .opened a => (.added (m.add a b).1, .opened (m.add a b).2)
  | .reload =>
    match x with
    | .closed dir => (.idle, .closed dir)
    | .opened a => (.reloaded (m.reload a).1, .opened (m.reload a).2)

/-- One use after the other, with what is told of them. -/
def uses (m : Machine α) (x : Holding α) : List Use → List Outcome × Holding α
  | [] => ([], x)
  | u :: us =>
    let (outcome, y) := m.use x u
    let (outcomes, z) := m.uses y us
    (outcome :: outcomes, z)

end Machine

/-! ### Refinement -/

/-- What is held is a directory, or a faithful ledger. -/
def Holding.Faithful : Holding Ledger → Prop
  | closed _ => True
  | opened l => l.Faithful

/-- The blocks that are added have records whose length fits. -/
def Use.Fits : Use → Prop
  | add b => Wire.FitsSize (1 + b.encode.length)
  | _ => True

theorem Use.fits_unbudgeted (u : Use) : u.unbudgeted.Fits ↔ u.Fits := by
  cases u <;> exact Iff.rfl

namespace Machine

variable {naming : Store.Naming} {x : Holding Ledger} {u : Use}

theorem held_map_store (naming : Store.Naming) (x : Holding Ledger) :
    (plain naming).held (x.map Ledger.store) = (windowed naming).held x := by
  cases x <;> rfl

/-- **One use** of a faithful ledger keeps it faithful; its store does what the plain store does, and the same is
told of it. -/
theorem use_refines (hflat : naming.Flat) (hx : x.Faithful) (hfits : u.Fits) :
    ((windowed naming).use x u).2.Faithful ∧
      ((windowed naming).use x u).map id (Holding.map Ledger.store) = (plain naming).use (x.map Ledger.store) u := by
  cases u with
  | reopen budget =>
    have hopen := Ledger.openIn_eq_setUp naming budget ((windowed naming).held x)
    refine ⟨?_, ?_⟩
    · change (Holding.ofOpening (Ledger.openIn naming budget ((windowed naming).held x))).2.Faithful
      cases hresult : Ledger.openIn naming budget ((windowed naming).held x) with
      | mk result dir =>
        cases result with
        | error e => exact trivial
        | ok l => exact Ledger.faithful_of_openIn hflat hresult
    · rw [use, use, Holding.map_ofOpening, held_map_store]
      exact congrArg Holding.ofOpening hopen
  | add b =>
    cases x with
    | closed dir => exact ⟨trivial, rfl⟩
    | opened l =>
      have happend := Ledger.Faithful.add_eq_append hx b
      refine ⟨Ledger.Faithful.add hx hfits, ?_⟩
      exact congrArg (fun r : Bool × Store => (Outcome.added r.1, Holding.opened r.2)) happend
  | reload =>
    cases x with
    | closed dir => exact ⟨trivial, rfl⟩
    | opened l =>
      obtain ⟨hok, hstore, hfaithful⟩ := Ledger.Faithful.reload hx
      refine ⟨hfaithful, ?_⟩
      exact congrArg₂ (fun r s => (Outcome.reloaded r, Holding.opened s)) hok hstore

/-- **All uses** of a faithful ledger: it stays faithful, its store is the plain store, and the same is told. -/
theorem uses_refines (hflat : naming.Flat) {us : List Use} (hfits : ∀ u ∈ us, u.Fits) (hx : x.Faithful) :
    ((windowed naming).uses x us).2.Faithful ∧
      ((windowed naming).uses x us).map id (Holding.map Ledger.store) =
        (plain naming).uses (x.map Ledger.store) us := by
  induction us generalizing x with
  | nil => exact ⟨hx, rfl⟩
  | cons u us ih =>
    obtain ⟨hfaithful, hstep⟩ := use_refines hflat hx (hfits u List.mem_cons_self)
    obtain ⟨hlast, hrest⟩ := ih (fun v hv => hfits v (List.mem_cons_of_mem u hv)) hfaithful
    refine ⟨hlast, ?_⟩
    have houtcome := congrArg Prod.fst hstep
    have hstore := congrArg Prod.snd hstep
    simp only [Prod.map_fst, Prod.map_snd, id_eq] at houtcome hstore
    rw [hstore] at hrest
    have houtcomes := congrArg Prod.fst hrest
    have hstores := congrArg Prod.snd hrest
    exact Prod.ext (congrArg₂ List.cons houtcome houtcomes) hstores

/-- The plain store takes no notice of budgets. -/
theorem uses_plain_unbudgeted (naming : Store.Naming) (y : Holding Store) (us : List Use) :
    (plain naming).uses y (us.map Use.unbudgeted) = (plain naming).uses y us := by
  have hstep : ∀ (y : Holding Store) (u : Use), (plain naming).use y u.unbudgeted = (plain naming).use y u := by
    intro y u
    cases u <;> rfl
  induction us generalizing y with
  | nil => rfl
  | cons u us ih => simp only [List.map_cons, uses, hstep, ih]

/-- **A ledger refines a plain store**, whatever is in the directory at first and whatever is done, with any budgets.
While it is open it mirrors its store; it takes a block exactly if the block is above the tip and is written, and
then the store reads differently at its height alone, while a refusal changes nothing; and the outcomes and
what is stored are those of the plain store. So with other budgets the outcomes, what is stored, and all answers of
the ledger are the same. -/
theorem refines_store (hflat : naming.Flat) (dir : Directory) {us : List Use} (hfits : ∀ u ∈ us, u.Fits) :
    (∀ l, ((windowed naming).uses (.closed dir) us).2 = .opened l →
      l.Mirrors ∧ ∀ b : Block, Wire.FitsSize (1 + b.encode.length) →
        ((l.add b).1 = true ↔ l.tipHeight < b.height ∧ (l.store.write b).1 = .ok ()) ∧
        ((l.add b).1 = true → ∀ height,
          (l.add b).2.store.readable height = if height = b.height then some b else l.store.readable height) ∧
        ((l.add b).1 = false → l.Keeps (l.add b).2)) ∧
    ((windowed naming).uses (.closed dir) us).map id (Holding.map Ledger.store) =
      (plain naming).uses (.closed dir) us ∧
    ∀ vs : List Use, vs.map Use.unbudgeted = us.map Use.unbudgeted →
      ((windowed naming).uses (.closed dir) vs).map id (Holding.map Ledger.store) =
        ((windowed naming).uses (.closed dir) us).map id (Holding.map Ledger.store) ∧
      ∀ l m, ((windowed naming).uses (.closed dir) us).2 = .opened l →
        ((windowed naming).uses (.closed dir) vs).2 = .opened m → l.Agrees m := by
  have hclosed : (Holding.closed dir : Holding Ledger).Faithful := trivial
  obtain ⟨hfaithful, hplain⟩ := uses_refines hflat hfits hclosed
  refine ⟨fun l hl => ?_, hplain, fun vs hvs => ?_⟩
  · rw [hl] at hfaithful
    refine ⟨Ledger.Faithful.mirrors hfaithful, fun b hb => ⟨Ledger.add_eq_true_iff, ?_⟩⟩
    rcases l.add_cases b with ⟨m, hadd, hkeeps⟩ | ⟨m, hadd, hgains⟩
    · rw [hadd]
      exact ⟨fun h => absurd h Bool.false_ne_true, fun _ => hkeeps⟩
    · rw [hadd]
      refine ⟨fun _ => hgains.readable_eq (Ledger.Faithful.flat hfaithful).leadsOn hb, fun h => ?_⟩
      exact absurd h.symm Bool.false_ne_true
  · have hfits' : ∀ u ∈ vs, u.Fits := by
      intro u hu
      obtain ⟨v, hv, hsame⟩ := List.mem_map.mp (hvs ▸ List.mem_map_of_mem hu)
      exact (Use.fits_unbudgeted u).mp (hsame ▸ (Use.fits_unbudgeted v).mpr (hfits v hv))
    obtain ⟨hfaithful', hplain'⟩ := uses_refines hflat hfits' hclosed
    have hsame : ((windowed naming).uses (.closed dir) vs).map id (Holding.map Ledger.store) =
        ((windowed naming).uses (.closed dir) us).map id (Holding.map Ledger.store) := by
      rw [hplain', hplain, ← uses_plain_unbudgeted naming _ vs, hvs, uses_plain_unbudgeted]
    refine ⟨hsame, fun l m hl hm => ?_⟩
    rw [hl] at hfaithful
    rw [hm] at hfaithful'
    refine (Ledger.Faithful.mirrors hfaithful).agrees (Ledger.Faithful.mirrors hfaithful') ?_
    have hstored := congrArg Prod.snd hsame
    rw [Prod.map_snd, Prod.map_snd, hl, hm] at hstored
    exact (Holding.opened.inj hstored).symm

/-- The block above the first one, but for the link to it. -/
def above : Block := { Block.genesis with height := 1 }

/-- What is done with a ledger without memory for more than its tip. -/
def growing : List Use := [.reopen 0, .reload, .add above]

/-- Whether a ledger is open for which the test holds. -/
def holds (test : Ledger → Bool) : Holding Ledger → Bool
  | .closed _ => false
  | .opened l => test l

/-- The first block is dropped from memory, and is still found. -/
theorem refines_store_growing : ∃ l, ((windowed .standard).uses (.closed .fresh) growing).2 = .opened l ∧
    l.tipHeight = 1 ∧ l.window.older = [] ∧ l.Mirrors ∧ (l.block? 0).isSome := by
  have htest : holds (fun l => l.tipHeight == 1 && l.window.older.isEmpty && (l.store.readable 0).isSome)
      ((windowed .standard).uses (.closed .fresh) growing).2 = true := by decide +kernel
  have hfits : ∀ u ∈ growing, u.Fits := by
    have habove : Wire.FitsSize (1 + above.encode.length) := by decide +kernel
    intro u hu
    simp only [growing, List.mem_cons, List.not_mem_nil, or_false] at hu
    rcases hu with rfl | rfl | rfl
    · trivial
    · trivial
    · exact habove
  cases hheld : ((windowed .standard).uses (.closed .fresh) growing).2 with
  | closed dir =>
    rw [hheld] at htest
    cases htest
  | opened l =>
    rw [hheld] at htest
    simp only [holds, Bool.and_eq_true, beq_iff_eq, List.isEmpty_iff] at htest
    obtain ⟨⟨hheight, holder⟩, hreadable⟩ := htest
    have hflat : Store.Naming.standard.Flat := by decide
    have hmirrors := ((refines_store hflat .fresh hfits).1 l hheld).1
    refine ⟨l, rfl, hheight, holder, hmirrors, ?_⟩
    rw [hmirrors.below 0 (by rw [hheight]; decide)]
    exact hreadable

end Machine

end ReplicatedLedger
