import ReplicatedLedger.Proofs.Store.Listing
import Mathlib.Data.List.Nodup
import Mathlib.Data.List.Sort

/-! # Which files are listed

A file name counts for a height when it spells the height in decimal, and zeros in front make another spelling of
the same height (`Naming.height?_eq_some_iff`). So a directory is listed with a height for every file whose name is a
spelling, and names of other kinds do not matter (`exists_heights`). Blocks are stored and read under the spelling
without zeros alone. The list is therefore ascending without repetition and made of the heights that have a file
exactly if no file name has zeros in front (`heights_spelled`); with them a height may be listed that has no file, or
listed twice (`exists_height_without_file`). -/

namespace ReplicatedLedger

/-! ### Directories of files -/

namespace Directory

variable {d : Directory} {name : String}

/-- Whatever stands in the directory is a file, under a proper name. -/
def OnlyFiles (d : Directory) : Prop :=
  ∀ name e, d.tree.get? (name :: d.place) = some e → IsName name ∧ ∃ content, e = .file content

theorem onlyFiles_fresh : fresh.OnlyFiles := by
  intro name e h
  have hinside : name :: fresh.place ≠ ["blocks"] := fun heq => List.cons_ne_nil _ _ (List.cons.inj heq).2
  change ((around ["blocks"]).insert ["blocks"] .folder).get? (name :: fresh.place) = some e at h
  rw [SortedMap.get?_insert, if_neg hinside, around, SortedMap.get?_insert, if_neg (List.cons_ne_nil _ _)] at h
  cases h

theorem OnlyFiles.insert (h : d.OnlyFiles) (hname : IsName name) (content : Bytes) :
    OnlyFiles { d with tree := d.tree.insert (name :: d.place) (.file content) } := by
  intro name' e hget
  rw [SortedMap.get?_insert] at hget
  split_ifs at hget with heq
  · cases hget
    exact ⟨(List.cons.inj heq).1 ▸ hname, content, rfl⟩
  · exact h name' e hget

/-- A directory of files, under their names. -/
def ofFiles (files : List (String × Bytes)) : Directory :=
  files.foldl (fun d file => { d with tree := d.tree.insert (file.1 :: d.place) (.file file.2) }) fresh

theorem onlyFiles_ofFiles {files : List (String × Bytes)} (h : ∀ file ∈ files, IsName file.1) :
    (ofFiles files).OnlyFiles := by
  suffices hfold : ∀ d : Directory, d.OnlyFiles → OnlyFiles (files.foldl
      (fun d file => { d with tree := d.tree.insert (file.1 :: d.place) (.file file.2) }) d) from
    hfold _ onlyFiles_fresh
  induction files with
  | nil => exact fun _ hd => hd
  | cons file files ih =>
    obtain ⟨hname, hnames⟩ := List.forall_mem_cons.mp h
    exact fun d hd => ih hnames _ (hd.insert hname file.2)

/-- A directory that is listed is a folder. -/
theorem enter_of_names {names : List String} (h : d.names = .ok names) : d.enter d.place = .ok () := by
  cases hplace : d.enter d.place with
  | error e =>
    rw [Directory.names, entries, hplace] at h
    cases h
  | ok u => rfl

theorem folder_of_names {names : List String} (h : d.names = .ok names) : d.tree.get? d.place = some .folder := by
  have hplace := enter_of_names h
  unfold enter at hplace
  split at hplace
  · cases hplace
  · cases hplace
  · assumption

/-- What is listed stands in the directory. -/
theorem mem_names_iff {names : List String} (h : d.names = .ok names) :
    name ∈ names ↔ ∃ e, d.tree.get? (name :: d.place) = some e := by
  rw [Directory.names, entries, enter_of_names h] at h
  cases h
  simp only [List.mem_map, List.mem_filterMap, Prod.exists, SortedMap.get?_eq_some_iff]
  constructor
  · rintro ⟨name', e, ⟨p, e', hmem, heq⟩, rfl⟩
    cases p with
    | nil => cases heq
    | cons step p =>
      simp only [Option.ite_none_right_eq_some, Option.some.injEq, Prod.mk.injEq] at heq
      obtain ⟨rfl, rfl, rfl⟩ := heq
      exact ⟨e', hmem⟩
  · rintro ⟨e, hmem⟩
    exact ⟨name, e, ⟨_, e, hmem, if_pos rfl⟩, rfl⟩

/-- No name is listed twice. -/
theorem nodup_names {names : List String} (h : d.names = .ok names) : names.Nodup := by
  rw [Directory.names, entries, enter_of_names h] at h
  cases h
  refine List.pairwise_map.mpr (d.tree.ascending.filterMap _ ?_)
  rintro ⟨p, e⟩ ⟨p', e'⟩ hlt ⟨name, x⟩ hname ⟨name', x'⟩ hname' rfl
  -- two places with one name are one place
  cases p with
  | nil => cases hname
  | cons step p =>
    cases p' with
    | nil => cases hname'
    | cons step' p' =>
      simp only [Option.ite_none_right_eq_some, Option.some.injEq, Prod.mk.injEq] at hname hname'
      obtain ⟨rfl, rfl, -⟩ := hname
      obtain ⟨rfl, rfl, -⟩ := hname'
      exact Std.lt_irrefl hlt

/-- **A file under a proper name** is found under this name. -/
theorem isFile_iff_mem_names (hfiles : d.OnlyFiles) {names : List String} (hnames : d.names = .ok names)
    (hslash : '/' ∉ name.toList) (hforward : Path.IsForward name) : d.isFile name = true ↔ name ∈ names := by
  constructor
  · intro hfile
    cases hread : d.read name with
    | error e =>
      rw [isFile, hread] at hfile
      cases hfile
    | ok content =>
      obtain ⟨names', hnames', hmem⟩ := mem_names_of_read hslash hforward hread
      rw [hnames] at hnames'
      cases hnames'
      exact hmem
  · intro hmem
    obtain ⟨e, hget⟩ := (mem_names_iff hnames).mp hmem
    obtain ⟨hname, content, rfl⟩ := hfiles _ _ hget
    rw [isFile, read, lookup, locate_plain (folder_of_names hnames) hname]
    simp only [hget]
    rfl

end Directory

namespace Store

/-! ### Decimal digits -/

theorem dropFront?_eq_some_iff {front s rest : List Char} : dropFront? front s = some rest ↔ s = front ++ rest := by
  refine ⟨fun h => ?_, fun h => h ▸ dropFront?_append front rest⟩
  induction front generalizing s with
  | nil => exact Option.some.inj h
  | cons c front ih =>
    cases s with
    | nil => cases h
    | cons d s =>
      rw [dropFront?] at h
      split_ifs at h with hc
      rw [hc, ih h, List.cons_append]

theorem dropBack?_eq_some_iff {back s rest : List Char} : dropBack? back s = some rest ↔ s = rest ++ back := by
  refine ⟨fun h => ?_, fun h => h ▸ dropBack?_append rest back⟩
  obtain ⟨front, hfront, rfl⟩ := Option.map_eq_some_iff.mp h
  rw [dropFront?_eq_some_iff] at hfront
  rw [← List.reverse_reverse s, hfront, List.reverse_append, List.reverse_reverse]

theorem digitChar_sub {c : Char} (h : c.isDigit = true) :
    c.toNat - '0'.toNat < 10 ∧ Nat.digitChar (c.toNat - '0'.toNat) = c := by
  obtain ⟨hlow, hhigh⟩ : 48 ≤ c.toNat ∧ c.toNat ≤ 57 := by
    rw [Char.isDigit, Bool.and_eq_true, decide_eq_true_iff, decide_eq_true_iff] at h
    exact h
  have hzero : '0'.toNat = 48 := rfl
  rw [hzero]
  refine ⟨by omega, Char.toNat_inj.mp ?_⟩
  rw [Nat.toNat_digitChar_of_lt_ten (by omega)]
  omega

/-- Digits behind those of a positive number are those of a number. -/
theorem toDigits_append {digits : List Char} (h : digits.all Char.isDigit = true) {n : Nat} (hn : 0 < n) :
    Nat.toDigits 10 n ++ digits = Nat.toDigits 10 (Nat.ofDigitChars 10 digits n) := by
  induction digits generalizing n with
  | nil => exact List.append_nil _
  | cons c digits ih =>
    rw [List.all_cons, Bool.and_eq_true] at h
    obtain ⟨hlt, hchar⟩ := digitChar_sub h.1
    have hone := Nat.toDigits_append_toDigits (by decide : 1 < 10) hn hlt
    rw [Nat.toDigits_of_lt_base hlt, hchar] at hone
    rw [Nat.ofDigitChars, List.foldl_cons, List.append_cons, hone]
    exact ih h.2 (by omega)

/-- **Digits are those of the number that they write**, behind zeros. -/
theorem exists_zeros {digits : List Char} (hne : digits ≠ []) (h : digits.all Char.isDigit = true) :
    ∃ zeros, digits = List.replicate zeros '0' ++ Nat.toDigits 10 (Nat.ofDigitChars 10 digits 0) := by
  induction digits with
  | nil => exact absurd rfl hne
  | cons c digits ih =>
    rw [List.all_cons, Bool.and_eq_true] at h
    obtain ⟨hlt, hchar⟩ := digitChar_sub h.1
    have hfirst : Nat.ofDigitChars 10 (c :: digits) 0 = Nat.ofDigitChars 10 digits (c.toNat - '0'.toNat) := by
      rw [Nat.ofDigitChars, List.foldl_cons, Nat.mul_zero, Nat.zero_add, Nat.ofDigitChars]
    rw [hfirst]
    by_cases hzero : c.toNat - '0'.toNat = 0
    · obtain rfl : '0' = c := by rw [← hchar, hzero]; rfl
      cases digits with
      | nil => exact ⟨0, rfl⟩
      | cons c' digits =>
        obtain ⟨zeros, heq⟩ := ih (List.cons_ne_nil _ _) h.2
        rw [hzero]
        refine ⟨zeros + 1, ?_⟩
        rw [List.replicate_succ, List.cons_append, ← heq]
    · refine ⟨0, ?_⟩
      rw [← toDigits_append h.2 (Nat.pos_of_ne_zero hzero), Nat.toDigits_of_lt_base hlt, hchar]
      rfl

theorem ofDigitChars_replicate (zeros : Nat) (digits : List Char) :
    Nat.ofDigitChars 10 (List.replicate zeros '0' ++ digits) 0 = Nat.ofDigitChars 10 digits 0 := by
  induction zeros with
  | zero => rfl
  | succ zeros ih => exact ih

theorem decimal?_eq_some_iff {digits : List Char} {height : UInt64} : decimal? digits = some height ↔
    ∃ zeros, digits = List.replicate zeros '0' ++ Nat.toDigits 10 height.toNat := by
  constructor
  · intro h
    unfold decimal? at h
    split_ifs at h with hdigits
    dsimp only at h
    split_ifs at h with hfits
    obtain ⟨zeros, heq⟩ := exists_zeros hdigits.1 hdigits.2
    refine ⟨zeros, ?_⟩
    rw [← Option.some.inj h, Nat.toUInt64_eq, UInt64.toNat_ofNat_of_lt' hfits]
    exact heq
  · rintro ⟨zeros, rfl⟩
    have hall : (List.replicate zeros '0' ++ Nat.toDigits 10 height.toNat).all Char.isDigit = true := by
      refine List.all_eq_true.mpr fun c hc => ?_
      rcases List.mem_append.mp hc with hzero | hdigit
      · rw [List.eq_of_mem_replicate hzero]
        rfl
      · exact Nat.isDigit_of_mem_toDigits (by decide) (by decide) hdigit
    have hnumber : (List.replicate zeros '0' ++ Nat.toDigits 10 height.toNat).foldl
        (fun v c => 10 * v + (c.toNat - '0'.toNat)) 0 = height.toNat :=
      (ofDigitChars_replicate zeros _).trans Nat.ofDigitChars_ten_toDigits
    have hne : List.replicate zeros '0' ++ Nat.toDigits 10 height.toNat ≠ [] :=
      List.append_ne_nil_of_right_ne_nil _ Nat.toDigits_ne_nil
    rw [decimal?, if_pos ⟨hne, hall⟩]
    simp only [hnumber]
    rw [if_pos height.toNat_lt]
    exact congrArg some UInt64.ofNat_toNat

/-! ### Spellings -/

namespace Naming

variable {n : Naming} {zeros zeros' : Nat} {height height' : UInt64} {name : String}

/-- A file name that writes a height with zeros in front. -/
def spelling (n : Naming) (zeros : Nat) (height : UInt64) : String :=
  n.base ++ "_" ++ String.ofList (List.replicate zeros '0') ++ toString height.toNat ++ "." ++ n.extension

/-- Without zeros it is the name under which the block is stored. -/
theorem spelling_zero (n : Naming) (height : UInt64) : n.spelling 0 height = n.fileName height := by
  simp [spelling, fileName]

theorem toList_spelling (n : Naming) (zeros : Nat) (height : UInt64) : (n.spelling zeros height).toList =
    n.base.toList ++ ['_'] ++ (List.replicate zeros '0' ++ Nat.toDigits 10 height.toNat ++ '.' :: n.extension.toList) := by
  simp [spelling, String.toList_append]

/-- **A name counts for a height** when it is a spelling of it. -/
theorem height?_eq_some_iff : n.height? name = some height ↔ ∃ zeros, name = n.spelling zeros height := by
  simp only [height?, Option.bind_eq_bind, Option.bind_eq_some_iff, dropFront?_eq_some_iff, dropBack?_eq_some_iff,
    decimal?_eq_some_iff, ← String.toList_inj, toList_spelling]
  constructor
  · rintro ⟨rest, hname, digits, rfl, zeros, rfl⟩
    exact ⟨zeros, hname⟩
  · rintro ⟨zeros, hname⟩
    exact ⟨_, hname, _, rfl, zeros, rfl⟩

theorem height?_spelling (n : Naming) (zeros : Nat) (height : UInt64) :
    n.height? (n.spelling zeros height) = some height := height?_eq_some_iff.mpr ⟨zeros, rfl⟩

/-- Every zero makes the name longer. -/
theorem length_spelling (n : Naming) (zeros : Nat) (height : UInt64) :
    (n.spelling zeros height).toList.length = zeros + (n.fileName height).toList.length := by
  rw [← spelling_zero, toList_spelling, toList_spelling]
  simp only [List.length_append, List.length_replicate]
  omega

/-- The zeros in front and the height that a file name spells. -/
def spelled? (n : Naming) (name : String) : Option (Nat × UInt64) :=
  (n.height? name).map fun height => (name.toList.length - (n.fileName height).toList.length, height)

/-- **A name that counts** is one spelling of one height. -/
theorem spelled?_eq_some_iff : n.spelled? name = some (zeros, height) ↔ name = n.spelling zeros height := by
  simp only [spelled?, Option.map_eq_some_iff, Prod.mk.injEq]
  constructor
  · rintro ⟨height, hheight, rfl, rfl⟩
    obtain ⟨zeros, rfl⟩ := height?_eq_some_iff.mp hheight
    rw [length_spelling, Nat.add_sub_cancel]
  · rintro rfl
    refine ⟨height, n.height?_spelling zeros height, ?_, rfl⟩
    rw [length_spelling, Nat.add_sub_cancel]

/-- Every name that counts for a height is that of its file. -/
def Canonical (n : Naming) (names : List String) : Prop :=
  ∀ name ∈ names, ∀ height, n.height? name = some height → name = n.fileName height

-- looks at the one height of a name: quantifying over all of them is decidable as well, but not in practice
instance (n : Naming) (names : List String) : Decidable (n.Canonical names) :=
  decidable_of_iff (∀ name ∈ names, (n.height? name).all fun height => name = n.fileName height) (by
    simp only [Canonical, Option.all_eq_true, decide_eq_true_eq])

/-- **Names are canonical** when none of them has zeros in front of its height. -/
theorem canonical_iff {names : List String} :
    n.Canonical names ↔ ∀ zeros height, n.spelling zeros height ∈ names → zeros = 0 := by
  constructor
  · intro hcanonical zeros height hmem
    have hlength := congrArg (·.toList.length) (hcanonical _ hmem height (n.height?_spelling zeros height))
    rw [length_spelling] at hlength
    omega
  · intro hzeros name hmem height hname
    obtain ⟨zeros, rfl⟩ := height?_eq_some_iff.mp hname
    rw [hzeros zeros height hmem, spelling_zero]

/-- A spelling without slashes has none in base and extension. -/
theorem flat_of_spelling (h : '/' ∉ (n.spelling zeros height).toList) : n.Flat := by
  rw [toList_spelling] at h
  simp only [List.mem_append, List.mem_cons, not_or] at h
  exact ⟨h.1.1, h.2.2.2⟩

end Naming

/-! ### The list of heights -/

variable {s : Store} {names : List String} {height : UInt64}

/-- **A height is listed for every file whose name spells it**, ascending, and for no other. -/
theorem exists_heights (hnames : s.dir.names = .ok names) : ∃ hs, s.heights = .ok hs ∧ hs.Pairwise (· ≤ ·) ∧
    ∃ files : List (Nat × UInt64), files.Nodup ∧
      (∀ zeros height, (zeros, height) ∈ files ↔ s.naming.spelling zeros height ∈ names) ∧
      hs.Perm (files.map Prod.snd) := by
  have hheights : s.heights = .ok ((names.filterMap s.naming.height?).mergeSort (· ≤ ·)) := by rw [heights, hnames]
  refine ⟨_, hheights, pairwise_heights hheights, names.filterMap s.naming.spelled?, ?_, fun zeros height => ?_, ?_⟩
  · refine (Directory.nodup_names hnames).filterMap fun name name' p hp hp' => ?_
    rw [Naming.spelled?_eq_some_iff.mp hp, Naming.spelled?_eq_some_iff.mp hp']
  · simp only [List.mem_filterMap, Naming.spelled?_eq_some_iff, exists_eq_right]
  · have hsame : s.naming.height? = fun name => (s.naming.spelled? name).map Prod.snd := by
      funext name
      rw [Naming.spelled?, Option.map_map]
      exact Option.map_id'.symm
    rw [List.map_filterMap, ← hsame]
    exact List.mergeSort_perm _ _

/-- Under canonical names no height is listed twice. -/
theorem pairwise_lt_heights (hcanonical : s.naming.Canonical names) (hnames : s.dir.names = .ok names)
    {hs : List UInt64} (hheights : s.heights = .ok hs) : hs.Pairwise (· < ·) := by
  obtain ⟨hs', hheights', hsorted, files, hnodup, hmem, hperm⟩ := exists_heights hnames
  obtain rfl := Except.ok.inj (hheights.symm.trans hheights')
  have hzeros := Naming.canonical_iff.mp hcanonical
  have honce : (files.map Prod.snd).Nodup := by
    refine List.Nodup.map_on ?_ hnodup
    rintro ⟨zeros, height⟩ hp ⟨zeros', height'⟩ hp' rfl
    rw [hzeros _ _ ((hmem _ _).mp hp), hzeros _ _ ((hmem _ _).mp hp')]
  have hdistinct : hs.Pairwise (· ≠ ·) := hperm.nodup_iff.mpr honce
  exact hsorted.imp₂ (fun _ _ hle hne => UInt64.lt_of_le_of_ne hle hne) hdistinct

/-- Under proper names there is a file for a height when its file name is listed. -/
theorem contains_iff_mem_names (hflat : s.naming.Flat) (hfiles : s.dir.OnlyFiles) (hnames : s.dir.names = .ok names) :
    s.contains height = true ↔ s.naming.fileName height ∈ names :=
  Directory.isFile_iff_mem_names hfiles hnames (hflat.slash_not_mem height) (Naming.isForward_fileName _ height)

/-- **What is listed** in a directory of files: the heights that the file names spell, ascending, each as often as it
is spelled. These are the heights that have a file, once each, exactly if no file name has zeros in front. -/
theorem heights_spelled (hflat : s.naming.Flat) (hfiles : s.dir.OnlyFiles) (hnames : s.dir.names = .ok names) :
    ∃ hs, s.heights = .ok hs ∧ hs.Pairwise (· ≤ ·) ∧
      (∃ files : List (Nat × UInt64), files.Nodup ∧
        (∀ zeros height, (zeros, height) ∈ files ↔ s.naming.spelling zeros height ∈ names) ∧
        hs.Perm (files.map Prod.snd)) ∧
      (∀ height, s.contains height = true ↔ s.naming.spelling 0 height ∈ names) ∧
      ((hs.Pairwise (· < ·) ∧ ∀ height, height ∈ hs ↔ s.contains height = true) ↔
        ∀ zeros height, s.naming.spelling zeros height ∈ names → zeros = 0) := by
  obtain ⟨hs, hheights, hsorted, files, hnodup, hmem, hperm⟩ := exists_heights hnames
  have hcontains : ∀ height, s.contains height = true ↔ s.naming.spelling 0 height ∈ names := fun height => by
    rw [contains_iff_mem_names hflat hfiles hnames, Naming.spelling_zero]
  have hlisted : ∀ height, height ∈ hs ↔ ∃ zeros, s.naming.spelling zeros height ∈ names := fun height => by
    simp only [hperm.mem_iff, List.mem_map, Prod.exists, exists_eq_right, hmem]
  refine ⟨hs, hheights, hsorted, ⟨files, hnodup, hmem, hperm⟩, hcontains, ?_⟩
  constructor
  · rintro ⟨hascending, hexact⟩ zeros height hspelled
    -- the height has a file as well, and is listed once
    have hplain := (hcontains height).mp ((hexact height).mp ((hlisted height).mpr ⟨zeros, hspelled⟩))
    have honce : (files.map Prod.snd).Nodup := hperm.nodup_iff.mp (hascending.imp fun hlt => UInt64.ne_of_lt hlt)
    have hsame := List.inj_on_of_nodup_map honce ((hmem zeros height).mpr hspelled) ((hmem 0 height).mpr hplain) rfl
    exact (Prod.mk.inj hsame).1
  · intro hzeros
    refine ⟨pairwise_lt_heights (Naming.canonical_iff.mpr hzeros) hnames hheights, fun height => ?_⟩
    rw [hlisted, hcontains]
    exact ⟨fun ⟨zeros, h⟩ => hzeros zeros height h ▸ h, fun h => ⟨0, h⟩⟩

/-- Heights that stand in ascending order are listed as they stand. -/
theorem heights_of_pairwise (hnames : s.dir.names = .ok names) {hs : List UInt64}
    (hspelled : names.filterMap s.naming.height? = hs) (hsorted : hs.Pairwise (· ≤ ·)) : s.heights = .ok hs := by
  rw [heights, hnames]
  dsimp only
  rw [hspelled, List.mergeSort_of_pairwise (hsorted.imp fun hle => decide_eq_true hle)]

/-- A store over files of which one has a zero in front of its height. -/
def padded : Store := ⟨.standard, .ofFiles [("block_07.blk", []), ("notes.txt", []), ("block_7.blk", [])]⟩

theorem onlyFiles_padded : padded.dir.OnlyFiles :=
  Directory.onlyFiles_ofFiles (by simp only [List.forall_mem_cons, Directory.IsName]; decide)

/-- The two files of one height, and a third that counts for none. -/
theorem heights_spelled_padded : padded.heights = .ok [7, 7] ∧ padded.contains 7 = true ∧
    ¬ (([7, 7] : List UInt64).Pairwise (· < ·) ∧
      ∀ height, height ∈ ([7, 7] : List UInt64) ↔ padded.contains height = true) := by
  have hnames : padded.dir.names = .ok ["block_07.blk", "block_7.blk", "notes.txt"] := by decide +kernel
  have hheights : padded.heights = .ok [7, 7] := heights_of_pairwise hnames (by decide +kernel) (by decide)
  obtain ⟨hs, hok, -, -, hcontains, hexact⟩ := heights_spelled (by decide : padded.naming.Flat) onlyFiles_padded hnames
  obtain rfl := Except.ok.inj (hheights.symm.trans hok)
  refine ⟨hheights, (hcontains 7).mpr (by decide +kernel), fun h => ?_⟩
  exact absurd (hexact.mp h 1 7 (by decide +kernel)) (by decide)

/-- **A height may be listed without a file**, or twice: a name with a zero in front is listed with the height that it
spells, and the file of this height has another name. -/
theorem exists_height_without_file :
    (∃ s : Store, s.naming.Flat ∧ s.dir.OnlyFiles ∧ s.dir.names = .ok ["block_07.blk"] ∧ s.heights = .ok [7] ∧
      s.contains 7 = false) ∧
    ∃ s : Store, s.naming.Flat ∧ s.dir.OnlyFiles ∧ s.dir.names = .ok ["block_07.blk", "block_7.blk"] ∧
      s.heights = .ok [7, 7] := by
  have htwice : (Directory.ofFiles [("block_07.blk", []), ("block_7.blk", [])]).names =
      .ok ["block_07.blk", "block_7.blk"] := by decide +kernel
  refine ⟨⟨⟨.standard, .ofFiles [("block_07.blk", [])]⟩, by decide, ?_, by decide +kernel, by decide +kernel,
    by decide +kernel⟩, ⟨.standard, .ofFiles [("block_07.blk", []), ("block_7.blk", [])]⟩, by decide, ?_, htwice,
    heights_of_pairwise htwice (by decide +kernel) (by decide)⟩
  · exact Directory.onlyFiles_ofFiles (by simp only [List.forall_mem_cons, Directory.IsName]; decide)
  · exact Directory.onlyFiles_ofFiles (by simp only [List.forall_mem_cons, Directory.IsName]; decide)

end Store

end ReplicatedLedger
