import ReplicatedLedger.Proofs.Store.Names

/-! # Listing what can be read

Without a slash in base and extension all files of a store stand in its directory itself. The name of the file
of a height counts for that height (`Naming.height?_fileName`), so that every height that can be read is listed
(`mem_heights_of_readable`); the list is ascending (`pairwise_heights`). -/

namespace ReplicatedLedger

/-! ### Names in a directory -/

namespace Directory

variable {d : Directory} {name : String} {content : Bytes}

/-- A file that is read under a name without slashes stands under it in the directory. -/
theorem enter_of_read (hslash : '/' ∉ name.toList) (hname : Path.IsForward name)
    (hread : d.read name = .ok content) :
    d.enter d.place = .ok () ∧ d.tree.get? (name :: d.place) = some (.file content) := by
  have hfound : ∃ p, d.locate name = .ok p ∧ d.tree.get? p = some (.file content) := by
    unfold read lookup at hread
    cases hlocate : d.locate name with
    | error e => simp [hlocate] at hread
    | ok p =>
      cases hget : d.tree.get? p with
      | none => simp [hlocate, hget] at hread
      | some e =>
        cases e with
        | folder => simp [hlocate, hget] at hread
        | file c =>
          simp only [hlocate, hget, Except.ok.injEq] at hread
          exact ⟨p, rfl, hread ▸ hget⟩
  obtain ⟨p, hlocate, hget⟩ := hfound
  have hrelative : (Path.ofText name).isAbsolute = false := by
    have hne : name.toList.head? ≠ some '/' := fun h => hslash (List.mem_of_mem_head? h)
    simp [Path.ofText, hne]
  have hwalk : d.walk d.place [name] = .ok p := by
    unfold locate at hlocate
    cases hpath : d.path name with
    | error e => simp [hpath] at hlocate
    | ok q =>
      obtain rfl := eq_ofText_of_path hpath
      simpa [hpath, start, hrelative, Path.steps_ofText_of_plain hslash] using hlocate
  rw [walk] at hwalk
  cases henter : d.enter d.place with
  | error e => simp [henter] at hwalk
  | ok u =>
    simp only [henter, hname.1, if_neg hname.2, Bool.false_eq_true, if_false] at hwalk
    split at hwalk
    · cases hwalk
    · cases hwalk
      exact ⟨rfl, hget⟩

/-- A file that is read under a name stands in the directory, and the directory lists it. -/
theorem mem_names_of_read (hslash : '/' ∉ name.toList) (hname : Path.IsForward name)
    (hread : d.read name = .ok content) : ∃ names, d.names = .ok names ∧ name ∈ names := by
  obtain ⟨hplace, hfile⟩ := enter_of_read hslash hname hread
  refine ⟨_, by rw [names, entries, hplace]; rfl, ?_⟩
  have hentry := (SortedMap.get?_eq_some_iff d.tree).mp hfile
  exact List.mem_map.mpr ⟨(name, .file content), List.mem_filterMap.mpr ⟨_, hentry, if_pos rfl⟩, rfl⟩

end Directory

namespace Store

/-! ### File names and heights -/

theorem dropFront?_append (front rest : List Char) : dropFront? front (front ++ rest) = some rest := by
  induction front with
  | nil => rfl
  | cons c front ih => rw [List.cons_append, dropFront?, if_pos rfl, ih]

theorem dropBack?_append (rest back : List Char) : dropBack? back (rest ++ back) = some rest := by
  rw [dropBack?, List.reverse_append, dropFront?_append, Option.map_some, List.reverse_reverse]

theorem decimal?_toString (height : UInt64) : decimal? (toString height.toNat).toList = some height := by
  have hdigits : (toString height.toNat).toList = Nat.toDigits 10 height.toNat := by simp
  have hall : (Nat.toDigits 10 height.toNat).all Char.isDigit = true :=
    List.all_eq_true.mpr fun c hc => Nat.isDigit_of_mem_toDigits (by omega) (by omega) hc
  have hnumber : (Nat.toDigits 10 height.toNat).foldl (fun v c => 10 * v + (c.toNat - '0'.toNat)) 0 = height.toNat :=
    Nat.ofDigitChars_ten_toDigits
  rw [hdigits, decimal?, if_pos ⟨Nat.toDigits_ne_nil, hall⟩]
  simp only [hnumber]
  rw [if_pos height.toNat_lt]
  exact congrArg some UInt64.ofNat_toNat

namespace Naming

/-- No part of the file names has a slash. -/
def Flat (n : Naming) : Prop := '/' ∉ n.base.toList ∧ '/' ∉ n.extension.toList

instance (n : Naming) : Decidable n.Flat := inferInstanceAs (Decidable (_ ∧ _))

/-- The name of the file of a height counts for the height. -/
theorem height?_fileName (n : Naming) (height : UInt64) : n.height? (n.fileName height) = some height := by
  have hname : (n.fileName height).toList =
      (n.base.toList ++ ['_']) ++ ((toString height.toNat).toList ++ '.' :: n.extension.toList) := by
    simp [toList_fileName, mark]
  rw [height?, hname, dropFront?_append, Option.bind_eq_bind, Option.bind_some, dropBack?_append]
  exact decimal?_toString height

variable {n : Naming}

theorem Flat.leadsOn (h : n.Flat) : n.LeadsOn := by
  rw [LeadsOn, Path.steps_ofText_of_plain h.2]
  exact List.not_mem_nil

theorem Flat.slash_not_mem (h : n.Flat) (height : UInt64) : '/' ∉ (n.fileName height).toList := by
  rw [toList_fileName]
  simp only [List.mem_append, not_or]
  exact ⟨h.1, slash_not_mem_mark height, h.2⟩

theorem isForward_fileName (n : Naming) (height : UInt64) : Path.IsForward (n.fileName height) := by
  have hmem : '_' ∈ (n.fileName height).toList := by simp [toList_fileName, mark]
  have hforward := isForward_of_mem hmem
  rwa [String.ofList_toList] at hforward

end Naming

/-! ### The list of heights -/

variable {s : Store} {hs : List UInt64} {height : UInt64}

/-- **Every height that can be read is listed.** -/
theorem mem_heights_of_readable (hflat : s.naming.Flat) (h : (s.readable height).isSome) :
    ∃ hs, s.heights = .ok hs ∧ height ∈ hs := by
  obtain ⟨content, hread⟩ : ∃ content, s.dir.read (s.naming.fileName height) = .ok content := by
    unfold readable read at h
    cases hread : s.dir.read (s.naming.fileName height) with
    | error e => simp [hread, Except.toOption] at h
    | ok content => exact ⟨content, rfl⟩
  obtain ⟨names, hnames, hmem⟩ :=
    Directory.mem_names_of_read (hflat.slash_not_mem height) (Naming.isForward_fileName _ height) hread
  refine ⟨_, by rw [heights, hnames], ?_⟩
  exact List.mem_mergeSort.mpr (List.mem_filterMap.mpr ⟨_, hmem, Naming.height?_fileName _ height⟩)

theorem pairwise_heights (h : s.heights = .ok hs) : hs.Pairwise (· ≤ ·) := by
  unfold heights at h
  split at h
  · cases h
  · cases h
    refine (List.pairwise_mergeSort (fun a b c hab hbc => ?_) (fun a b => ?_) _).imp fun h => of_decide_eq_true h
    · exact decide_eq_true (UInt64.le_trans (of_decide_eq_true hab) (of_decide_eq_true hbc))
    · rw [Bool.or_eq_true, decide_eq_true_iff, decide_eq_true_iff]
      exact UInt64.le_total a b

end Store

end ReplicatedLedger
