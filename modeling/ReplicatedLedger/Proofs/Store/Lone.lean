import ReplicatedLedger.Proofs.Store.Names

/-! # Directories with no folders near them

In a directory without folders of its own and without neighbours (`Directory.Lone`), so above all in an empty one,
a path cannot pass through a folder but those around the directory. An extension that goes back makes the path
of every height pass through a folder with a name of its own, so that no more than one height has a path that
leads anywhere (`eq_of_locate_fileName`). A store that can read a block then takes no block of another height
(`height_eq_of_write`). -/

namespace ReplicatedLedger

namespace Directory

/-- There are no folders but those around the directory, and itself. -/
def Lone (d : Directory) : Prop := ∀ p, d.tree.get? p = some .folder → p <:+ d.place

variable {d d' : Directory}

theorem suffix_of_get?_around {place p : Place} {e : Entry} (h : (around place).get? p = some e) : p <:+ place := by
  induction place with
  | nil => simp [around] at h
  | cons name place ih =>
    rw [around, SortedMap.get?_insert] at h
    split at h
    · rename_i heq
      exact heq ▸ List.suffix_cons name place
    · exact (ih h).trans (List.suffix_cons name place)

theorem lone_vacant (place : Place) (room : place.HasRoom) : (vacant place room).Lone :=
  fun _ h => suffix_of_get?_around h

theorem Lone.insert_folder (h : d.Lone) (hplace : d'.place = d.place)
    (htree : d'.tree = d.tree.insert d.place .folder) : d'.Lone := by
  intro p hp
  rw [hplace]
  rw [htree, SortedMap.get?_insert] at hp
  split at hp
  · rename_i heq
    exact heq ▸ List.suffix_refl _
  · exact h p hp

theorem lone_empty (place : Place) (room : place.HasRoom) : (empty place room).Lone :=
  (lone_vacant place room).insert_folder rfl rfl

theorem Lone.ensure (h : d.Lone) (hok : d.ensure = .ok d') : d'.Lone := by
  unfold Directory.ensure at hok
  split at hok
  · cases hok
    exact h.insert_folder rfl rfl
  · cases hok
  · cases hok
    exact h

theorem Lone.write (h : d.Lone) (text : String) (content : Bytes) : (d.write text content).2.Lone := by
  rcases d.write_cases text content with ⟨e, vs, hw⟩ | ⟨x, vs, hw, -⟩
  · rw [hw]
    exact h
  · intro p hp
    rw [hw] at hp ⊢
    simp only [SortedMap.get?_insert] at hp
    split at hp
    · cases hp
    · exact h p hp

/-- A walk that goes on behind a name passes through a folder of that name. -/
theorem folder_of_walk {p q : Place} {step next : String} {after : List String}
    (h : d.walk p (step :: next :: after) = .ok q) (hstep : Path.IsForward step) :
    d.tree.get? (step :: p) = some .folder := by
  rw [walk] at h
  cases henter : d.enter p with
  | error e => simp [henter] at h
  | ok u =>
    simp only [henter, hstep.1, if_neg hstep.2, Bool.false_eq_true, if_false] at h
    split at h
    · cases h
    · rw [walk] at h
      cases henter' : d.enter (step :: p) with
      | error e => simp [henter'] at h
      | ok u =>
        unfold enter at henter'
        split at henter'
        · cases henter'
        · cases henter'
        · assumption

end Directory

namespace Store

variable {d : Directory} {n : Naming} {s : Store} {b : Block} {height height' : UInt64} {x x' : Place}

/-- The path of a height that goes back passes through a folder at a place that is the same for all heights, but
for the name. -/
theorem exists_folder_of_locate (hback : ¬ n.LeadsOn) : ∃ (before : List String) (step : UInt64 → String),
    step.Injective ∧ ∀ {height x}, d.locate (n.fileName height) = .ok x →
      ∃ fork, d.walk (d.start (.ofText (n.fileName height))) before = .ok fork ∧
        d.tree.get? (step height :: fork) = some .folder := by
  obtain ⟨before, step, hinj, hforward, hsteps⟩ := n.exists_steps
  obtain ⟨next, after, htail⟩ : ∃ next after, (Path.ofText n.extension).steps.tail = next :: after :=
    List.exists_cons_of_ne_nil fun hnil => hback (by rw [Naming.LeadsOn, hnil]; exact List.not_mem_nil)
  refine ⟨before, step, hinj, fun {height x} hlocate => ?_⟩
  unfold Directory.locate at hlocate
  cases hpath : d.path (n.fileName height) with
  | error e => simp [hpath] at hlocate
  | ok p =>
    obtain rfl := Directory.eq_ofText_of_path hpath
    simp only [hpath, hsteps, htail, Directory.walk_append] at hlocate
    cases hfork : d.walk (d.start (.ofText (n.fileName height))) before with
    | error e => simp [hfork, bind, Except.bind] at hlocate
    | ok fork =>
      simp only [hfork, bind, Except.bind] at hlocate
      exact ⟨fork, rfl, Directory.folder_of_walk hlocate (hforward height)⟩

/-- **Names that go back** lead somewhere for one height only. -/
theorem eq_of_locate_fileName (hlone : d.Lone) (hback : ¬ n.LeadsOn) (h : d.locate (n.fileName height) = .ok x)
    (h' : d.locate (n.fileName height') = .ok x') : height = height' := by
  obtain ⟨before, step, hinj, hfolder⟩ := exists_folder_of_locate (d := d) hback
  obtain ⟨fork, hfork, hget⟩ := hfolder h
  obtain ⟨fork', hfork', hget'⟩ := hfolder h'
  have hstart : d.start (.ofText (n.fileName height)) = d.start (.ofText (n.fileName height')) := by
    unfold Directory.start
    rw [n.isAbsolute_fileName height height']
  rw [hstart, hfork'] at hfork
  cases hfork
  -- both folders are around the directory, and as far from the root
  have hsame := (List.suffix_of_suffix_length_le (hlone _ hget) (hlone _ hget') (by simp)).eq_of_length (by simp)
  exact hinj (List.cons.inj hsame).1

theorem exists_locate_of_readable (h : (s.readable height).isSome) :
    ∃ x, s.dir.locate (s.naming.fileName height) = .ok x := by
  cases hlocate : s.dir.locate (s.naming.fileName height) with
  | error e => simp [readable, read, Directory.read, Directory.lookup, hlocate, Except.toOption] at h
  | ok x => exact ⟨x, rfl⟩

/-- **A store whose names go back** takes no block but in place of the one that it can read. -/
theorem height_eq_of_write (hlone : s.dir.Lone) (hback : ¬ s.naming.LeadsOn) (hread : (s.readable height).isSome)
    (hok : (s.write b).1 = .ok ()) : b.height = height := by
  obtain ⟨x, hlocate⟩ := exists_locate_of_readable hread
  obtain ⟨x', hlocate', -⟩ := Directory.write_of_ok (dir_write_of_ok hok)
  exact eq_of_locate_fileName hlone hback hlocate' hlocate

end Store

end ReplicatedLedger
