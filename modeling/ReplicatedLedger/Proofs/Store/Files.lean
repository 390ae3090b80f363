import ReplicatedLedger.Store.Directory
import Mathlib.Tactic.SplitIfs

/-! # What a written file changes

A write that is not refused puts the file at the place to which its path leads (`write_of_ok`). No folder stood
there, so that the file is in no walk's way (`walk_insert_file`), and every path leads where it led before
(`locate_write`). So the file reads back (`read_write_self`), and what stands at another place stays
(`get?_write_of_ne`). Two paths that part, and do not go back behind that step, lead to different places
(`ne_of_parting`). A refused write uses up verdicts at most (`write_cases`). -/

namespace ReplicatedLedger

theorem toOption_eq_some_iff {ε α : Type} {x : Except ε α} {a : α} : x.toOption = some a ↔ x = .ok a := by
  cases x <;> simp [Except.toOption]

/-- The last step of a path behind which no slash stands. -/
theorem Path.steps_of_last? {p : Path} {name : String} {before : List String}
    (h : p.last? = some (name, before)) (hslash : p.isSlashed = false) :
    p.steps = before ++ [name] ∧ name ≠ "" := by
  unfold last? at h
  unfold isSlashed at hslash
  cases hrev : p.steps.reverse with
  | nil => simp [hrev] at h
  | cons last rest =>
    have hsteps : p.steps = rest.reverse ++ [last] := by
      rw [← List.reverse_reverse p.steps, hrev, List.reverse_cons]
    have hlast : last ≠ "" := by
      intro he
      simp [hsteps, he] at hslash
    simp only [hrev, List.dropWhile_cons, decide_eq_false hlast] at h
    cases h
    exact ⟨hsteps, hlast⟩

/-- The step is a name: it neither stays nor goes back. -/
def Path.IsForward (step : String) : Prop := stays step = false ∧ step ≠ ".."

namespace Directory

variable {d d' : Directory} {text text' : String} {x : Place} {content : Bytes}

/-! ### Walks -/

theorem walk_append (d : Directory) (p : Place) (xs ys : List String) :
    d.walk p (xs ++ ys) = (d.walk p xs >>= fun q => d.walk q ys) := by
  induction xs generalizing p with
  | nil => rfl
  | cons x xs ih =>
    simp only [List.cons_append, walk]
    cases d.enter p with
    | error e => rfl
    | ok u =>
      simp only [ih]
      split_ifs <;> rfl

theorem enter_congr (htree : d'.tree = d.tree) (p : Place) : d'.enter p = d.enter p := by
  unfold enter
  rw [htree]

theorem walk_congr (htree : d'.tree = d.tree) (p : Place) (steps : List String) :
    d'.walk p steps = d.walk p steps := by
  induction steps generalizing p with
  | nil => rfl
  | cons step steps ih => simp only [walk, enter_congr htree, ih]

theorem enter_insert_of_ne (htree : d'.tree = d.tree.insert x (.file content)) {p : Place} (hne : p ≠ x) :
    d'.enter p = d.enter p := by
  unfold enter
  rw [htree, SortedMap.get?_insert, if_neg hne]

theorem ne_of_enter (hx : d.tree.get? x ≠ some .folder) {p : Place} (h : d.enter p = .ok ()) : p ≠ x := by
  rintro rfl
  unfold enter at h
  split at h
  · cases h
  · cases h
  · rename_i hget
    exact hx hget

/-- A file at a place where no folder stands is in no walk's way. -/
theorem walk_insert_file (htree : d'.tree = d.tree.insert x (.file content))
    (hx : d.tree.get? x ≠ some .folder) {steps : List String} {p q : Place}
    (h : d.walk p steps = .ok q) : d'.walk p steps = .ok q := by
  induction steps generalizing p with
  | nil => exact h
  | cons step steps ih =>
    simp only [walk] at h ⊢
    cases henter : d.enter p with
    | error e => simp [henter] at h
    | ok u =>
      rw [enter_insert_of_ne htree (ne_of_enter hx henter), henter]
      rw [henter] at h
      dsimp only at h ⊢
      split_ifs at h ⊢
      · exact ih h
      · exact ih h
      · exact ih h

/-- Such a file leads no walk further than before. -/
theorem walk_of_insert_file (htree : d'.tree = d.tree.insert x (.file content)) {steps : List String} {p q : Place}
    (h : d'.walk p steps = .ok q) : d.walk p steps = .ok q := by
  induction steps generalizing p with
  | nil => exact h
  | cons step steps ih =>
    simp only [walk] at h ⊢
    cases henter : d'.enter p with
    | error e => simp [henter] at h
    | ok u =>
      have hfile : d'.tree.get? x ≠ some .folder := by
        rw [htree, SortedMap.get?_insert, if_pos rfl]
        simp
      rw [henter] at h
      rw [← enter_insert_of_ne htree (ne_of_enter hfile henter), henter]
      dsimp only at h ⊢
      split_ifs at h ⊢
      · exact ih h
      · exact ih h
      · exact ih h

/-- Without going back a walk stays below the place where it starts. -/
theorem suffix_of_walk {steps : List String} (hback : ".." ∉ steps) {p q : Place}
    (h : d.walk p steps = .ok q) : p <:+ q := by
  induction steps generalizing p with
  | nil =>
    cases h
    exact List.suffix_refl _
  | cons step steps ih =>
    obtain ⟨hstep, hsteps⟩ : ".." ≠ step ∧ ".." ∉ steps := by simpa using hback
    simp only [walk] at h
    cases henter : d.enter p with
    | error e => simp [henter] at h
    | ok u =>
      rw [henter] at h
      dsimp only at h
      split_ifs at h with hstays heq
      · exact ih hsteps h
      · exact absurd heq.symm hstep
      · exact (List.suffix_cons step p).trans (ih hsteps h)

/-! ### Where a path leads -/

theorem eq_ofText_of_path {p : Path} (h : d.path text = .ok p) : p = .ofText text := by
  unfold path at h
  dsimp only at h
  split_ifs at h <;> exact (Except.ok.inj h).symm

theorem path_congr (hplace : d'.place = d.place) (text : String) : d'.path text = d.path text := by
  unfold path
  rw [hplace]

theorem start_congr (hplace : d'.place = d.place) (p : Path) : d'.start p = d.start p := by
  unfold start
  rw [hplace]

theorem ending_congr (d d' : Directory) (htree : d'.tree = d.tree) (hplace : d'.place = d.place)
    (text : String) :
    d'.ending text = d.ending text := by
  unfold ending
  simp only [path_congr hplace, start_congr hplace, walk_congr htree, enter_congr htree, hplace]

/-- A path that is to be filled leads to the place that is filled. -/
theorem locate_of_ending (h : d.ending text = .ok (.named x false))
    (hshort : (x.headD "").utf8ByteSize ≤ nameLimit) : d.locate text = .ok x := by
  unfold ending at h
  cases hpath : d.path text with
  | error e => simp [hpath, bind, Except.bind] at h
  | ok p =>
    simp only [hpath, bind, Except.bind] at h
    cases hlast : p.last? with
    | none =>
      simp only [hlast] at h
      split_ifs at h <;> cases h
    | some e =>
      obtain ⟨name, before⟩ := e
      simp only [hlast] at h
      cases hwalk : d.walk (d.start p) before with
      | error e => simp [hwalk] at h
      | ok folder =>
        cases henter : d.enter folder with
        | error e => simp [hwalk, henter] at h
        | ok u =>
          simp only [hwalk, henter, pure, Except.pure] at h
          split_ifs at h with hdots
          · cases h
          · obtain ⟨hx, hslash⟩ := Ending.named.inj (Except.ok.inj h)
            subst hx
            obtain ⟨hsteps, hne⟩ := Path.steps_of_last? hlast hslash
            obtain ⟨hdot, hback⟩ := not_or.mp hdots
            have hname : d.walk folder [name] = .ok (name :: folder) := by
              have hlong : ¬ nameLimit < name.utf8ByteSize := Nat.not_lt.mpr hshort
              simp [walk, henter, Path.stays, hne, hdot, hback, hlong]
            simp only [locate, hpath, hsteps, walk_append, hwalk]
            exact hname

/-! ### What a write does -/

/-- A file is moved to the end of a path where no folder stands. -/
theorem moveIn_eq_ok (h : d.moveIn text content = .ok d') :
    ∃ p, d.ending text = .ok (.named p false) ∧ (p.headD "").utf8ByteSize ≤ nameLimit ∧
      d.tree.get? p ≠ some .folder ∧ d' = { d with tree := d.tree.insert p (.file content) } := by
  unfold moveIn at h
  cases hending : d.ending text with
  | error e => simp [hending, bind, Except.bind] at h
  | ok e =>
    cases e with
    | nameless => simp [hending, bind, Except.bind, throw, throwThe, MonadExceptOf.throw] at h
    | named p slashed =>
      simp only [hending, bind, Except.bind, find] at h
      by_cases hlong : nameLimit < (p.headD "").utf8ByteSize
      · rw [if_pos hlong] at h
        cases h
      · rw [if_neg hlong] at h
        cases slashed with
        | true => simp [throw, throwThe, MonadExceptOf.throw] at h
        | false =>
          have hfree : d.tree.get? p ≠ some .folder := by
            intro hfolder
            simp [hfolder, throw, throwThe, MonadExceptOf.throw] at h
          refine ⟨p, rfl, by omega, hfree, ?_⟩
          cases hget : d.tree.get? p with
          | none => simpa [hget, pure, Except.pure] using h.symm
          | some entry =>
            cases entry with
            | file old => simpa [hget, pure, Except.pure] using h.symm
            | folder => exact absurd hget hfree

/-- A refused write uses up verdicts at most; otherwise the file stands where the path ends, and no
folder stood there. -/
theorem write_cases (d : Directory) (text : String) (content : Bytes) :
    (∃ e vs, d.write text content = (.error e, { d with verdicts := vs })) ∨
    (∃ x vs, d.write text content =
        (.ok (), { d with tree := d.tree.insert x (.file content), verdicts := vs }) ∧
      d.locate text = .ok x ∧ d.tree.get? x ≠ some .folder) := by
  unfold write
  split
  · exact Or.inl ⟨_, d.verdicts, rfl⟩
  · exact Or.inl ⟨_, _, rfl⟩
  · dsimp only
    split
    · exact Or.inl ⟨_, d.verdicts.tail, rfl⟩
    · rename_i hmove
      obtain ⟨x, hending, hshort, hfree, rfl⟩ := moveIn_eq_ok hmove
      refine Or.inr ⟨x, d.verdicts.tail, rfl, ?_, hfree⟩
      refine locate_of_ending ?_ hshort
      rw [← hending]
      exact (ending_congr d { d with verdicts := d.verdicts.tail } rfl rfl text).symm

/-- A write that is not refused puts the file where its path leads. -/
theorem write_of_ok (hok : (d.write text content).1 = .ok ()) :
    ∃ x, d.locate text = .ok x ∧ d.tree.get? x ≠ some .folder ∧
      (d.write text content).2.tree = d.tree.insert x (.file content) ∧
      (d.write text content).2.place = d.place := by
  obtain ⟨e, vs, hw⟩ | ⟨x, vs, hw, hlocate, hfree⟩ := write_cases d text content
  · rw [hw] at hok
    cases hok
  · exact ⟨x, hlocate, hfree, by rw [hw], by rw [hw]⟩

/-! ### Places after a write -/

theorem locate_congr (d d' : Directory) (htree : d'.tree = d.tree) (hplace : d'.place = d.place) (text : String) :
    d'.locate text = d.locate text := by
  unfold locate
  simp only [path_congr hplace, start_congr hplace, walk_congr htree]

/-- Paths lead where they led before a write. -/
theorem locate_write (d : Directory) (text : String) (content : Bytes) {text' : String} {p : Place} :
    (d.write text content).2.locate text' = .ok p ↔ d.locate text' = .ok p := by
  obtain ⟨e, vs, hw⟩ | ⟨x, vs, hw, -, hfree⟩ := d.write_cases text content
  · rw [hw, locate_congr d { d with verdicts := vs } rfl rfl text']
  · rw [hw]
    generalize hd : ({ d with tree := d.tree.insert x (.file content), verdicts := vs } : Directory) = d'
    have htree : d'.tree = d.tree.insert x (.file content) := by rw [← hd]
    have hplace : d'.place = d.place := by rw [← hd]
    unfold locate
    rw [path_congr hplace]
    cases d.path text' with
    | error e => rfl
    | ok q =>
      simp only [start_congr hplace]
      exact ⟨walk_of_insert_file htree, walk_insert_file htree hfree⟩

theorem get?_write_self (hok : (d.write text content).1 = .ok ()) (hlocate : d.locate text = .ok x) :
    (d.write text content).2.tree.get? x = some (.file content) := by
  obtain ⟨y, hy, -, htree, -⟩ := write_of_ok hok
  rw [hlocate] at hy
  cases hy
  rw [htree, SortedMap.get?_insert, if_pos rfl]

/-- **Where the path does not lead**, a write changes nothing. -/
theorem get?_write_of_ne (hne : d.locate text ≠ .ok x) :
    (d.write text content).2.tree.get? x = d.tree.get? x := by
  obtain ⟨e, vs, hw⟩ | ⟨y, vs, hw, hy, -⟩ := d.write_cases text content
  · rw [hw]
  · rw [hw, SortedMap.get?_insert, if_neg]
    rintro rfl
    exact hne hy

/-! ### Reading after a write -/

theorem read_eq_ok_iff : d.read text = .ok content ↔
    ∃ p, d.locate text = .ok p ∧ d.tree.get? p = some (.file content) := by
  unfold read lookup
  cases d.locate text with
  | error e => simp
  | ok p =>
    cases hget : d.tree.get? p with
    | none => simp [hget]
    | some e => cases e <;> simp [hget]

/-- Where a path leads and what stands there is all that reading depends on, but for the errors. -/
theorem toOption_read_congr (hlocate : ∀ p, d'.locate text' = .ok p ↔ d.locate text = .ok p)
    (hget : ∀ p, d.locate text = .ok p → d'.tree.get? p = d.tree.get? p) :
    (d'.read text').toOption = (d.read text).toOption := by
  ext c
  simp only [toOption_eq_some_iff, read_eq_ok_iff]
  refine exists_congr fun p => ?_
  rw [hlocate p]
  exact and_congr_right fun hp => by rw [hget p hp]

/-- A file that was written reads back. -/
theorem read_write_self (hok : (d.write text content).1 = .ok ()) :
    (d.write text content).2.read text = .ok content := by
  obtain ⟨x, hlocate, -⟩ := write_of_ok hok
  exact read_eq_ok_iff.mpr ⟨x, (d.locate_write text content).mpr hlocate, get?_write_self hok hlocate⟩

/-- What is read after a write is what was written, or what was read before. -/
theorem read_of_read_write {old : Bytes} (h : (d.write text content).2.read text' = .ok old) :
    old = content ∨ d.read text' = .ok old := by
  obtain ⟨p, hp, hget⟩ := read_eq_ok_iff.mp h
  have hbefore := (d.locate_write text content).mp hp
  by_cases hsame : d.locate text = .ok p
  · obtain ⟨e, vs, hw⟩ | ⟨x, vs, hw, hx, -⟩ := d.write_cases text content
    · rw [hw] at hget
      exact Or.inr (read_eq_ok_iff.mpr ⟨p, hbefore, hget⟩)
    · rw [hw, ← Except.ok.inj (hx.symm.trans hsame), SortedMap.get?_insert, if_pos rfl] at hget
      cases hget
      exact Or.inl rfl
  · rw [get?_write_of_ne hsame] at hget
    exact Or.inr (read_eq_ok_iff.mpr ⟨p, hbefore, hget⟩)

/-! ### Paths that part -/

/-- Before a path goes on to a name it is in a folder, and from there it leads below that name. -/
theorem exists_fork {before after : List String} {step : String} (hlocate : d.locate text = .ok x)
    (hsteps : (Path.ofText text).steps = before ++ step :: after) (hstep : Path.IsForward step)
    (hback : ".." ∉ after) :
    ∃ fork, d.walk (d.start (.ofText text)) before = .ok fork ∧ d.enter fork = .ok () ∧ step :: fork <:+ x := by
  unfold locate at hlocate
  cases hpath : d.path text with
  | error e => simp [hpath] at hlocate
  | ok p =>
    obtain rfl := eq_ofText_of_path hpath
    simp only [hpath, hsteps, walk_append] at hlocate
    cases hfork : d.walk (d.start (.ofText text)) before with
    | error e => simp [hfork, bind, Except.bind] at hlocate
    | ok fork =>
      simp only [hfork, bind, Except.bind, walk] at hlocate
      cases henter : d.enter fork with
      | error e => simp [henter] at hlocate
      | ok u =>
        simp only [henter, hstep.1, Bool.false_eq_true, if_false, if_neg hstep.2] at hlocate
        split_ifs at hlocate
        exact ⟨fork, rfl, henter, suffix_of_walk hback hlocate⟩

/-- **Paths that part** at some step, and do not go back behind it, lead to different places. -/
theorem ne_of_parting {before after : List String} {step step' : String} {x' : Place}
    (habs : (Path.ofText text').isAbsolute = (Path.ofText text).isAbsolute)
    (hsteps : (Path.ofText text).steps = before ++ step :: after)
    (hsteps' : (Path.ofText text').steps = before ++ step' :: after)
    (hstep : Path.IsForward step) (hstep' : Path.IsForward step') (hne : step' ≠ step) (hback : ".." ∉ after)
    (hlocate : d.locate text = .ok x) (hlocate' : d.locate text' = .ok x') : x' ≠ x := by
  rintro rfl
  obtain ⟨fork, hfork, -, hx⟩ := exists_fork hlocate hsteps hstep hback
  obtain ⟨fork', hfork', -, hx'⟩ := exists_fork hlocate' hsteps' hstep' hback
  have hstart : d.start (.ofText text') = d.start (.ofText text) := by
    unfold start
    rw [habs]
  rw [hstart, hfork] at hfork'
  cases hfork'
  -- behind the fork the two paths are apart, since places have one name for each folder around them
  have hsame := (List.suffix_of_suffix_length_le hx' hx (by simp)).eq_of_length (by simp)
  exact hne (List.cons.inj hsame).1

/-- A directory in the root with nothing in it. -/
def fresh : Directory := .empty ["blocks"] (by decide)

end Directory

end ReplicatedLedger
