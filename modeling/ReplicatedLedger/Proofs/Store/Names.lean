import ReplicatedLedger.Store.Basic
import ReplicatedLedger.Proofs.Codec.Block
import ReplicatedLedger.Proofs.Store.Files
import Std.Data.String.ToNat

/-! # One file for each height

A file name leads on when the extension does not go back behind its first slash, so above all when it
has no slash. Then the paths of two heights part at the step in which the height stands
(`Naming.exists_steps`), so that they lead to different places (`Naming.LeadsOn.apart`). A block that was written is
read back under its height (`readable_write_self`), and every height whose path leads elsewhere reads as before
(`readable_write_of_apart`). -/

namespace ReplicatedLedger.Store

/-! ### The steps of a path with a given end -/

theorem splitOn_cons (c : Char) (cs : List Char) : (c :: cs).splitOn '/' =
    if c = '/' then [] :: cs.splitOn '/' else (cs.splitOn '/').modifyHead (List.cons c) := by
  rw [List.splitOn_eq_splitOnP, List.splitOn_eq_splitOnP, List.splitOnP_cons_eq_if_modifyHead]
  simp

/-- Without slashes, a beginning of a path is part of the first step. -/
theorem splitOn_append_of_not_mem {front : List Char} (h : '/' ∉ front) (back : List Char) :
    (front ++ back).splitOn '/' = (back.splitOn '/').modifyHead (front ++ ·) := by
  induction front with
  | nil => exact (congrFun List.modifyHead_id _).symm
  | cons c front ih =>
    obtain ⟨hc, hfront⟩ : '/' ≠ c ∧ '/' ∉ front := by simpa using h
    rw [List.cons_append, splitOn_cons, if_neg hc.symm, ih hfront, List.modifyHead_modifyHead]
    rfl

/-- The steps of a beginning are followed by those of the end, of which the first goes on with the last
step of the beginning. -/
theorem exists_splitOn_append (front : List Char) : ∃ before last, ∀ back,
    (front ++ back).splitOn '/' = before ++ (back.splitOn '/').modifyHead (last ++ ·) := by
  induction front with
  | nil => exact ⟨[], [], fun back => (congrFun List.modifyHead_id _).symm⟩
  | cons c front ih =>
    obtain ⟨before, last, h⟩ := ih
    by_cases hc : c = '/'
    · refine ⟨[] :: before, last, fun back => ?_⟩
      rw [List.cons_append, splitOn_cons, if_pos hc, h, List.cons_append]
    · cases before with
      | nil =>
        refine ⟨[], c :: last, fun back => ?_⟩
        rw [List.cons_append, splitOn_cons, if_neg hc, h, List.nil_append, List.modifyHead_modifyHead]
        rfl
      | cons step before =>
        refine ⟨(c :: step) :: before, last, fun back => ?_⟩
        rw [List.cons_append, splitOn_cons, if_neg hc, h]
        rfl

/-! ### File names -/

namespace Naming

/-- The extension does not go back behind its first slash. -/
def LeadsOn (n : Naming) : Prop := ".." ∉ (Path.ofText n.extension).steps.tail

instance (n : Naming) : Decidable n.LeadsOn := inferInstanceAs (Decidable (_ ∉ _))

/-- What stands in a file name between the base and the extension. -/
def mark (height : UInt64) : List Char := '_' :: (toString height.toNat).toList ++ ['.']

theorem toList_fileName (n : Naming) (height : UInt64) :
    (n.fileName height).toList = n.base.toList ++ (mark height ++ n.extension.toList) := by
  simp [fileName, mark, String.toList_append]

theorem mark_injective : Function.Injective mark := by
  intro height height' h
  have hdigits : (toString height.toNat).toList = (toString height'.toNat).toList :=
    List.append_cancel_right (List.cons.inj h).2
  have hrepr : Nat.repr height.toNat = Nat.repr height'.toNat := String.toList_injective hdigits
  exact UInt64.toNat_inj.mp (Nat.repr_inj.mp hrepr)

theorem slash_not_mem_mark (height : UInt64) : '/' ∉ mark height := by
  have hdigits : '/' ∉ Nat.toDigits 10 height.toNat := fun hmem =>
    absurd (Nat.isDigit_of_mem_toDigits (by omega) (by omega) hmem) (by decide)
  simp [mark, hdigits]

theorem isForward_of_mem {step : List Char} (h : '_' ∈ step) : Path.IsForward (String.ofList step) := by
  have hne : ∀ text : String, '_' ∉ text.toList → String.ofList step ≠ text := by
    rintro text htext rfl
    exact htext (by simpa using h)
  refine ⟨?_, hne ".." (by decide)⟩
  simp only [Path.stays, hne "" (by decide), hne "." (by decide), decide_false, Bool.or_false]

/-- **The paths of all heights** are the same but for one step, which is another name for every height;
behind it the steps of the extension follow. -/
theorem exists_steps (n : Naming) : ∃ (before : List String) (step : UInt64 → String),
    step.Injective ∧ (∀ height, Path.IsForward (step height)) ∧ ∀ height,
      (Path.ofText (n.fileName height)).steps =
        before ++ step height :: (Path.ofText n.extension).steps.tail := by
  obtain ⟨before, last, hsplit⟩ := exists_splitOn_append n.base.toList
  obtain ⟨first, later, hext⟩ : ∃ first later, n.extension.toList.splitOn '/' = first :: later :=
    List.exists_cons_of_ne_nil (List.splitOnP_ne_nil _ _)
  refine ⟨before.map String.ofList, fun height => String.ofList (last ++ (mark height ++ first)), ?_, ?_, ?_⟩
  · intro height height' heq
    exact mark_injective (List.append_cancel_right (List.append_cancel_left (String.ofList_injective heq)))
  · exact fun height => isForward_of_mem (by simp [mark])
  · intro height
    have hsteps : (n.fileName height).toList.splitOn '/' =
        before ++ (last ++ (mark height ++ first)) :: later := by
      rw [toList_fileName, hsplit, splitOn_append_of_not_mem (slash_not_mem_mark height), hext]
      rfl
    simp [Path.ofText, hsteps, hext]

/-- Whether a file's path starts at the root is the same for all heights. -/
theorem isAbsolute_fileName (n : Naming) (height height' : UInt64) :
    (Path.ofText (n.fileName height)).isAbsolute = (Path.ofText (n.fileName height')).isAbsolute := by
  simp only [Path.ofText, toList_fileName]
  cases n.base.toList <;> rfl

end Naming

/-! ### Blocks -/

variable {s : Store} {b : Block}

/-- The store with other verdicts of its medium to come. -/
def withVerdicts (s : Store) (vs : List Bool) : Store := { s with dir := { s.dir with verdicts := vs } }

/-- A refused write uses up verdicts at most. -/
theorem write_of_error {e : StoreError} (h : (s.write b).1 = .error e) :
    ∃ vs, (s.write b).2 = s.withVerdicts vs := by
  obtain ⟨e, vs, hw⟩ | ⟨p, vs, hw, -⟩ :=
    s.dir.write_cases (s.naming.fileName b.height) (Block.Record.encode b)
  · refine ⟨vs, ?_⟩
    simp only [write, hw]
    rfl
  · simp [write, hw] at h

theorem naming_write (s : Store) (b : Block) : (s.write b).2.naming = s.naming := by
  unfold write
  split <;> rfl

theorem dir_write (s : Store) (b : Block) :
    (s.write b).2.dir = (s.dir.write (s.naming.fileName b.height) (Block.Record.encode b)).2 := by
  unfold write
  split <;> rename_i h <;> rw [h]

/-- A store takes a block when its directory takes the record. -/
theorem dir_write_of_ok (h : (s.write b).1 = .ok ()) :
    (s.dir.write (s.naming.fileName b.height) (Block.Record.encode b)).1 = .ok () := by
  unfold write at h
  split at h
  · cases h
  · rename_i hdir
    rw [hdir]

/-- What the file of a height holds, if it can be read. -/
def content? (s : Store) (height : UInt64) : Option Bytes := (s.dir.read (s.naming.fileName height)).toOption

/-- A block is read when its record is in the file of its height. -/
theorem read_eq_ok_iff {height : UInt64} : s.read height = .ok b ↔
    ∃ content, s.content? height = some content ∧ Block.Record.decode content = .ok b ∧ b.height = height := by
  unfold read content?
  cases s.dir.read (s.naming.fileName height) with
  | error e => simp [Except.toOption]
  | ok content =>
    simp only [Except.toOption, Option.some.injEq, exists_eq_left']
    cases Block.Record.decode content with
    | error e => simp
    | ok c =>
      dsimp only
      split_ifs with hheight
      · rw [Except.ok.injEq, Except.ok.injEq]
        exact ⟨fun h => ⟨h, h ▸ hheight⟩, fun h => h.1⟩
      · constructor
        · rintro ⟨⟩
        · rintro ⟨h, hb⟩
          cases h
          exact absurd hb hheight

theorem readable_eq_some_iff {height : UInt64} : s.readable height = some b ↔ s.read height = .ok b :=
  toOption_eq_some_iff

/-- Whether a block can be read is decided by what the file of the height holds. -/
theorem readable_congr {s' : Store} {height : UInt64} (h : s'.content? height = s.content? height) :
    s'.readable height = s.readable height := by
  ext b
  simp only [readable_eq_some_iff, read_eq_ok_iff, h]

/-- A readable block has the height of its file. -/
theorem height_of_readable {height : UInt64} (h : s.readable height = some b) : b.height = height := by
  obtain ⟨-, -, -, hheight⟩ := read_eq_ok_iff.mp (readable_eq_some_iff.mp h)
  exact hheight

theorem content?_write_self (hok : (s.write b).1 = .ok ()) :
    (s.write b).2.content? b.height = some (Block.Record.encode b) := by
  unfold content?
  rw [naming_write, dir_write, Directory.read_write_self (dir_write_of_ok hok)]
  rfl

theorem readable_of_content? (hfits : Wire.FitsSize (1 + b.encode.length))
    (h : s.content? b.height = some (Block.Record.encode b)) : s.readable b.height = some b :=
  readable_eq_some_iff.mpr (read_eq_ok_iff.mpr ⟨_, h, Block.Record.decode_encode hfits, rfl⟩)

/-- **A written block** is read back under its height. -/
theorem readable_write_self (hfits : Wire.FitsSize (1 + b.encode.length)) (hok : (s.write b).1 = .ok ()) :
    (s.write b).2.readable b.height = some b := readable_of_content? hfits (content?_write_self hok)

/-! ### Places -/

/-- The path of the height leads to the place. -/
def LeadsTo (s : Store) (height : UInt64) (p : Place) : Prop := s.dir.locate (s.naming.fileName height) = .ok p

instance (s : Store) (height : UInt64) (p : Place) : Decidable (s.LeadsTo height p) :=
  inferInstanceAs (Decidable (_ = _))

/-- The paths of two heights do not lead to one place. -/
def Apart (s : Store) (height height' : UInt64) : Prop := ∀ p, s.LeadsTo height p → ¬ s.LeadsTo height' p

variable {s' : Store} {height height' : UInt64}

/-- **Paths that lead on** keep different heights apart. -/
theorem Naming.LeadsOn.apart (hon : s.naming.LeadsOn) (hne : height ≠ height') : s.Apart height height' := by
  obtain ⟨before, step, hinj, hforward, hsteps⟩ := s.naming.exists_steps
  intro p hp hp'
  exact Directory.ne_of_parting (s.naming.isAbsolute_fileName _ _) (hsteps height') (hsteps height) (hforward _)
    (hforward _) (hinj.ne hne) hon hp' hp rfl

/-- Where a path leads and what stands there is all that reading a height depends on. -/
theorem content?_congr (hleads : ∀ p, s'.LeadsTo height' p ↔ s.LeadsTo height p)
    (hget : ∀ p, s.LeadsTo height p → s'.dir.tree.get? p = s.dir.tree.get? p) :
    s'.content? height' = s.content? height := Directory.toOption_read_congr hleads hget

@[simp] theorem leadsTo_withVerdicts (s : Store) (vs : List Bool) {p : Place} :
    (s.withVerdicts vs).LeadsTo height p ↔ s.LeadsTo height p :=
  Eq.congr_left (Directory.locate_congr s.dir { s.dir with verdicts := vs } rfl rfl _)

@[simp] theorem content?_withVerdicts (s : Store) (vs : List Bool) (height : UInt64) :
    (s.withVerdicts vs).content? height = s.content? height :=
  content?_congr (fun _ => s.leadsTo_withVerdicts vs) fun _ _ => rfl

@[simp] theorem readable_withVerdicts (s : Store) (vs : List Bool) (height : UInt64) :
    (s.withVerdicts vs).readable height = s.readable height := readable_congr (s.content?_withVerdicts vs height)

theorem leadsTo_write (s : Store) (b : Block) {p : Place} : (s.write b).2.LeadsTo height p ↔ s.LeadsTo height p := by
  unfold LeadsTo
  rw [naming_write, dir_write]
  exact Directory.locate_write _ _ _

theorem apart_write (s : Store) (b : Block) : (s.write b).2.Apart height height' ↔ s.Apart height height' := by
  simp only [Apart, leadsTo_write]

theorem get?_write_of_ne {p : Place} (hne : ¬ s.LeadsTo b.height p) :
    (s.write b).2.dir.tree.get? p = s.dir.tree.get? p := by
  rw [dir_write]
  exact Directory.get?_write_of_ne hne

/-- **A height apart** from that of a written block has the file it had. -/
theorem content?_write_of_apart (hapart : s.Apart b.height height) :
    (s.write b).2.content? height = s.content? height :=
  content?_congr (fun _ => s.leadsTo_write b) fun p hp => get?_write_of_ne fun h => hapart p h hp

theorem readable_write_of_apart (hapart : s.Apart b.height height) :
    (s.write b).2.readable height = s.readable height := readable_congr (content?_write_of_apart hapart)

end ReplicatedLedger.Store
