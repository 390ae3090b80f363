import ReplicatedLedger.Bytes
import ReplicatedLedger.IoError
import ReplicatedLedger.SortedMap
import ReplicatedLedger.Store.Path

/-! # Directories

A directory is a place in a tree of files and folders, where a folder should stand; there may also be nothing
or a plain file. Files are named by paths that start at the directory. A plain name leads to an entry of the
directory itself (`locate_plain`); other paths may lead into its folders or out of it. The medium may refuse to
take the bytes of a file that is put in place as a whole; `verdicts` says whether it takes those of the writes to
come. -/

namespace ReplicatedLedger

/-- What stands under a name. -/
inductive Entry where
  | file (content : Bytes)
  | folder
  deriving DecidableEq

/-- A place in a tree: its name, and then the names of the folders around it, the innermost first. The root
has no name. -/
abbrev Place := List String

instance : LE Place := List.instLE

instance : Std.IsLinearOrder Place := inferInstance

instance : Std.LawfulOrderLT Place := inferInstance

/-- The length of the longest name, in bytes. -/
def nameLimit : Nat := 255

/-- The length of the longest path from the root, in bytes. -/
def pathLimit : Nat := 4095

/-- The length of the path from the root, in bytes: a slash and a name for each folder. -/
def Place.pathSize (p : Place) : Nat := p.foldr (fun name n => name.utf8ByteSize + 1 + n) 0

/-- Whether there are paths through a place to all names. -/
abbrev Place.HasRoom (p : Place) : Prop := p.pathSize + 1 + nameLimit ≤ pathLimit

/-- A directory, in a tree on a medium. -/
structure Directory where
  place : Place
  /-- What stands in the tree, the root included. -/
  tree : SortedMap Place Entry
  /-- Whether the medium takes the bytes of the writes to come; those beyond the list it takes. -/
  verdicts : List Bool
  room : place.HasRoom
  deriving DecidableEq

namespace Directory

/-- A tree with nothing but the folders around a place. -/
def around : Place → SortedMap Place Entry
  | [] => .empty
  | _ :: p => (around p).insert p .folder

/-- A vacant place on a medium that takes everything. -/
def vacant (place : Place) (room : place.HasRoom) : Directory := ⟨place, around place, [], room⟩

/-- A directory with nothing in it, on a medium that takes everything. -/
def empty (place : Place) (room : place.HasRoom) : Directory :=
  ⟨place, (around place).insert place .folder, [], room⟩

/-! ### Ways through the tree -/

/-- Whether a folder stands at a place. -/
def enter (d : Directory) (p : Place) : Except IoError Unit :=
  match d.tree.get? p with
  | none => .error .notFound
  | some (.file _) => .error .notDirectory
  | some .folder => .ok ()

/-- The place to which steps lead from a place. -/
def walk (d : Directory) : Place → List String → Except IoError Place
  | p, [] => .ok p
  | p, step :: steps =>
    match d.enter p with
    | .error e => .error e
    | .ok () =>
      if Path.stays step then d.walk p steps
      else if step = ".." then d.walk p.tail steps
      else if nameLimit < step.utf8ByteSize then .error .nameTooLong
      else d.walk (step :: p) steps

/-- Where a path starts. -/
def start (d : Directory) (p : Path) : Place := if p.isAbsolute then [] else d.place

/-- The path that a text writes, which holds no NUL and, counted from the root, is not too long. -/
def path (d : Directory) (text : String) : Except IoError Path :=
  let p := Path.ofText text
  let lead := if p.isAbsolute then 0 else d.place.pathSize + 1
  if text.toList.contains (Char.ofNat 0) then .error .invalidInput
  else if pathLimit < lead + text.utf8ByteSize then .error .nameTooLong
  else .ok p

/-- The place to which a path leads. -/
def locate (d : Directory) (text : String) : Except IoError Place :=
  match d.path text with
  | .error e => .error e
  | .ok p => d.walk (d.start p) p.steps

/-- Where a path ends that is to be filled or cleared. -/
inductive Ending where
  /-- At a name in a folder that is there; `slashed` if slashes follow, as they may for a folder. -/
  | named (place : Place) (slashed : Bool)
  /-- At no name: at dots or at the root. -/
  | nameless

/-- The ending of a path. Without any step it ends at the directory. -/
def ending (d : Directory) (text : String) : Except IoError Ending := do
  let p ← d.path text
  match p.last? with
  | none => return if p.isAbsolute then .nameless else .named d.place true
  | some (step, before) =>
    let folder ← d.walk (d.start p) before
    d.enter folder
    return if step = "." ∨ step = ".." then .nameless else .named (step :: folder) p.isSlashed

/-- What stands at a place in a folder that is there. -/
def find (d : Directory) (p : Place) : Except IoError (Option Entry) :=
  if nameLimit < (p.headD "").utf8ByteSize then .error .nameTooLong else .ok (d.tree.get? p)

/-! ### Views -/

/-- What stands where a path leads. -/
def lookup (d : Directory) (text : String) : Except IoError Entry :=
  match d.locate text with
  | .error e => .error e
  | .ok p =>
    match d.tree.get? p with
    | none => .error .notFound
    | some e => .ok e

/-- The content of a file. -/
def read (d : Directory) (text : String) : Except IoError Bytes :=
  match d.lookup text with
  | .error e => .error e
  | .ok .folder => .error .isDirectory
  | .ok (.file content) => .ok content

/-- Whether a path leads to a file. -/
def isFile (d : Directory) (text : String) : Bool := (d.read text).isOk

/-- The names in the directory with what stands under them, ascending. -/
def entries (d : Directory) : Except IoError (List (String × Entry)) :=
  match d.enter d.place with
  | .error e => .error e
  | .ok () => .ok <| d.tree.entries.filterMap fun
    | ([], _) => none
    | (name :: p, e) => if p = d.place then some (name, e) else none

/-- The names in the directory, ascending. -/
def names (d : Directory) : Except IoError (List String) := d.entries.map (·.map Prod.fst)

/-! ### The directory itself -/

/-- Makes the directory where it is missing. -/
def ensure (d : Directory) : Except IoError Directory :=
  match d.tree.get? d.place with
  | none => .ok { d with tree := d.tree.insert d.place .folder }
  | some (.file _) => .error .alreadyExists
  | some .folder => .ok d

/-- Puts an empty plain file in the place of the directory. -/
def obstruct (d : Directory) : Except IoError Directory :=
  if d.tree.get? d.place = some .folder then .error .isDirectory
  else .ok { d with tree := d.tree.insert d.place (.file []) }

/-- Removes the directory with all that is in it. -/
def clear (d : Directory) : Except IoError Directory :=
  match d.enter d.place with
  | .error e => .error e
  | .ok () => .ok { d with tree := d.tree.filter fun e => !d.place.isSuffixOf e.1 }

/-! ### Files and folders -/

/-- Stores a file: a new one, or the content of the one that is there. -/
def put (d : Directory) (text : String) (content : Bytes) : Except IoError Directory := do
  match ← d.ending text with
  | .nameless | .named _ true => throw .isDirectory
  | .named p false =>
    if (← d.find p) = some .folder then throw .isDirectory
    return { d with tree := d.tree.insert p (.file content) }

/-- Makes a folder under a name that is free. -/
def makeFolder (d : Directory) (text : String) : Except IoError Directory := do
  match ← d.ending text with
  | .nameless => throw .alreadyExists
  | .named p _ =>
    if (← d.find p).isSome then throw .alreadyExists
    return { d with tree := d.tree.insert p .folder }

/-- Removes a file. -/
def remove (d : Directory) (text : String) : Except IoError Directory := do
  match ← d.ending text with
  | .nameless => throw .isDirectory
  | .named p slashed =>
    match ← d.find p, slashed with
    | none, _ => throw .notFound
    | some .folder, _ => throw .isDirectory
    | some (.file _), true => throw .notDirectory
    | some (.file _), false => return { d with tree := d.tree.erase p }

/-- Moves a finished file to the end of a path, in place of a file that stands there. -/
def moveIn (d : Directory) (text : String) (content : Bytes) : Except IoError Directory := do
  match ← d.ending text with
  | .nameless => throw .busy
  | .named p slashed =>
    match ← d.find p, slashed with
    | _, true => throw .notDirectory
    | some .folder, false => throw .isDirectory
    | _, false => return { d with tree := d.tree.insert p (.file content) }

/-- Puts a file at the end of a path, whole or not at all: the directory takes its bytes, and then the file
is moved. -/
def write (d : Directory) (text : String) (content : Bytes) : Except IoError Unit × Directory :=
  match d.enter d.place, d.verdicts with
  | .error e, _ => (.error e, d)
  | .ok (), false :: later => (.error .storageFull, { d with verdicts := later })
  | .ok (), verdicts =>
    let d := { d with verdicts := verdicts.tail }
    match d.moveIn text content with
    | .error e => (.error e, d)
    | .ok d => (.ok (), d)

/-! ### Plain names -/

/-- Whether a text is a name, and not a path through several places. -/
def IsName (text : String) : Prop :=
  '/' ∉ text.toList ∧ Char.ofNat 0 ∉ text.toList ∧ text ∉ ["", ".", ".."] ∧ text.utf8ByteSize ≤ nameLimit

theorem isAbsolute_ofText_of_isName {name : String} (h : IsName name) :
    (Path.ofText name).isAbsolute = false := by
  have : name.toList.head? ≠ some '/' := fun e => h.1 (List.mem_of_mem_head? e)
  simp [Path.ofText, this]

theorem path_of_isName (d : Directory) {name : String} (h : IsName name) :
    d.path name = .ok (.ofText name) := by
  have hr : d.place.pathSize + 1 + nameLimit ≤ pathLimit := d.room
  have hl := h.2.2.2
  have : ¬ pathLimit < d.place.pathSize + 1 + name.utf8ByteSize := by omega
  simp [path, h.2.1, isAbsolute_ofText_of_isName h, this]

theorem start_ofText_of_isName (d : Directory) {name : String} (h : IsName name) :
    d.start (.ofText name) = d.place := by
  simp [start, isAbsolute_ofText_of_isName h]

theorem locate_plain {d : Directory} {name : String} (hd : d.tree.get? d.place = some .folder)
    (h : IsName name) : d.locate name = .ok (name :: d.place) := by
  obtain ⟨-, -, hs, hl⟩ := id h
  simp only [List.mem_cons, List.not_mem_nil, or_false, not_or] at hs
  simp [locate, path_of_isName d h, start_ofText_of_isName d h, Path.steps_ofText_of_plain h.1, walk, enter, hd,
    Path.stays, hs, hl]

end Directory

end ReplicatedLedger
