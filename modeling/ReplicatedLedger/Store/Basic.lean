import ReplicatedLedger.Block.Record
import ReplicatedLedger.Store.Directory

/-! # Block stores

A store keeps every block as a record in a file of its own, under one directory. The file of the block at
height `h` has the path `base_h.extension`, with `h` in decimal; slashes in the two parts lead out of the
directory itself. A file of the directory counts for a height when its name reads so, also with leading zeros,
and it is read back under the name that the height has without them. -/

namespace ReplicatedLedger

/-- What can go wrong with a store. -/
inductive StoreError where
  /-- An operation on a file or on the directory failed. -/
  | file (cause : IoError)
  /-- The file of a height holds no block. -/
  | decode (height : UInt64) (cause : DataError)
  /-- The file of a height holds the block of another. -/
  | heightMismatch (expected found : UInt64)
  deriving DecidableEq

/-- Display text. -/
def StoreError.message : StoreError → String
  | file cause => "i/o error: " ++ cause.message
  | decode h cause => s!"block file for height {h.toNat} is corrupt: {cause.message}"
  | heightMismatch h k => s!"block file for height {h.toNat} holds height {k.toNat}"

/-- The paths of a store's files. -/
structure Store.Naming where
  base : String
  extension : String
  deriving DecidableEq

/-- The names unless others are configured. -/
def Store.Naming.standard : Store.Naming := ⟨"block", "blk"⟩

/-- A directory of block files. -/
structure Store where
  naming : Store.Naming
  dir : Directory
  deriving DecidableEq

namespace Store

/-! ### File names -/

/-- The path of the file of a height. -/
def Naming.fileName (n : Naming) (height : UInt64) : String :=
  n.base ++ "_" ++ toString height.toNat ++ "." ++ n.extension

/-- The path of the file of a height, trimmed, if it starts at the directory. -/
def Naming.relativePath? (n : Naming) (height : UInt64) : Option String :=
  let p := Path.ofText (n.fileName height)
  if p.isAbsolute then none else some p.trim.toText

/-- The rest of `s` behind the characters `front`. -/
def dropFront? : List Char → List Char → Option (List Char)
  | [], s => some s
  | _ :: _, [] => none
  | c :: front, d :: s => if c = d then dropFront? front s else none

/-- The characters of `s` before `back` at its end. -/
def dropBack? (back s : List Char) : Option (List Char) :=
  (dropFront? back.reverse s.reverse).map List.reverse

/-- The number that decimal digits write, if it fits 64 bits. -/
def decimal? (digits : List Char) : Option UInt64 :=
  if digits ≠ [] ∧ digits.all Char.isDigit then
    let n := digits.foldl (fun v c => 10 * v + (c.toNat - '0'.toNat)) 0
    if n < UInt64.size then some n.toUInt64 else none
  else none

/-- The height for which a file name counts. -/
def Naming.height? (n : Naming) (name : String) : Option UInt64 := do
  let rest ← dropFront? (n.base.toList ++ ['_']) name.toList
  let digits ← dropBack? ('.' :: n.extension.toList) rest
  decimal? digits

/-! ### Blocks -/

/-- The store with the given file names in a directory, which is made where it is missing. -/
def openIn (naming : Naming) (dir : Directory) : Except StoreError Store :=
  match dir.ensure with
  | .error e => .error (.file e)
  | .ok dir => .ok ⟨naming, dir⟩

/-- Whether there is a file for a height. -/
def contains (s : Store) (height : UInt64) : Bool := s.dir.isFile (s.naming.fileName height)

/-- Stores a block under its height, in place of what was there. -/
def write (s : Store) (b : Block) : Except StoreError Unit × Store :=
  match s.dir.write (s.naming.fileName b.height) (Block.Record.encode b) with
  | (.error e, dir) => (.error (.file e), { s with dir })
  | (.ok (), dir) => (.ok (), { s with dir })

/-- The block stored for a height. -/
def read (s : Store) (height : UInt64) : Except StoreError Block :=
  match s.dir.read (s.naming.fileName height) with
  | .error e => .error (.file e)
  | .ok content =>
    match Block.Record.decode content with
    | .error e => .error (.decode height e)
    | .ok b => if b.height = height then .ok b else .error (.heightMismatch height b.height)

/-- The block stored for a height, if it can be read. -/
def readable (s : Store) (height : UInt64) : Option Block := (s.read height).toOption

/-- The heights for which some file name counts, ascending. -/
def heights (s : Store) : Except StoreError (List UInt64) :=
  match s.dir.names with
  | .error e => .error (.file e)
  | .ok names => .ok ((names.filterMap s.naming.height?).mergeSort (· ≤ ·))

end Store

end ReplicatedLedger
