import ReplicatedLedger.DataError
import ReplicatedLedger.Digest

/-! # Wire format of the basic fields

Numbers are big-endian of fixed width. Byte strings and texts follow their length in four bytes, lists
their number of elements in four bytes. An optional digest is a byte string of no bytes or of twenty.
Every field has an encoder and a reader; a reader takes its field off the front of the bytes and leaves
the rest, and `Wire.exactly` refuses a rest. -/

namespace ReplicatedLedger

/-- A computation that takes a value off the front of the remaining bytes. -/
abbrev Reader := StateT Bytes (Except DataError)

namespace Wire

/-- Refuses the bytes. -/
def fail {α : Type} (cause : Malformed) : Reader α := throw (.malformed cause)

/-- The next `n` bytes. -/
def take (n : Nat) : Reader Bytes := fun d =>
  let front := d.take n
  if front.length = n then .ok (front, d.drop n) else .error (.malformed .unexpectedEnd)

/-- What `r` takes off the bytes, if nothing remains. -/
def exactly {α : Type} (r : Reader α) (d : Bytes) : Except DataError α :=
  match r d with
  | .error e => .error e
  | .ok (a, rest) => if rest = [] then .ok a else .error (.malformed (.trailing rest.length))

/-! ### Numbers -/

/-- A byte. -/
def readByte : Reader UInt8 := do return (← take 1).headD 0

/-- Four bytes. -/
def u32 (w : UInt32) : Bytes := Bytes.bigEndian 4 w.toNat

/-- Reads four bytes. -/
def readU32 : Reader UInt32 := do return .ofNat (← take 4).toNat

/-- Eight bytes. -/
def u64 (w : UInt64) : Bytes := Bytes.bigEndian 8 w.toNat

/-- Reads eight bytes. -/
def readU64 : Reader UInt64 := do return .ofNat (← take 8).toNat

/-- Eight bytes, two's complement. -/
def i64 (w : Int64) : Bytes := u64 w.toUInt64

/-- Reads eight bytes, two's complement. -/
def readI64 : Reader Int64 := do return (← readU64).toInt64

/-- One byte, zero or one. -/
def flag (b : Bool) : Bytes := [if b then 1 else 0]

/-- Reads a flag. -/
def readFlag : Reader Bool := do
  match ← readByte with
  | 0 => return false
  | 1 => return true
  | _ => fail .flag

/-! ### Byte strings, texts, digests -/

/-- A length or number of elements; only its low 32 bits are kept. -/
def size (n : Nat) : Bytes := u32 n.toUInt32

/-- A byte string behind its length. -/
def blob (bs : Bytes) : Bytes := size bs.length ++ bs

/-- Reads a byte string. -/
def readBlob : Reader Bytes := do take (← readU32).toNat

/-- A text behind its length. -/
def text (s : String) : Bytes := blob (Bytes.ofText s)

/-- Reads a text. -/
def readText : Reader String := do
  match Bytes.toText? (← readBlob) with
  | some s => return s
  | none => fail .text

/-- Reads the twenty bytes of a digest. -/
def readDigest : Reader Digest := do
  match Digest.ofBytes? (← take Digest.byteLength) with
  | some h => return h
  | none => fail .unexpectedEnd

/-- An optional digest. -/
def digest? (h : Option Digest) : Bytes := blob ((h.map Digest.bytes).getD [])

/-- Reads an optional digest. -/
def readDigest? : Reader (Option Digest) := do
  let n := (← readU32).toNat
  if n = 0 then return none
  else if n = Digest.byteLength then return some (← readDigest)
  else fail (.digestLength n)

/-! ### Lists -/

/-- Reads a number of elements. Every element takes at least four bytes, so a larger number than these
allow is refused before anything is read. -/
def readCount : Reader Nat := do
  let n := (← readU32).toNat
  if n > (← get).length / 4 + 1 then fail (.count n) else return n

/-- Reads `n` elements. -/
def many {α : Type} (r : Reader α) : Nat → Reader (List α)
  | 0 => return []
  | n + 1 => do
    let a ← r
    let as ← many r n
    return a :: as

end Wire

end ReplicatedLedger
