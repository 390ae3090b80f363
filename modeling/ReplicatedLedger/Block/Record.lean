import ReplicatedLedger.Block.Wire
import ReplicatedLedger.IoError

/-! # Block records

In files and on streams a block is framed: the length of the rest in four bytes, a format version, and the
encoding. A stream may hold a marker instead of a block, a record of length zero. A file holds one record
and nothing else; records of a stream follow one another, and reading one leaves the rest of the
stream. -/

namespace ReplicatedLedger

/-- What can go wrong when a record is read from a stream. -/
inductive RecordError where
  /-- The stream failed or ended. -/
  | stream (cause : IoError)
  /-- The record holds no block. -/
  | decode (cause : DataError)
  /-- The record announces more bytes than are accepted. -/
  | tooLarge (length max : Nat)
  deriving DecidableEq

/-- Display text. -/
def RecordError.message : RecordError → String
  | stream e => "i/o error: " ++ e.message
  | decode e => "decode error: " ++ e.message
  | tooLarge n m => s!"record too large: {n} bytes (max {m})"

namespace Block.Record

open Wire

/-- The format version that is written and accepted. -/
def formatVersion : UInt8 := 1

/-- The longest record accepted from a stream. -/
def maxLength : Nat := 256 * 1024 * 1024

/-- The record of a block. -/
def encode (b : Block) : Bytes :=
  let body := b.encode
  Wire.size (1 + body.length) ++ formatVersion :: body

/-- The record that stands for no block. -/
def marker : Bytes := Wire.size 0

/-- The record of a block, or the marker. -/
def encodeItem : Option Block → Bytes
  | some b => encode b
  | none => marker

/-- The block framed by a record. -/
def unframe : Bytes → Except DataError Block
  | [] => .error (.malformed .emptyRecord)
  | version :: body =>
    if version = formatVersion then Block.decode body
    else .error (.unsupportedVersion formatVersion version)

/-- The framed bytes of a single record. -/
def readFrame : Reader Bytes := do
  let n := (← readU32).toNat
  if n = 0 then fail .emptyRecord else take n

/-- The block whose record is `d`. -/
def decode (d : Bytes) : Except DataError Block := exactly readFrame d >>= unframe

/-- Takes a record off a stream: a block, or none for the marker, and the rest of the stream. -/
def read (stream : Bytes) : Except RecordError (Option Block × Bytes) :=
  match readU32 stream with
  | .error _ => .error (.stream .unexpectedEof)
  | .ok (length, rest) =>
    let n := length.toNat
    if n = 0 then .ok (none, rest)
    else if n > maxLength then .error (.tooLarge n maxLength)
    else
      match take n rest with
      | .error _ => .error (.stream .unexpectedEof)
      | .ok (framed, rest) =>
        match unframe framed with
        | .error e => .error (.decode e)
        | .ok b => .ok (some b, rest)

end Block.Record

end ReplicatedLedger
