/-! # Failures of files and connections

The ways in which an operation on a file, a directory or a connection fails, as far as the ledger can meet
them. -/

namespace ReplicatedLedger

/-- A failed operation on a file, a directory or a connection. -/
inductive IoError where
  /-- There is no such file or directory. -/
  | notFound
  /-- The input ended too early. -/
  | unexpectedEof
  /-- Something of that name is already there. -/
  | alreadyExists
  /-- A file was expected where a directory is. -/
  | isDirectory
  /-- A directory was expected where a file is. -/
  | notDirectory
  /-- Nobody listens at the address. -/
  | connectionRefused
  /-- An argument is unusable. -/
  | invalidInput
  /-- A name or a path is longer than it may be. -/
  | nameTooLong
  /-- The place is in use. -/
  | busy
  /-- The medium did not take the bytes. -/
  | storageFull
  deriving DecidableEq

/-- Display text. -/
def IoError.message : IoError → String
  | notFound => "entity not found"
  | unexpectedEof => "unexpected end of file"
  | alreadyExists => "entity already exists"
  | isDirectory => "is a directory"
  | notDirectory => "not a directory"
  | connectionRefused => "connection refused"
  | invalidInput => "invalid input parameter"
  | nameTooLong => "invalid filename"
  | busy => "resource busy"
  | storageFull => "no storage space"

end ReplicatedLedger
