/-! # Addresses

An address is a host and, behind the last colon, a port in decimal digits, which a plus sign may precede. No
host holds a NUL. -/

namespace ReplicatedLedger.Sync

/-- Whether characters are a port: at most 65535. -/
def isPort (s : List Char) : Bool :=
  let digits := match s with
    | '+' :: r => r
    | r => r
  digits ≠ [] && digits.all Char.isDigit &&
    digits.foldl (fun v c => 10 * v + (c.toNat - '0'.toNat)) 0 < UInt16.size

/-- Whether a text is an address. -/
def isAddress (s : String) : Bool :=
  let cs := s.toList
  cs.contains ':' && !cs.contains (Char.ofNat 0) && isPort (cs.reverse.takeWhile (· ≠ ':')).reverse

end ReplicatedLedger.Sync
