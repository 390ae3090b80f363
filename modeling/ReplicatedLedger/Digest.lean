import ReplicatedLedger.Digest.Ripemd160
import ReplicatedLedger.Digest.Sha3

/-! # Digests

A digest is exactly 20 bytes. Transactions, block headers and the inner nodes of Merkle trees are all
identified by `Digest.of`, the RIPEMD-160 digest of the SHA3-512 digest. Digests are ordered by their
bytes, the first difference deciding. -/

namespace ReplicatedLedger

/-- A 20-byte content digest. -/
structure Digest where
  bytes : Bytes
  length_eq : bytes.length = 20

namespace Digest

/-- Bytes per digest. -/
def byteLength : Nat := 20

@[ext] theorem ext {a b : Digest} (h : a.bytes = b.bytes) : a = b := by
  cases a; cases b; simp_all

theorem ext_iff_same (a b : Digest) : Bytes.same a.bytes b.bytes = true ↔ a = b :=
  (Bytes.same_iff_eq _ _).trans ⟨ext, fun h => h ▸ rfl⟩

instance : DecidableEq Digest := fun a b => decidable_of_iff _ (ext_iff_same a b)

instance : LT Digest := ⟨fun a b => a.bytes < b.bytes⟩

instance : LE Digest := ⟨fun a b => a.bytes ≤ b.bytes⟩

instance (a b : Digest) : Decidable (a < b) := decidable_of_iff _ (Bytes.precedes_iff_lt a.bytes b.bytes)

instance (a b : Digest) : Decidable (a ≤ b) := inferInstanceAs (Decidable (a.bytes ≤ b.bytes))

instance : Std.IsLinearOrder Digest where
  le_refl a := Std.le_refl (a := a.bytes)
  le_trans a b c := Std.le_trans (a := a.bytes) (b := b.bytes) (c := c.bytes)
  le_antisymm a b h h' := ext (Std.le_antisymm (a := a.bytes) (b := b.bytes) h h')
  le_total a b := Std.le_total (a := a.bytes) (b := b.bytes)

instance : Std.LawfulOrderLT Digest where
  lt_iff a b := Std.LawfulOrderLT.lt_iff a.bytes b.bytes

instance : Ord Digest := ⟨fun a b => compare a.bytes b.bytes⟩

instance : Std.TransOrd Digest where
  eq_swap := Std.OrientedOrd.eq_swap (α := Bytes)
  isLE_trans := Std.TransOrd.isLE_trans (α := Bytes)

instance : Std.LawfulEqOrd Digest where
  compare_self := Std.ReflOrd.compare_self (α := Bytes)
  eq_of_compare h := ext (Std.LawfulEqOrd.eq_of_compare (α := Bytes) h)

/-- The digest with the given bytes, if there are 20 of them. -/
def ofBytes? (bs : Bytes) : Option Digest :=
  if h : bs.length = 20 then some ⟨bs, h⟩ else none

/-- The content digest of a byte string: SHA3-512, then RIPEMD-160. -/
def of (m : Bytes) : Digest := ⟨Ripemd160.hash (Sha3.hash512 m), Ripemd160.length_hash _⟩

/-- The digest of an inner Merkle node: that of the 40 bytes of its two children. -/
def ofPair (left right : Digest) : Digest := of (left.bytes ++ right.bytes)

/-- Display form: hexadecimal digits behind `0x`. -/
def render (d : Digest) : String := "0x" ++ d.bytes.toHex

/-- Display form of a digest that may be absent: a dash stands for none. -/
def renderOption : Option Digest → String
  | some d => d.render
  | none => "-"

end Digest

end ReplicatedLedger
