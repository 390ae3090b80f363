/-! # Byte strings

Everything that is hashed, signed, stored or sent is a list of bytes. This module has their order, the two
digit expansions of numbers (big-endian for all formats, little-endian inside the hash functions), the UTF-8
form of text, and the hexadecimal rendering. `precedes_iff_lt` says that the order is that of the first
difference, `toNat_bigEndian` and `bigEndian_toNat` say that
the big-endian digits and the number determine each other, `ofHex?_toHex` that the hexadecimal digits
determine the bytes. -/

namespace ReplicatedLedger

/-- A byte string. -/
abbrev Bytes := List UInt8

namespace Bytes

/-! ### Order -/

/-- Whether the first difference, or the end, puts one byte string before another. -/
def precedes : Bytes → Bytes → Bool
  | _, [] => false
  | [], _ :: _ => true
  | a :: as, b :: bs => a < b || a == b && precedes as bs

/-- Whether two byte strings are the same. -/
def same : Bytes → Bytes → Bool
  | [], [] => true
  | a :: as, b :: bs => a == b && same as bs
  | [], _ :: _ | _ :: _, [] => false

theorem precedes_iff_lt (a b : Bytes) : precedes a b = true ↔ a < b := by
  fun_induction precedes a b with
  | case1 => simp
  | case2 => simp
  | case3 a as b bs ih => simp [List.cons_lt_cons_iff, ih]

theorem same_iff_eq (a b : Bytes) : same a b = true ↔ a = b := by
  fun_induction same a b <;> simp_all

/-! ### Numbers -/

/-- The last `n` base-256 digits of `v`, most significant first. -/
def bigEndian : Nat → Nat → Bytes
  | 0, _ => []
  | n + 1, v => bigEndian n (v / 256) ++ [v.toUInt8]

/-- The last `n` base-256 digits of `v`, least significant first. -/
def littleEndian : Nat → Nat → Bytes
  | 0, _ => []
  | n + 1, v => v.toUInt8 :: littleEndian n (v / 256)

/-- The number whose base-256 digits are `bs`, most significant first. -/
def toNat (bs : Bytes) : Nat := bs.foldl (fun v b => 256 * v + b.toNat) 0

/-- The number whose base-256 digits are `bs`, least significant first. -/
def toNatLE (bs : Bytes) : Nat := bs.foldr (fun b v => 256 * v + b.toNat) 0

@[simp] theorem length_bigEndian (n v : Nat) : (bigEndian n v).length = n := by
  induction n generalizing v with
  | zero => rfl
  | succ n ih => simp [bigEndian, ih]

@[simp] theorem length_littleEndian (n v : Nat) : (littleEndian n v).length = n := by
  induction n generalizing v with
  | zero => rfl
  | succ n ih => simp [littleEndian, ih]

theorem toNat_append_singleton (bs : Bytes) (b : UInt8) :
    toNat (bs ++ [b]) = 256 * toNat bs + b.toNat := by
  simp [toNat, List.foldl_append]

/-- Reading the digits back gives the number, less what did not fit. -/
theorem toNat_bigEndian (n v : Nat) : toNat (bigEndian n v) = v % 1 <<< (8 * n) := by
  induction n generalizing v with
  | zero => simp [bigEndian, toNat, Nat.mod_one]
  | succ n ih =>
    have hstep : 1 <<< (8 * (n + 1)) = 256 * 1 <<< (8 * n) := by
      rw [Nat.mul_succ, Nat.shiftLeft_add, Nat.shiftLeft_eq, Nat.mul_comm]
    rw [bigEndian, toNat_append_singleton, ih, hstep, Nat.mod_mul,
      show v.toUInt8.toNat = v % 256 from by simp]
    omega

/-- Writing the number of a digit string gives the digit string back. -/
theorem bigEndian_toNat (bs : Bytes) : bigEndian bs.length (toNat bs) = bs := by
  suffices h : ∀ n (l : Bytes), l.length = n → bigEndian n (toNat l.reverse) = l.reverse by
    simpa using h bs.length bs.reverse (by simp)
  intro n
  induction n with
  | zero => intro l hl; simp [List.eq_nil_of_length_eq_zero hl, bigEndian]
  | succ n ih =>
    intro l hl
    match l, hl with
    | b :: l, hl =>
      have hb : b.toNat < 256 := b.toNat_lt
      have hdiv : toNat (l.reverse ++ [b]) / 256 = toNat l.reverse := by
        rw [toNat_append_singleton]; omega
      have hmod : (toNat (l.reverse ++ [b])).toUInt8 = b := by
        apply UInt8.toNat_inj.mp
        rw [toNat_append_singleton]
        simp only [Nat.toUInt8_eq, UInt8.toNat_ofNat']
        omega
      rw [List.reverse_cons, bigEndian, hdiv, hmod, ih l (by simpa using hl)]

/-! ### Text -/

/-- The UTF-8 form of a text. -/
def ofText (s : String) : Bytes := s.toByteArray.data.toList

/-- The text with the given UTF-8 form; `none` if the bytes are no UTF-8. -/
def toText? (bs : Bytes) : Option String := String.fromUTF8? ⟨bs.toArray⟩

/-! ### Hexadecimal digits -/

/-- The lower-case hexadecimal digit of a number below sixteen. -/
def hexDigit (n : Nat) : Char := ("0123456789abcdef".toList)[n]?.getD '0'

/-- Two hexadecimal digits per byte. -/
def toHex (bs : Bytes) : String :=
  String.ofList (bs.flatMap fun b => [hexDigit (b.toNat / 16), hexDigit (b.toNat % 16)])

/-- The number that a hexadecimal digit, in either case, stands for. -/
def hexValue? (c : Char) : Option Nat :=
  if '0' ≤ c ∧ c ≤ '9' then some (c.toNat - '0'.toNat)
  else if 'a' ≤ c ∧ c ≤ 'f' then some (c.toNat - 'a'.toNat + 10)
  else if 'A' ≤ c ∧ c ≤ 'F' then some (c.toNat - 'A'.toNat + 10)
  else none

/-- The bytes that pairs of hexadecimal digits stand for. -/
def ofHexDigits? : List Char → Option Bytes
  | [] => some []
  | high :: low :: digits => do
    return (16 * (← hexValue? high) + (← hexValue? low)).toUInt8 :: (← ofHexDigits? digits)
  | _ => none

/-- The bytes with the given hexadecimal digits, two per byte; `none` if there is anything else. -/
def ofHex? (s : String) : Option Bytes := ofHexDigits? s.toList

theorem hexValue?_hexDigit {n : Nat} (h : n < 16) : hexValue? (hexDigit n) = some n := by
  revert n; decide

/-- Reading the digits back gives the bytes. -/
theorem ofHex?_toHex (bs : Bytes) : ofHex? bs.toHex = some bs := by
  simp only [ofHex?, toHex, String.toList_ofList]
  induction bs with
  | nil => rfl
  | cons b bs ih =>
    have hb : b.toNat < 256 := b.toNat_lt
    simp [ofHexDigits?, hexValue?_hexDigit (show b.toNat / 16 < 16 by omega),
      hexValue?_hexDigit (show b.toNat % 16 < 16 by omega), ih]
    apply UInt8.toNat_inj.mp
    simp only [UInt8.toNat_add, UInt8.toNat_mul, UInt8.toNat_ofNat', UInt8.toNat_ofNat]
    omega

end Bytes

end ReplicatedLedger
