import ReplicatedLedger.Bytes

/-! # SHA3-512

A sponge with 128 bytes of capacity. A state is five planes of five 64-bit lanes; the permutation is 24
rounds of the step mappings θ, ρ and π together, χ and ι. The message is padded to whole blocks of 72
bytes, each block is mixed into the first nine lanes and the state permuted; the digest is the first eight
lanes, least significant byte first. -/

namespace ReplicatedLedger.Sha3

/-- Five 64-bit lanes with the same second coordinate. -/
structure Plane where
  x0 : UInt64
  x1 : UInt64
  x2 : UInt64
  x3 : UInt64
  x4 : UInt64

/-- Five planes: 1600 bits. -/
structure State where
  y0 : Plane
  y1 : Plane
  y2 : Plane
  y3 : Plane
  y4 : Plane

/-- The plane of zeros. -/
def Plane.zero : Plane := ⟨0, 0, 0, 0, 0⟩

/-- The state of zeros. -/
def State.zero : State := ⟨.zero, .zero, .zero, .zero, .zero⟩

/-- Lane by lane exclusive or. -/
def Plane.xor (p q : Plane) : Plane :=
  ⟨p.x0 ^^^ q.x0, p.x1 ^^^ q.x1, p.x2 ^^^ q.x2, p.x3 ^^^ q.x3, p.x4 ^^^ q.x4⟩

/-- Rotation toward the high bits. -/
def rotl (w : UInt64) (n : UInt64) : UInt64 := (w <<< n) ||| (w >>> (64 - n))

/-! ### Step mappings -/

/-- Every lane takes in the parities of two neighbouring columns. -/
def theta (s : State) : State :=
  let c := (((s.y0.xor s.y1).xor s.y2).xor s.y3).xor s.y4
  let d : Plane := ⟨c.x4 ^^^ rotl c.x1 1, c.x0 ^^^ rotl c.x2 1, c.x1 ^^^ rotl c.x3 1,
    c.x2 ^^^ rotl c.x4 1, c.x3 ^^^ rotl c.x0 1⟩
  ⟨s.y0.xor d, s.y1.xor d, s.y2.xor d, s.y3.xor d, s.y4.xor d⟩

/-- Every lane is rotated by its own amount and moved: column `X` of plane `Y` comes from plane `X`,
column `X + 3 Y` modulo five. -/
def rhoPi (s : State) : State where
  y0 := ⟨s.y0.x0, rotl s.y1.x1 44, rotl s.y2.x2 43, rotl s.y3.x3 21, rotl s.y4.x4 14⟩
  y1 := ⟨rotl s.y0.x3 28, rotl s.y1.x4 20, rotl s.y2.x0 3, rotl s.y3.x1 45, rotl s.y4.x2 61⟩
  y2 := ⟨rotl s.y0.x1 1, rotl s.y1.x2 6, rotl s.y2.x3 25, rotl s.y3.x4 8, rotl s.y4.x0 18⟩
  y3 := ⟨rotl s.y0.x4 27, rotl s.y1.x0 36, rotl s.y2.x1 10, rotl s.y3.x2 15, rotl s.y4.x3 56⟩
  y4 := ⟨rotl s.y0.x2 62, rotl s.y1.x3 55, rotl s.y2.x4 39, rotl s.y3.x0 41, rotl s.y4.x1 2⟩

/-- Within a plane, a lane flips where the next is clear and the one after it set. -/
def Plane.chi (p : Plane) : Plane :=
  ⟨p.x0 ^^^ (~~~p.x1 &&& p.x2), p.x1 ^^^ (~~~p.x2 &&& p.x3), p.x2 ^^^ (~~~p.x3 &&& p.x4),
    p.x3 ^^^ (~~~p.x4 &&& p.x0), p.x4 ^^^ (~~~p.x0 &&& p.x1)⟩

/-- One round with its constant. -/
def round (s : State) (rc : UInt64) : State :=
  let t := rhoPi (theta s)
  let y0 := t.y0.chi
  ⟨{ y0 with x0 := y0.x0 ^^^ rc }, t.y1.chi, t.y2.chi, t.y3.chi, t.y4.chi⟩

/-- The constants of the 24 rounds. -/
def roundConstants : List UInt64 :=
  [0x0000000000000001, 0x0000000000008082, 0x800000000000808a, 0x8000000080008000,
   0x000000000000808b, 0x0000000080000001, 0x8000000080008081, 0x8000000000008009,
   0x000000000000008a, 0x0000000000000088, 0x0000000080008009, 0x000000008000000a,
   0x000000008000808b, 0x800000000000008b, 0x8000000000008089, 0x8000000000008003,
   0x8000000000008002, 0x8000000000000080, 0x000000000000800a, 0x800000008000000a,
   0x8000000080008081, 0x8000000000008080, 0x0000000080000001, 0x8000000080008008]

/-- The permutation of the state. -/
def permute (s : State) : State := roundConstants.foldl round s

/-! ### Sponge -/

/-- Bytes taken in per permutation. -/
def rate : Nat := 72

/-- The bytes that fill up a message of length `n`: at least one, with the first and last bit of the
filling marked. -/
def padding (n : Nat) : Bytes :=
  let free := rate - n % rate
  if free = 1 then [0x86] else 0x06 :: (List.replicate (free - 2) 0 ++ [0x80])

/-- Eight bytes at a time as a lane, least significant first. -/
def lanes : Bytes → List UInt64
  | a :: b :: c :: d :: e :: f :: g :: h :: r =>
    (a.toUInt64 ||| (b.toUInt64 <<< 8) ||| (c.toUInt64 <<< 16) ||| (d.toUInt64 <<< 24) |||
      (e.toUInt64 <<< 32) ||| (f.toUInt64 <<< 40) ||| (g.toUInt64 <<< 48) |||
      (h.toUInt64 <<< 56)) :: lanes r
  | _ => []

/-- Mixes nine lanes into the front of the state. -/
def State.mix (s : State) : List UInt64 → State
  | [w0, w1, w2, w3, w4, w5, w6, w7, w8] =>
    { s with y0 := s.y0.xor ⟨w0, w1, w2, w3, w4⟩, y1 := s.y1.xor ⟨w5, w6, w7, w8, 0⟩ }
  | _ => s

/-- Takes in `n` blocks. -/
def absorb : Nat → Bytes → State → State
  | 0, _, s => s
  | n + 1, m, s => absorb n (m.drop rate) (permute (s.mix (lanes (m.take rate))))

/-- The 64-byte digest. -/
def hash512 (m : Bytes) : Bytes :=
  let padded := m ++ padding m.length
  let s := absorb (padded.length / rate) padded .zero
  [s.y0.x0, s.y0.x1, s.y0.x2, s.y0.x3, s.y0.x4, s.y1.x0, s.y1.x1, s.y1.x2].flatMap fun w =>
    Bytes.littleEndian 8 w.toNat

end ReplicatedLedger.Sha3
