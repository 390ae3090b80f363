import ReplicatedLedger.Bytes

/-! # RIPEMD-160

Two lines of 80 steps over the same sixteen message words, in different word orders and with
different shifts, are combined into the five chaining words after every block of 64 bytes. The digest
is the chaining words, least significant byte first; `length_hash` gives its 20 bytes. -/

namespace ReplicatedLedger.Ripemd160

/-- The five chaining words. -/
structure State where
  a : UInt32
  b : UInt32
  c : UInt32
  d : UInt32
  e : UInt32

/-- The chaining words before the first block. -/
def State.start : State := ⟨0x67452301, 0xefcdab89, 0x98badcfe, 0x10325476, 0xc3d2e1f0⟩

/-- Rotation toward the high bits. -/
def rotl (w : UInt32) (n : UInt32) : UInt32 := (w <<< n) ||| (w >>> (32 - n))

/-! ### Tables -/

/-- The bitwise function of the steps `16 j` to `16 j + 15` of the left line; the right line takes
them in the opposite order. -/
def mixer (j : Nat) (x y z : UInt32) : UInt32 :=
  match j with
  | 0 => x ^^^ y ^^^ z
  | 1 => (x &&& y) ||| (~~~x &&& z)
  | 2 => (x ||| ~~~y) ^^^ z
  | 3 => (x &&& z) ||| (y &&& ~~~z)
  | _ => x ^^^ (y ||| ~~~z)

/-- A line of steps: per group of sixteen the added constant and the index of the bitwise function,
and per step the message word and the shift. -/
structure Line where
  groups : List (UInt32 × Nat)
  words : List Nat
  shifts : List UInt32

/-- The left line. -/
def left : Line where
  groups := [(0x00000000, 0), (0x5a827999, 1), (0x6ed9eba1, 2), (0x8f1bbcdc, 3), (0xa953fd4e, 4)]
  words :=
    [0, 1, 2, 3, 4, 5, 6, 7, 8, 9, 10, 11, 12, 13, 14, 15,
     7, 4, 13, 1, 10, 6, 15, 3, 12, 0, 9, 5, 2, 14, 11, 8,
     3, 10, 14, 4, 9, 15, 8, 1, 2, 7, 0, 6, 13, 11, 5, 12,
     1, 9, 11, 10, 0, 8, 12, 4, 13, 3, 7, 15, 14, 5, 6, 2,
     4, 0, 5, 9, 7, 12, 2, 10, 14, 1, 3, 8, 11, 6, 15, 13]
  shifts :=
    [11, 14, 15, 12, 5, 8, 7, 9, 11, 13, 14, 15, 6, 7, 9, 8,
     7, 6, 8, 13, 11, 9, 7, 15, 7, 12, 15, 9, 11, 7, 13, 12,
     11, 13, 6, 7, 14, 9, 13, 15, 14, 8, 13, 6, 5, 12, 7, 5,
     11, 12, 14, 15, 14, 15, 9, 8, 9, 14, 5, 6, 8, 6, 5, 12,
     9, 15, 5, 11, 6, 8, 13, 12, 5, 12, 13, 14, 11, 8, 5, 6]

/-- The right line. -/
def right : Line where
  groups := [(0x50a28be6, 4), (0x5c4dd124, 3), (0x6d703ef3, 2), (0x7a6d76e9, 1), (0x00000000, 0)]
  words :=
    [5, 14, 7, 0, 9, 2, 11, 4, 13, 6, 15, 8, 1, 10, 3, 12,
     6, 11, 3, 7, 0, 13, 5, 10, 14, 15, 8, 12, 4, 9, 1, 2,
     15, 5, 1, 3, 7, 14, 6, 9, 11, 8, 12, 2, 10, 0, 4, 13,
     8, 6, 4, 1, 3, 11, 15, 0, 5, 12, 2, 13, 9, 7, 10, 14,
     12, 15, 10, 4, 1, 5, 8, 7, 6, 2, 13, 14, 0, 3, 9, 11]
  shifts :=
    [8, 9, 9, 11, 13, 15, 15, 5, 7, 7, 8, 11, 14, 14, 12, 6,
     9, 13, 15, 7, 12, 8, 9, 11, 7, 7, 12, 7, 6, 15, 13, 11,
     9, 7, 15, 11, 8, 6, 6, 14, 12, 13, 5, 14, 13, 13, 7, 5,
     15, 5, 8, 11, 14, 14, 6, 14, 6, 9, 12, 9, 12, 5, 15, 8,
     8, 5, 12, 9, 12, 5, 14, 6, 8, 13, 6, 5, 15, 13, 11, 11]

/-! ### Compression -/

/-- One step of a line, with its constant, bitwise function, message word and shift. -/
def step (constant : UInt32) (group : Nat) (word shift : UInt32) (s : State) : State :=
  ⟨s.e, rotl (s.a + mixer group s.b s.c s.d + word + constant) shift + s.e, s.b, rotl s.c 10, s.d⟩

/-- The 80 steps of a line over the message words. -/
def Line.run (l : Line) (block : Array UInt32) (s : State) : State :=
  let groups := l.groups.flatMap (List.replicate 16)
  (groups.zip (l.words.zip l.shifts)).foldl
    (fun s p => step p.1.1 p.1.2 (block[p.2.1]?.getD 0) p.2.2 s) s

/-- Takes one block into the chaining words. -/
def compress (s : State) (block : Array UInt32) : State :=
  let p := left.run block s
  let q := right.run block s
  ⟨s.b + p.c + q.d, s.c + p.d + q.e, s.d + p.e + q.a, s.e + p.a + q.b, s.a + p.b + q.c⟩

/-! ### Messages -/

/-- The bytes that fill up a message of length `n`: a marker bit, zeros, and the length in bits. -/
def padding (n : Nat) : Bytes :=
  0x80 :: (List.replicate ((119 - n % 64) % 64) 0 ++ Bytes.littleEndian 8 (8 * n))

/-- Four bytes at a time as a word, least significant first. -/
def words : Bytes → List UInt32
  | a :: b :: c :: d :: r =>
    (a.toUInt32 ||| (b.toUInt32 <<< 8) ||| (c.toUInt32 <<< 16) ||| (d.toUInt32 <<< 24)) :: words r
  | _ => []

/-- Takes in `n` blocks. -/
def absorb : Nat → Bytes → State → State
  | 0, _, s => s
  | n + 1, m, s => absorb n (m.drop 64) (compress s (words (m.take 64)).toArray)

/-- The bytes of the chaining words. -/
def State.bytes (s : State) : Bytes :=
  [s.a, s.b, s.c, s.d, s.e].flatMap fun w => Bytes.littleEndian 4 w.toNat

/-- The 20-byte digest. -/
def hash (m : Bytes) : Bytes :=
  let padded := m ++ padding m.length
  (absorb (padded.length / 64) padded .start).bytes

theorem length_hash (m : Bytes) : (hash m).length = 20 := by
  simp [hash, State.bytes]

end ReplicatedLedger.Ripemd160
