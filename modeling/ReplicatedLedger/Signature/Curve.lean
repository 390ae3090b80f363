import ReplicatedLedger.Bytes

/-! # The twisted Edwards curve of Ed25519

Points of `-x² + y² = 1 + d x² y²` over the field of `2^255 - 19` elements, in extended coordinates
(`x = X / Z`, `y = Y / Z`, `x y = T / Z`) with one addition law for all pairs of points. A point is
written as its `y`, 32 bytes least significant first, with the parity of `x` in the top bit. Reading
takes any 255-bit `y`, reduced, and takes both parities where `x` is zero. -/

namespace ReplicatedLedger.Curve

/-! ### Field -/

/-- The number of field elements. -/
def prime : Nat := 1 <<< 255 - 19

/-- The coefficient `-121665 / 121666` of the curve. -/
def coefficient : Nat := 0x52036cee2b6ffe738cc740797779e89800700a4d4141d8ab75eb4dca135978a3

/-- A square root of minus one. -/
def sqrtMinusOne : Nat := 0x2b8324804fc1df0b2b4d00993dfbd7a72f431806ad2fe478c4ee1b274a0ea0b0

/-- The difference of two reduced elements. -/
def sub (a b : Nat) : Nat := (a + (prime - b)) % prime

/-- The product of two elements. -/
def mul (a b : Nat) : Nat := a * b % prime

/-- The sum of two elements. -/
def add (a b : Nat) : Nat := (a + b) % prime

/-- The bits of `n`, the most significant of `width` bits first. -/
def bits (width n : Nat) : List Bool := (List.range width).reverse.map n.testBit

/-- The power `a ^ e` for an exponent below `2 ^ 255`. -/
def pow (a e : Nat) : Nat :=
  (bits 255 e).foldl (fun r b => let s := mul r r; if b then mul s a else s) 1

/-- The inverse of an element, zero for zero. -/
def inv (a : Nat) : Nat := pow a (prime - 2)

/-- The even square root of `u / v`, if it has one. -/
def sqrtRatio? (u v : Nat) : Option Nat :=
  let v3 := mul (mul v v) v
  let v7 := mul (mul v3 v3) v
  let r := mul (mul u v3) (pow (mul u v7) ((prime - 5) / 8))
  let check := mul v (mul r r)
  let root :=
    if check = u then some r
    else if check = sub 0 u then some (mul r sqrtMinusOne)
    else none
  root.map fun x => if x % 2 = 1 then sub 0 x else x

/-! ### Points -/

/-- A point in extended coordinates. -/
structure Point where
  x : Nat
  y : Nat
  z : Nat
  t : Nat

namespace Point

/-- The neutral element. -/
def zero : Point := ⟨0, 1, 1, 0⟩

/-- The standard generator. -/
def base : Point :=
  let x := 15112221349535400772501151409588531511454012693041857206046113283949847762202
  let y := 46316835694926478169428394003475163141307993866256225615783033603165251855960
  ⟨x, y, 1, mul x y⟩

/-- The sum of two points. -/
def add (p q : Point) : Point :=
  let a := mul (sub p.y p.x) (sub q.y q.x)
  let b := mul (Curve.add p.y p.x) (Curve.add q.y q.x)
  let c := mul (mul p.t q.t) (mul 2 coefficient)
  let d := mul (mul p.z q.z) 2
  let e := sub b a
  let f := sub d c
  let g := Curve.add d c
  let h := Curve.add b a
  ⟨mul e f, mul g h, mul f g, mul e h⟩

/-- The point with the opposite `x`. -/
def neg (p : Point) : Point := ⟨sub 0 p.x, p.y, p.z, sub 0 p.t⟩

/-- The multiple of a point by a number below `2 ^ 256`. -/
def smul (n : Nat) (p : Point) : Point :=
  (bits 256 n).foldl (fun r b => let s := r.add r; if b then s.add p else s) zero

/-- The 32-byte form of a point. -/
def encode (p : Point) : Bytes :=
  let i := inv p.z
  Bytes.littleEndian 32 (mul p.y i + 1 <<< 255 * (mul p.x i % 2))

/-- The point with a given 32-byte form. -/
def decode? (bs : Bytes) : Option Point :=
  let n := bs.toNatLE
  let y := n % 1 <<< 255 % prime
  let y2 := mul y y
  (sqrtRatio? (sub y2 1) (Curve.add (mul coefficient y2) 1)).map fun r =>
    let x := if n / 1 <<< 255 = 1 then sub 0 r else r
    ⟨x, y, 1, mul x y⟩

end Point

end ReplicatedLedger.Curve
