import ReplicatedLedger.Signature.Curve
import ReplicatedLedger.Signature.Sha512

/-! # Ed25519 signatures

A secret key comes from a seed; a signature is a commitment, which is a point, and a scalar. Verification
multiplies no cofactor away: it recomputes the commitment and compares its 32 bytes with those of the
signature. The scalar of a signature has to be reduced; public keys of small order and public keys that are
not reduced are accepted. Material of any other length, and a key that is no point, fail like a wrong
signature. -/

namespace ReplicatedLedger.Ed25519

open Curve (Point)

/-- The order of the generator. -/
def order : Nat := 1 <<< 252 + 27742317777372353535851937790883648493

/-- Bytes of a public key, and of a seed. -/
def keyLength : Nat := 32

/-- Bytes of a signature. -/
def signatureLength : Nat := 64

/-! ### Keys -/

/-- A secret key, made of the two halves of a seed's hash: a scalar, which is a multiple of eight whose
highest bit is `2 ^ 254`, and the bytes that are hashed with a message to its nonce. -/
structure SigningKey where
  scalar : Nat
  nonceSeed : Bytes

/-- The secret key of a seed. -/
def SigningKey.ofSeed (seed : Bytes) : SigningKey :=
  let h := Sha512.hash seed
  let n := Bytes.toNatLE (h.take 32)
  ⟨n % 1 <<< 254 / 8 * 8 + 1 <<< 254, h.drop 32⟩

/-- The public key of a secret key. -/
def SigningKey.publicKey (k : SigningKey) : Bytes := (Point.base.smul k.scalar).encode

/-! ### Signatures -/

/-- The challenge that binds a commitment, a public key and a message. -/
def challenge (commitment key message : Bytes) : Nat :=
  Bytes.toNatLE (Sha512.hash (commitment ++ key ++ message)) % order

/-- The signature of a message. -/
def SigningKey.sign (k : SigningKey) (message : Bytes) : Bytes :=
  let r := (Bytes.toNatLE (Sha512.hash (k.nonceSeed ++ message))) % order
  let commitment := (Point.base.smul r).encode
  let c := challenge commitment k.publicKey message
  commitment ++ Bytes.littleEndian 32 ((r + c * k.scalar) % order)

/-- Whether `signature` is one of `message` under the public key `key`. -/
def verify (message signature key : Bytes) : Bool :=
  if key.length = keyLength ∧ signature.length = signatureLength then
    match Point.decode? key with
    | none => false
    | some a =>
      let commitment := signature.take 32
      let s := Bytes.toNatLE (signature.drop 32)
      let c := challenge commitment key message
      s < order && ((Point.base.smul s).add (a.neg.smul c)).encode == commitment
  else false

end ReplicatedLedger.Ed25519
