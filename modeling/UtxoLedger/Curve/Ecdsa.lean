/-
UtxoLedger.Curve.Ecdsa — ECDSA signatures over 32-byte digests.

A signature is the pair r, s in 32 big-endian bytes each. Signing is
deterministic: the nonce comes from an HMAC generator that is seeded with the
secret and the digest, so equal inputs give equal signatures. Of the two valid
values of s the lower one is written, and `verify` refuses the other, so nobody
can turn a signature into a second one for the same digest.
-/
import UtxoLedger.Hash.Digest
import UtxoLedger.Hash.Sha256
import UtxoLedger.Curve.Secp256k1

namespace UtxoLedger

/-- The 64 bytes of r and s. -/
abbrev Signature := Fixed 64

namespace Ecdsa

open Secp256k1

/-! ## Nonces -/

/-- The state of the nonce generator. -/
structure Generator where
  key : Bytes
  value : Bytes

namespace Generator

/-- Mixes `data` into the key, behind the value and a separating byte. -/
def absorb (g : Generator) (separator : UInt8) (data : Bytes) : Generator :=
  let key := Sha256.hmac g.key (g.value ++ separator :: data)
  ⟨key, Sha256.hmac key g.value⟩

def ofSeed (seed : Bytes) : Generator :=
  let start : Generator := ⟨List.replicate 32 0, List.replicate 32 1⟩
  (start.absorb 0 seed).absorb 1 seed

/-- The next candidate. -/
def next (g : Generator) : Generator := { g with value := Sha256.hmac g.key g.value }

/-- What follows a candidate that was refused. -/
def retry (g : Generator) : Generator := g.absorb 0 []

end Generator

/-! ## Signing -/

/-- The residue of a digest as a scalar. -/
def scalarOf (digest : Digest) : Nat := digest.toNat % order

/-- The signature with one nonce, unless the nonce is out of range or gives a
zero component. -/
def signWith (secret message nonce : Nat) : Option (Nat × Nat) :=
  if nonce = 0 ∨ order ≤ nonce then none
  else
    match (multiple nonce).affine? with
    | none => none
    | some (x, _) =>
      let r := x % order
      let s := inverse order nonce * (message + r * secret) % order
      if r = 0 ∨ s = 0 then none
      else some (r, if order / 2 < s then order - s else s)

/-- The first of `attempts` candidates that gives a signature. -/
def search (secret message : Nat) : (attempts : Nat) → Generator → Option (Nat × Nat)
  | 0, _ => none
  | attempts + 1, g =>
    let g := g.next
    match signWith secret message (BigEndian.decode g.value) with
    | some signature => some signature
    | none => search secret message attempts g.retry

def encode (r s : Nat) : Signature :=
  ⟨BigEndian.encode 32 r ++ BigEndian.encode 32 s, by
    rw [List.length_append, BigEndian.length_encode, BigEndian.length_encode]⟩

/-- Signs a digest. A candidate nonce is refused with a probability below
2^-127, so the bound on the attempts is not met; the value there is the all-zero
signature, which verifies under no key. -/
def sign (digest : Digest) (secret : Nat) : Signature :=
  let message := scalarOf digest
  let seed := BigEndian.encode 32 secret ++ BigEndian.encode 32 message
  match search secret message 64 (.ofSeed seed) with
  | some (r, s) => encode r s
  | none => .zero

/-! ## Checking -/

/-- Whether the signature is one over the digest by the owner of `key`. -/
def verify (digest : Digest) (key : Point) (signature : Signature) : Bool :=
  let r := BigEndian.decode (signature.toList.take 32)
  let s := BigEndian.decode (signature.toList.drop 32)
  if r = 0 ∨ order ≤ r ∨ s = 0 ∨ order / 2 < s then false
  else
    let w := inverse order s
    let u := scalarOf digest * w % order
    let v := r * w % order
    match (Point.combine u generator v key).affine? with
    | some (x, _) => x % order == r
    | none => false

end Ecdsa

end UtxoLedger
