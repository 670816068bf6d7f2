/-
UtxoLedger.Key — private keys, public keys, and the hashes that outputs are paid to.

A private key is a scalar between 1 and the group order, a public key a
compressed point. Both types carry the proof, so whoever holds a key need not
check it again. A key hash is any digest: nothing tells whether a key stands
behind it. Each of the three has a labelled text form with a checksum
(`UtxoLedger.Text.Checked`).

`PublicKey.ofPrivate` checks the point that it computes, as any other source of
bytes. The check is redundant for a group element, and it keeps the group's
algebra out of the type.
-/
import UtxoLedger.Curve.Ecdsa
import UtxoLedger.Text.Checked

namespace UtxoLedger

/-! ## Private keys -/

/-- The bytes of a scalar from 1 to the group order less one. -/
def isSecret (bytes : Fixed 32) : Bool :=
  decide (0 < bytes.toNat) && decide (bytes.toNat < Secp256k1.order)

structure PrivateKey where
  bytes : Fixed 32
  valid : isSecret bytes = true
  deriving DecidableEq

namespace PrivateKey

/-- How many bytes a private key has. -/
def size : Nat := 32

theorem length_bytes (key : PrivateKey) : key.bytes.toList.length = size := key.bytes.length_toList

def label : String := "ebxprv"

def ofFixed (bytes : Fixed 32) : Except Error PrivateKey :=
  if h : isSecret bytes = true then .ok ⟨bytes, h⟩ else .error (.invalidKey .secretKey)

def ofBytes (bs : Bytes) : Except Error PrivateKey := Fixed.ofList 32 bs >>= ofFixed

def scalar (key : PrivateKey) : Nat := key.bytes.toNat

def toText (key : PrivateKey) : String := Checked.encode label key.bytes.toList

def ofText (text : String) : Except Error PrivateKey := Checked.decode 32 label text >>= ofFixed

def sign (key : PrivateKey) (digest : Digest) : Signature := Ecdsa.sign digest key.scalar

/-- A text for people that keeps the secret. -/
def describe (_ : PrivateKey) : String := "PrivKey(..)"

end PrivateKey

/-! ## Public keys -/

/-- A compressed point of the curve. -/
structure PublicKey where
  bytes : Fixed 33
  onCurve : (Secp256k1.decompress? bytes.toList).isSome = true
  deriving DecidableEq

namespace PublicKey

/-- How many bytes a public key has. -/
def size : Nat := 33

theorem length_bytes (key : PublicKey) : key.bytes.toList.length = size := key.bytes.length_toList

def label : String := "ebxpub"

def ofFixed (bytes : Fixed 33) : Except Error PublicKey :=
  if h : (Secp256k1.decompress? bytes.toList).isSome = true then .ok ⟨bytes, h⟩
  else .error (.invalidKey .publicKey)

def ofBytes (bs : Bytes) : Except Error PublicKey := Fixed.ofList 33 bs >>= ofFixed

def ofPrivate (key : PrivateKey) : Except Error PublicKey :=
  let point := Secp256k1.multiple key.scalar
  ofFixed ⟨Secp256k1.compress point, Secp256k1.length_compress point⟩

def point (key : PublicKey) : Secp256k1.Point :=
  (Secp256k1.decompress? key.bytes.toList).get key.onCurve

def toText (key : PublicKey) : String := Checked.encode label key.bytes.toList

def ofText (text : String) : Except Error PublicKey := Checked.decode 33 label text >>= ofFixed

/-- Whether the owner of the key signed the digest. -/
def verify (key : PublicKey) (digest : Digest) (signature : Signature) : Bool :=
  Ecdsa.verify digest key.point signature

/-- A text for people that shows the bytes. -/
def describe (key : PublicKey) : String := "PubKey(" ++ key.bytes.toHex ++ ")"

end PublicKey

/-! ## Key hashes -/

/-- The hash of a public key, to which an output can be paid. -/
structure KeyHash where
  digest : Digest
  deriving DecidableEq

namespace KeyHash

/-- How many bytes a key hash has. -/
def size : Nat := 32

def label : String := "ebxpkh"

def ofKey (key : PublicKey) : KeyHash := ⟨Digest.double key.bytes.toList⟩

def ofBytes (bs : Bytes) : Except Error KeyHash := KeyHash.mk <$> Fixed.ofList 32 bs

def toText (hash : KeyHash) : String := Checked.encode label hash.digest.toList

def ofText (text : String) : Except Error KeyHash := KeyHash.mk <$> Checked.decode 32 label text

/-- A text for people that shows the bytes. -/
def describe (hash : KeyHash) : String := "Pkh(" ++ hash.digest.toHex ++ ")"

instance : Ord KeyHash := ⟨compareOn digest⟩

instance : Std.TransOrd KeyHash := inferInstanceAs (Std.TransCmp (compareOn digest))

instance : Std.LawfulEqOrd KeyHash where
  eq_of_compare {a b} h := by
    have h : a.digest = b.digest := Std.LawfulEqOrd.eq_of_compare h
    cases a
    cases b
    simp only [mk.injEq]
    exact h

end KeyHash

/-! ## Key pairs -/

structure KeyPair where
  privateKey : PrivateKey
  publicKey : PublicKey
  deriving DecidableEq

namespace KeyPair

def ofPrivate (key : PrivateKey) : Except Error KeyPair :=
  KeyPair.mk key <$> PublicKey.ofPrivate key

def hash (pair : KeyPair) : KeyHash := .ofKey pair.publicKey

end KeyPair

end UtxoLedger
