/-
UtxoLedger.Message — messages signed for a purpose.

What is signed is not the message but a keyed hash of it, under the hash of a
text that names the purpose. A signature made for one purpose is therefore none
for another. The byte form is the signature, the key and the keyed hash, each of
fixed length, and then the message to the end.
-/
import UtxoLedger.Codec.Reader
import UtxoLedger.Key

namespace UtxoLedger

structure SignedMessage where
  signature : Signature
  publicKey : PublicKey
  mac : Digest
  message : Bytes
  deriving DecidableEq

namespace SignedMessage

/-- The keyed hash that binds a message to a purpose. -/
def macOf (purpose : String) (message : Bytes) : Digest :=
  .mac (.of purpose.toUTF8.data.toList) message

def sign (key : PrivateKey) (message : Bytes) (purpose : String) : Except Error SignedMessage :=
  let mac := macOf purpose message
  match PublicKey.ofPrivate key with
  | .ok publicKey => .ok ⟨key.sign mac, publicKey, mac, message⟩
  | .error error => .error error

/-- Whether the message was signed for the purpose by the owner of its key. -/
def isValid (m : SignedMessage) (purpose : String) : Bool :=
  let mac := macOf purpose m.message
  mac == m.mac && m.publicKey.verify mac m.signature

def encode (m : SignedMessage) : Bytes :=
  m.signature.toList ++ (m.publicKey.bytes.toList ++ (m.mac.toList ++ m.message))

/-- The three parts of fixed length; the message is what is left. -/
def readParts : Reader (Fixed 64 × Fixed 33 × Digest) := do
  let signature ← Reader.fixed 64
  let key ← Reader.fixed 33
  let mac ← Reader.fixed 32
  pure (signature, key, mac)

def decode (bs : Bytes) : Except Error SignedMessage :=
  match readParts bs with
  | .error error => .error error
  | .ok ((signature, key, mac), message) =>
    match PublicKey.ofFixed key with
    | .ok publicKey => .ok ⟨signature, publicKey, mac, message⟩
    | .error error => .error error

end SignedMessage

end UtxoLedger
