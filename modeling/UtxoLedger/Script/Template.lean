/-
UtxoLedger.Script.Template — the standard pairs of locking and unlocking scripts.

  pay to key hash   DUP DOUBLEBLAKE3 <hash> EQUALVERIFY CHECKSIG,
                    unlocked by <signature> <key>
  m of n keys       m <key>… n CHECKMULTISIG, unlocked by <signature>…

Each form has a constructor and a recogniser. The recognisers look at opcodes
and at the lengths of pushed data only, so a recognised key or signature need
not be a valid one.
-/
import UtxoLedger.Script.Basic
import UtxoLedger.Key

namespace UtxoLedger

/-! ## Signatures on the stack -/

/-- A signature as scripts carry it: the byte that says what it commits to, and
the signature. -/
structure TxSignature where
  hashType : UInt8
  signature : Signature
  deriving DecidableEq

namespace TxSignature

/-- How many bytes a signature on the stack has. -/
def size : Nat := 65

def toFixed (sig : TxSignature) : Fixed 65 :=
  ⟨sig.hashType :: sig.signature.toList, by
    rw [List.length_cons, sig.signature.length_toList]⟩

def encode (sig : TxSignature) : Bytes := sig.toFixed.toList

theorem length_encode (sig : TxSignature) : sig.encode.length = size := sig.toFixed.length_toList

def decode (bs : Bytes) : Except Error TxSignature :=
  match bs with
  | [] => .error (.invalidSize size 0)
  | hashType :: rest =>
    if h : rest.length = 64 then .ok ⟨hashType, rest, h⟩
    else .error (.invalidSize size (rest.length + 1))

end TxSignature

/-! ## Chunks of the templates -/

namespace Chunk

def ofKeyHash (hash : KeyHash) : Chunk :=
  .push hash.digest.toList (hash.digest.pushable (by decide))

def ofKey (key : PublicKey) : Chunk := .push key.bytes.toList (key.bytes.pushable (by decide))

def ofSignature (sig : TxSignature) : Chunk :=
  .push sig.toFixed.toList (sig.toFixed.pushable (by decide))

/-- Whether the chunk pushes data of the given length. -/
def pushes (chunk : Chunk) (length : Nat) : Bool :=
  match chunk.data? with
  | some data => data.length == length
  | none => false

/-- Whether the chunk is the given opcode. -/
def isOp (chunk : Chunk) (code : Opcode) : Bool := chunk.opcode? == some code

end Chunk

namespace Script

/-! ## Pay to key hash -/

def payToKeyHash (hash : KeyHash) : Script :=
  ⟨[.op (.shuffle .dup) rfl, .op .doubleBlake3 rfl, .ofKeyHash hash,
    .op .equalVerify rfl, .op .checkSig rfl]⟩

/-- The hash that a pay-to-key-hash script commits to. -/
def keyHash? (script : Script) : Option KeyHash :=
  match script.chunks with
  | [dup, hash, .push data _, same, check] =>
    if dup.isOp (.shuffle .dup) && hash.isOp .doubleBlake3 && same.isOp .equalVerify &&
        check.isOp .checkSig then
      if h : data.length = 32 then some ⟨data, h⟩ else none
    else none
  | _ => none

def isPayToKeyHash (script : Script) : Bool := script.keyHash?.isSome

def unlockKeyHash (sig : TxSignature) (key : PublicKey) : Script :=
  ⟨[.ofSignature sig, .ofKey key]⟩

def isUnlockKeyHash (script : Script) : Bool :=
  match script.chunks with
  | [sig, key] => sig.pushes TxSignature.size && key.pushes PublicKey.size
  | _ => false

/-! ## m of n keys -/

/-- The most keys that one signature check can list. -/
def maxKeys : Nat := 16

/-- Asks for `required` signatures by different ones of the keys. The number of
keys is judged before the number of signatures. -/
def payToKeys (required : Nat) (keys : List PublicKey) : Except Error Script :=
  if hn : keys.length ≤ maxKeys then
    if hm : required ≤ keys.length then
      .ok ⟨.smallNat required (Nat.le_trans hm hn) :: keys.map Chunk.ofKey ++
        [.smallNat keys.length hn, .op .checkMultiSig rfl]⟩
    else .error (.malformedScript (.tooFewKeys required keys.length))
  else .error (.malformedScript (.tooManyKeys keys.length))

/-- The last two elements of a list and what stands before them. -/
def lastTwo? {α : Type} (xs : List α) : Option (List α × α × α) :=
  match xs.reverse with
  | last :: second :: front => some (front.reverse, second, last)
  | _ => none

def isPayToKeys (script : Script) : Bool :=
  match script.chunks with
  | [] => false
  | first :: others =>
    match lastTwo? others with
    | none => false
    | some (keys, count, check) =>
      match first.smallNat?, count.smallNat? with
      | some m, some n =>
        check.isOp .checkMultiSig && decide (m ≤ n) && keys.length == n &&
          keys.all (Chunk.pushes · PublicKey.size)
      | _, _ => false

def unlockKeys (sigs : List TxSignature) : Script := ⟨sigs.map Chunk.ofSignature⟩

def isUnlockKeys (script : Script) : Bool :=
  !script.chunks.isEmpty && script.chunks.all (Chunk.pushes · TxSignature.size)

end Script

end UtxoLedger
