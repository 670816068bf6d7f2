/-
UtxoLedger.Tx.Sighash — what a signature on an input commits to.

A signature covers a byte string made from the transaction, the script that is
executed and the value that is spent; its hash type selects how much of the
transaction goes in. The lists of all outpoints, of all relative locks and of
all outputs enter as digests, which are the same for every input. They are
computed when first needed and kept in a `SighashCache`, which goes in and comes
out of every function here, also of a call that fails. A cache belongs to one
transaction: the functions trust what is in it.

  hash type bits        committed to
  0x80 clear            all outpoints, and all relative locks for the base
                        types that commit to all outputs
  base type NONE        no output
  base type SINGLE      the output at the signed input's position
  any other base type   all outputs

Input scripts are never part of it.
-/
import UtxoLedger.Tx.Basic
import UtxoLedger.Script.Template

namespace UtxoLedger

/-! ## Hash types -/

namespace HashType

def all : UInt8 := 0x01
def none : UInt8 := 0x02
def single : UInt8 := 0x03
def anyoneCanPay : UInt8 := 0x80

/-- Whether the other inputs may be changed. -/
def isAnyoneCanPay (hashType : UInt8) : Bool := (hashType &&& anyoneCanPay) != 0

/-- The part that selects the outputs. -/
def base (hashType : UInt8) : UInt8 := hashType &&& 0x1f

end HashType

/-- The digests that all inputs of a transaction share, as far as they are
known. -/
structure SighashCache where
  outpoints : Option Digest
  lockRels : Option Digest
  outputs : Option Digest
  deriving DecidableEq

def SighashCache.empty : SighashCache := ⟨none, none, none⟩

/-- The output that an input spends, as a signature sees it. -/
structure Spend where
  /-- The position of the input. -/
  index : Nat
  /-- The bytes of the script that is executed. -/
  script : Bytes
  /-- The value that is spent. -/
  value : UInt64

namespace Tx

/-! ## The shared digests -/

def hashOutpoints (tx : Tx) : Digest := .double (tx.inputs.flatMap (·.outpoint.encode))

def hashLockRels (tx : Tx) : Digest := .double (tx.inputs.flatMap fun i => encodeUInt32 i.lockRel)

def hashOutputs (tx : Tx) : Digest := .double (tx.outputs.flatMap TxOutput.encode)

/-- The digest of the outpoints as the hash type asks for it. -/
def commitOutpoints (tx : Tx) (hashType : UInt8) (cache : SighashCache) : Digest × SighashCache :=
  if HashType.isAnyoneCanPay hashType then (.zero, cache)
  else
    let digest := cache.outpoints.getD tx.hashOutpoints
    (digest, { cache with outpoints := some digest })

def commitLockRels (tx : Tx) (hashType : UInt8) (cache : SighashCache) : Digest × SighashCache :=
  if HashType.isAnyoneCanPay hashType || HashType.base hashType == HashType.none ||
      HashType.base hashType == HashType.single then (.zero, cache)
  else
    let digest := cache.lockRels.getD tx.hashLockRels
    (digest, { cache with lockRels := some digest })

def commitOutputs (tx : Tx) (index : Nat) (hashType : UInt8) (cache : SighashCache) :
    Digest × SighashCache :=
  if HashType.base hashType == HashType.none then (.zero, cache)
  else if HashType.base hashType == HashType.single then
    match tx.outputs[index]? with
    | some output => (.double output.encode, cache)
    | none => (.zero, cache)
  else
    let digest := cache.outputs.getD tx.hashOutputs
    (digest, { cache with outputs := some digest })

/-! ## The signed bytes and their digest -/

/-- The bytes that a signature of the given hash type covers. An input that does
not exist is refused before the cache is touched. -/
def sighashPreimage (tx : Tx) (spend : Spend) (hashType : UInt8) (cache : SighashCache) :
    Except Error Bytes × SighashCache :=
  match tx.inputs[spend.index]? with
  | none => (.error (.inputOutOfRange spend.index), cache)
  | some input =>
    let (outpoints, cache) := tx.commitOutpoints hashType cache
    let (lockRels, cache) := tx.commitLockRels hashType cache
    let (outputs, cache) := tx.commitOutputs spend.index hashType cache
    (.ok (tx.version :: (outpoints.toList ++ (lockRels.toList ++ (input.outpoint.encode ++
      (VarBytes.encode spend.script ++ (encodeUInt64 spend.value ++ (encodeUInt32 input.lockRel ++
      (outputs.toList ++ (encodeUInt64 tx.lockAbs ++ [hashType]))))))))), cache)

def sighash (tx : Tx) (spend : Spend) (hashType : UInt8) (cache : SighashCache) :
    Except Error Digest × SighashCache :=
  let (preimage, cache) := tx.sighashPreimage spend hashType cache
  (Digest.double <$> preimage, cache)

def sign (tx : Tx) (spend : Spend) (key : PrivateKey) (hashType : UInt8) (cache : SighashCache) :
    Except Error TxSignature × SighashCache :=
  let (digest, cache) := tx.sighash spend hashType cache
  ((fun digest => ⟨hashType, key.sign digest⟩) <$> digest, cache)

/-- Checks a signature over the digest that its own hash type selects. An input
that does not exist has no valid signature. -/
def checkSignature (tx : Tx) (spend : Spend) (key : PublicKey) (sig : TxSignature)
    (cache : SighashCache) : Bool × SighashCache :=
  match tx.sighash spend sig.hashType cache with
  | (.ok digest, cache) => (key.verify digest sig.signature, cache)
  | (.error _, cache) => (false, cache)

end Tx

end UtxoLedger
