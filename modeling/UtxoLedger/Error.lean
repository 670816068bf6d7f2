/-
UtxoLedger.Error — why a value cannot be decoded, built or signed.

Each constructor is a cause; the wording is in `Error.message` and nowhere else.
Faults of a script's shape and of a key have their own types, because their
callers meet only those. What stops the script machine is a `ScriptError`
(`UtxoLedger.Script.Error`) and what makes a transaction or a block invalid a
`ValidityError` (`UtxoLedger.Validity.Error`): neither is malformed input.
-/
import UtxoLedger.Script.Opcode
import UtxoLedger.Text.Hex

namespace UtxoLedger

/-- What is wrong with the shape of a script. -/
inductive ScriptFault where
  /-- The opcode stands for a length in front of data and was given none. -/
  | lengthNeedsData (width : LengthWidth)
  /-- The data is longer than the widest length field can say. -/
  | pushTooLong (length : Nat)
  /-- A narrower length field could have carried the data. -/
  | pushNotMinimal (length : Nat) (width : LengthWidth)
  /-- The script ends inside a length or the data behind it. -/
  | pushTruncated
  | tooManyKeys (count : Nat)
  /-- More signatures are asked for than there are keys. -/
  | tooFewKeys (required keys : Nat)
  deriving DecidableEq, Repr

def ScriptFault.message : ScriptFault → String
  | .lengthNeedsData width => (Opcode.pushData width).name ++ " needs data"
  | .pushTooLong length => "push of " ++ toString length ++ " bytes exceeds OP_PUSHDATA4"
  | .pushNotMinimal length width =>
    "non-minimal push of " ++ toString length ++ " bytes with opcode 0x" ++
      Hex.encode [(Opcode.pushData width).toByte]
  | .pushTruncated => "push data truncated"
  | .tooManyKeys count => toString count ++ " keys exceeds multisig limit of 16"
  | .tooFewKeys required keys =>
    toString required ++ " signatures required from " ++ toString keys ++ " keys"

/-- Which half of a key pair was refused. -/
inductive KeyFault where
  | publicKey
  | secretKey
  deriving DecidableEq, Repr

def KeyFault.message : KeyFault → String
  | .publicKey => "malformed public key"
  | .secretKey => "malformed or out-of-range secret key"

/-- Why a value could not be decoded, built or signed. -/
inductive Error where
  | invalidSize (expected actual : Nat)
  | invalidFormat
  | invalidHex
  | invalidBase58
  | invalidChecksum
  | malformedScript (fault : ScriptFault)
  | invalidOpcode (token : String)
  | notEnoughData
  | nonMinimalEncoding
  | trailingData
  | invalidKey (fault : KeyFault)
  | emptyMerkleTree
  | insufficientFunds (available needed : UInt64)
  | valueOverflow
  | missingOutput
  | missingKey
  | inputOutOfRange (index : Nat)
  deriving DecidableEq, Repr

def Error.message : Error → String
  | .invalidSize expected actual =>
    "invalid size: expected " ++ toString expected ++ ", got " ++ toString actual
  | .invalidFormat => "invalid format"
  | .invalidHex => "invalid hex"
  | .invalidBase58 => "invalid base58"
  | .invalidChecksum => "invalid checksum"
  | .malformedScript fault => "malformed script: " ++ fault.message
  | .invalidOpcode token => "invalid opcode: " ++ token
  | .notEnoughData => "not enough data"
  | .nonMinimalEncoding => "non-minimal encoding"
  | .trailingData => "trailing data after value"
  | .invalidKey fault => "invalid key: " ++ fault.message
  | .emptyMerkleTree => "cannot build a merkle tree without leaves"
  | .insufficientFunds available needed =>
    "insufficient funds: have " ++ toString available.toNat ++ ", need " ++ toString needed.toNat
  | .valueOverflow => "value sum does not fit in 64 bits"
  | .missingOutput => "spent output not found"
  | .missingKey => "no key for public key hash"
  | .inputOutOfRange index => "input index " ++ toString index ++ " out of range"

end UtxoLedger
