/-
UtxoLedger.Validity.Error — why a transaction or a block is not valid.
-/
import UtxoLedger.Script.Error

namespace UtxoLedger

inductive ValidityError where
  /-- A transaction without inputs or without outputs. -/
  | emptyTransaction
  | duplicateInput (index : Nat)
  /-- The spent output is not known. -/
  | missingOutput (index : Nat)
  | inputScriptNotPushOnly (index : Nat)
  /-- A script stopped with an error, or ended with a false value. -/
  | scriptFailed (index : Nat) (error : Option ScriptError)
  | insufficientInputValue (inputs outputs : UInt64)
  | valueOverflow
  | noTransactions
  | missingCoinbase
  | coinbaseNotFirst (index : Nat)
  | invalidMerkleRoot
  /-- The transaction may be confirmed in a later block only. -/
  | txLocked (index : Nat) (lockAbs : UInt64)
  /-- The spent output is not old enough. -/
  | inputLocked (index : Nat) (lockRel : UInt32)
  /-- A transaction of a block is not valid. -/
  | invalidTransaction (index : Nat) (error : ValidityError)
  deriving DecidableEq, Repr

def ValidityError.message : ValidityError → String
  | .emptyTransaction => "Empty transaction"
  | .duplicateInput index => "Input " ++ toString index ++ " spends an outpoint twice"
  | .missingOutput index => "Input " ++ toString index ++ " spends an unknown output"
  | .inputScriptNotPushOnly index => "Input " ++ toString index ++ " script is not push-only"
  | .scriptFailed index (some error) =>
    "Input " ++ toString index ++ " script failed: " ++ error.message
  | .scriptFailed index none => "Input " ++ toString index ++ " script evaluated to false"
  | .insufficientInputValue inputs outputs =>
    "Outputs (" ++ toString outputs.toNat ++ ") exceed inputs (" ++ toString inputs.toNat ++ ")"
  | .valueOverflow => "Value overflow"
  | .noTransactions => "Block has no transactions"
  | .missingCoinbase => "Missing coinbase transaction"
  | .coinbaseNotFirst index =>
    "Coinbase not in first position (index " ++ toString index ++ ")"
  | .invalidMerkleRoot => "Invalid merkle root"
  | .txLocked index lockAbs =>
    "Transaction " ++ toString index ++ " locked until block " ++ toString lockAbs.toNat
  | .inputLocked index lockRel =>
    "Input " ++ toString index ++ " locked for " ++ toString lockRel.toNat ++
      " blocks after its output"
  | .invalidTransaction index error =>
    "Transaction " ++ toString index ++ ": " ++ error.message

end UtxoLedger
