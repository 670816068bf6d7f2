/-
UtxoLedger.Script.Error — why the script machine stops before the end.
-/

namespace UtxoLedger

inductive ScriptError where
  /-- Items are missing, or do not fit the operation. -/
  | invalidStackOperation
  /-- A conditional without a value, without its opening, or left open. -/
  | unbalancedConditional
  | verifyFailed
  | divisionByZero
  | invalidShift
  | invalidPublicKeyLength
  | invalidSignatureLength
  | invalidKeyCount
  | invalidSigCount
  | lockNotSatisfied
  | invalidOpcode
  deriving DecidableEq, Repr

def ScriptError.message : ScriptError → String
  | .invalidStackOperation => "invalid stack operation"
  | .unbalancedConditional => "unbalanced conditional"
  | .verifyFailed => "verify failed"
  | .divisionByZero => "division by zero"
  | .invalidShift => "invalid shift"
  | .invalidPublicKeyLength => "invalid public key length"
  | .invalidSignatureLength => "invalid signature length"
  | .invalidKeyCount => "invalid number of keys"
  | .invalidSigCount => "invalid number of signatures"
  | .lockNotSatisfied => "lock time requirement not met"
  | .invalidOpcode => "invalid opcode"

end UtxoLedger
