/-
UtxoLedger.Validity.Tx — whether a transaction may spend what it spends.

A transaction is checked against the outputs that can be spent. An input is
satisfied when its script only pushes and the spent output's script, run on the
stack that these pushes leave, ends with a true item. The checks that run
scripts take the digests shared by the signatures of the transaction and hand
them on, also when they fail: what one check computed the next one reuses.

The checks of `verify` come in a fixed order, and the first that fails is
reported: that there are inputs and outputs, that no outpoint is spent twice,
that each input is satisfied, that the spent values cover the outputs. Locks
against the age of the spent outputs are for blocks (`checkLocks`).
-/
import UtxoLedger.OutputMap
import UtxoLedger.Script.Evaluation
import UtxoLedger.Validity.Error

namespace UtxoLedger

namespace Tx

/-! ## One input -/

/-- Whether the script of an output accepts the stack that the input left. -/
def checkOutputScript (tx : Tx) (index : Nat) (output : TxOutput) (stack : Stack)
    (cache : SighashCache) : Except ValidityError Unit × SighashCache :=
  let e := (Evaluation.start stack cache).run ⟨output.script, tx, index, output.value⟩
  if e.succeeded then (.ok (), e.machine.cache)
  else (.error (.scriptFailed index e.error), e.machine.cache)

/-- Runs the script of an input, then the script of the output that it spends. -/
def checkScripts (tx : Tx) (index : Nat) (input : TxInput) (output : TxOutput)
    (cache : SighashCache) : Except ValidityError Unit × SighashCache :=
  let e := (Evaluation.start [] cache).run ⟨input.script, tx, index, 0⟩
  match e.error with
  | some error => (.error (.scriptFailed index (some error)), e.machine.cache)
  | none => tx.checkOutputScript index output e.machine.stack e.machine.cache

def checkInput (tx : Tx) (outputs : OutputMap) (index : Nat) (cache : SighashCache) :
    Except ValidityError Unit × SighashCache :=
  match tx.inputs[index]? with
  | none => (.error (.missingOutput index), cache)
  | some input =>
    match outputs.find? input.outpoint with
    | none => (.error (.missingOutput index), cache)
    | some coin =>
      if input.script.isPushOnly then tx.checkScripts index input coin.output cache
      else (.error (.inputScriptNotPushOnly index), cache)

/-! ## All inputs -/

/-- The position of the first outpoint that occurred before, in a list that
starts at position `index` behind the outpoints `seen`. -/
def firstRepeat? (seen : List Outpoint) : (index : Nat) → List Outpoint → Option Nat
  | _, [] => none
  | index, o :: os =>
    if seen.contains o then some index else firstRepeat? (o :: seen) (index + 1) os

/-- No outpoint may be spent twice. -/
def checkDistinct (tx : Tx) : Except ValidityError Unit :=
  match firstRepeat? [] 0 tx.outpoints with
  | some index => .error (.duplicateInput index)
  | none => .ok ()

/-- Checks `count` inputs from position `index` on. -/
def checkInputsFrom (tx : Tx) (outputs : OutputMap) :
    (count index : Nat) → SighashCache → Except ValidityError Unit × SighashCache
  | 0, _, cache => (.ok (), cache)
  | count + 1, index, cache =>
    match tx.checkInput outputs index cache with
    | (.ok (), cache) => checkInputsFrom tx outputs count (index + 1) cache
    | (.error error, cache) => (.error error, cache)

/-- Every input is satisfied. Repeated outpoints are refused before any script
runs. -/
def checkInputs (tx : Tx) (outputs : OutputMap) (cache : SighashCache) :
    Except ValidityError Unit × SighashCache :=
  match tx.checkDistinct with
  | .error error => (.error error, cache)
  | .ok () => tx.checkInputsFrom outputs tx.inputs.length 0 cache

/-! ## Values and locks -/

/-- The sum of the values that inputs from position `index` on spend, behind the
sum so far. -/
def spentFrom (outputs : OutputMap) :
    (index : Nat) → (total : UInt64) → List TxInput → Except ValidityError UInt64
  | _, total, [] => .ok total
  | index, total, input :: rest =>
    match outputs.find? input.outpoint with
    | none => .error (.missingOutput index)
    | some coin =>
      match Value.add? total coin.output.value with
      | none => .error .valueOverflow
      | some total => spentFrom outputs (index + 1) total rest

/-- The spent values must cover the values of the outputs. -/
def checkValues (tx : Tx) (outputs : OutputMap) : Except ValidityError Unit :=
  match spentFrom outputs 0 0 tx.inputs with
  | .error error => .error error
  | .ok spent =>
    match tx.totalOutput? with
    | none => .error .valueOverflow
    | some created =>
      if spent < created then .error (.insufficientInputValue spent created) else .ok ()

/-- Whether a coin is at least `lockRel` blocks old at a block. -/
def isUnlocked (coin : Coin) (lockRel : UInt32) (blockNum : UInt64) : Bool :=
  match Value.add? coin.blockNum lockRel.toUInt64 with
  | some unlocksAt => decide (unlocksAt ≤ blockNum)
  | none => false

def checkLocksFrom (outputs : OutputMap) (blockNum : UInt64) :
    (index : Nat) → List TxInput → Except ValidityError Unit
  | _, [] => .ok ()
  | index, input :: rest =>
    match outputs.find? input.outpoint with
    | none => .error (.missingOutput index)
    | some coin =>
      if isUnlocked coin input.lockRel blockNum then
        checkLocksFrom outputs blockNum (index + 1) rest
      else .error (.inputLocked index input.lockRel)

/-- Each spent output must be as old at block `blockNum` as its input asks. -/
def checkLocks (tx : Tx) (outputs : OutputMap) (blockNum : UInt64) : Except ValidityError Unit :=
  checkLocksFrom outputs blockNum 0 tx.inputs

/-! ## The whole transaction -/

def verify (tx : Tx) (outputs : OutputMap) (cache : SighashCache) :
    Except ValidityError Unit × SighashCache :=
  if tx.inputs.isEmpty || tx.outputs.isEmpty then (.error .emptyTransaction, cache)
  else
    match tx.checkInputs outputs cache with
    | (.error error, cache) => (.error error, cache)
    | (.ok (), cache) => (tx.checkValues outputs, cache)

end Tx

end UtxoLedger
