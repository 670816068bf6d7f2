/-
UtxoLedger.Wallet.Funding — paying for requested outputs from a set of outputs.

Coins are taken in the order of the map until they cover what is requested, and
at least one is taken. What remains goes to a change output behind the requested
ones; if nothing remains there is none. The inputs are not signed yet.
-/
import UtxoLedger.OutputMap

namespace UtxoLedger

/-- What a new transaction should create. -/
structure TxRequest where
  outputs : List TxOutput
  /-- The script of the change output. -/
  changeScript : Script
  lockAbs : UInt64

namespace TxRequest

/-- An input that is still to be signed. -/
def unsigned (o : Outpoint) : TxInput := ⟨o, .empty, 0⟩

/-- Takes coins until at least `needed` is available, behind the inputs already
taken, which are held in reverse. Gives all inputs and their value. -/
def select (needed : UInt64) :
    (available : UInt64) → (taken : List TxInput) → List (Outpoint × Coin) →
      Except Error (List TxInput × UInt64)
  | available, taken, [] => .ok (taken.reverse, available)
  | available, taken, (o, coin) :: rest =>
    -- at least one coin is taken, also where nothing is needed
    if needed ≤ available ∧ taken ≠ [] then .ok (taken.reverse, available)
    else
      match Value.add? available coin.output.value with
      | some available => select needed available (unsigned o :: taken) rest
      | none => .error .valueOverflow

/-- The change output, unless there is no change. -/
def change (r : TxRequest) (value : UInt64) : List TxOutput :=
  if value = 0 then [] else [⟨value, r.changeScript⟩]

/-- The unsigned transaction, funded from a map. -/
def build (r : TxRequest) (outputs : OutputMap) : Except Error Tx :=
  match Value.sum? (r.outputs.map TxOutput.value) with
  | none => .error .valueOverflow
  | some needed =>
    match select needed 0 [] outputs.toList with
    | .error error => .error error
    | .ok (inputs, available) =>
      if available < needed ∨ inputs = [] then .error (.insufficientFunds available needed)
      else
        .ok ⟨Tx.currentVersion, inputs, r.outputs ++ r.change (available - needed), r.lockAbs⟩

end TxRequest

end UtxoLedger
