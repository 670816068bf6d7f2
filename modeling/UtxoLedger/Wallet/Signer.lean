/-
UtxoLedger.Wallet.Signer — signing the inputs that spend pay-to-key-hash outputs.

A signature covers everything of a transaction but the input scripts, and a
signature goes into an input script. So inputs can be signed one after another,
in any order, with the shared digests computed once.
-/
import UtxoLedger.OutputMap
import UtxoLedger.Tx.Sighash
import UtxoLedger.Wallet.KeyRing

namespace UtxoLedger

/-- A transaction that is being signed, and the digests that its signatures
share. -/
structure Signer where
  tx : Tx
  cache : SighashCache

namespace Signer

def start (tx : Tx) : Signer := ⟨tx, .empty⟩

/-- Exchanges the script of one input. -/
def setScript (tx : Tx) (index : Nat) (script : Script) : Tx :=
  { tx with inputs := tx.inputs.modify index fun input => { input with script := script } }

/-- Signs one input with the key that its output is paid to. The script is exchanged
last, when nothing can fail any more. -/
def sign (outputs : OutputMap) (ring : KeyRing) (signer : Signer) (index : Nat) :
    Except Error Unit × Signer :=
  match signer.tx.inputs[index]? with
  | none => (.error (.inputOutOfRange index), signer)
  | some input =>
    match outputs.find? input.outpoint with
    | none => (.error .missingOutput, signer)
    | some coin =>
      match coin.output.script.keyHash?.bind ring.find? with
      | none => (.error .missingKey, signer)
      | some pair =>
        let spend : Spend := ⟨index, coin.output.script.encode, coin.output.value⟩
        match signer.tx.sign spend pair.privateKey HashType.all signer.cache with
        | (.error error, cache) => (.error error, ⟨signer.tx, cache⟩)
        | (.ok sig, cache) =>
          (.ok (), ⟨setScript signer.tx index (.unlockKeyHash sig pair.publicKey), cache⟩)

/-- Signs `count` inputs from position `index` on, up to the first that cannot
be signed. The inputs before that one stay signed. -/
def signFrom (outputs : OutputMap) (ring : KeyRing) :
    (count index : Nat) → Signer → Except Error Unit × Signer
  | 0, _, signer => (.ok (), signer)
  | count + 1, index, signer =>
    match signer.sign outputs ring index with
    | (.ok _, signer) => signFrom outputs ring count (index + 1) signer
    | (.error error, signer) => (.error error, signer)

def signAll (outputs : OutputMap) (ring : KeyRing) (signer : Signer) :
    Except Error Unit × Signer :=
  signFrom outputs ring signer.tx.inputs.length 0 signer

end Signer

end UtxoLedger
