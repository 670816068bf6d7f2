/-
UtxoLedger.Proofs.Tx.UnsignedScripts — no signature covers an input script.

`Signer.setScript` exchanges the script of one input. Whatever reads the inputs
without their scripts does not see the exchange (`map_setScript`): the digests
that all inputs share, the signed bytes of every input, and hence whether a
signature is accepted (`accepts_setScript`). This is why signatures can be put
into input scripts one after another, and why pushes that a script adds below a
signature do not spoil it.
-/
import UtxoLedger.Proofs.Tx.SharedDigests
import UtxoLedger.Wallet.Signer

namespace UtxoLedger

namespace Signer

variable (tx : Tx) (index : Nat) (script : Script)

@[simp] theorem version_setScript : (setScript tx index script).version = tx.version := rfl

@[simp] theorem outputs_setScript : (setScript tx index script).outputs = tx.outputs := rfl

@[simp] theorem lockAbs_setScript : (setScript tx index script).lockAbs = tx.lockAbs := rfl

theorem getElem?_inputs_setScript (i : Nat) :
    (setScript tx index script).inputs[i]? =
      tx.inputs[i]?.map fun input =>
        if index = i then { input with script := script } else input := by
  simp only [setScript, List.getElem?_modify]
  rfl

/-- The input itself keeps its outpoint and its lock. -/
theorem getElem?_inputs_setScript_self {input : TxInput} (h : tx.inputs[index]? = some input) :
    (setScript tx index script).inputs[index]? = some { input with script := script } := by
  simp [getElem?_inputs_setScript, h]

/-- What is read off the inputs apart from their scripts stays as it was. -/
theorem map_setScript {β : Type} (f : TxInput → β)
    (hf : ∀ input, f { input with script := script } = f input) :
    (setScript tx index script).inputs.map f = tx.inputs.map f := by
  apply List.ext_getElem?
  intro i
  simp only [List.getElem?_map, getElem?_inputs_setScript, Option.map_map]
  congr 1
  funext input
  by_cases hi : index = i
  · simp [hi, hf]
  · simp [hi]

/-! ## The shared digests -/

/-- No digest that is shared covers the scripts of inputs. -/
@[simp] theorem hashOutpoints_setScript :
    (setScript tx index script).hashOutpoints = tx.hashOutpoints := by
  simp only [Tx.hashOutpoints, List.flatMap_def]
  rw [map_setScript tx index script _ fun _ => rfl]

@[simp] theorem hashLockRels_setScript :
    (setScript tx index script).hashLockRels = tx.hashLockRels := by
  simp only [Tx.hashLockRels, List.flatMap_def]
  rw [map_setScript tx index script _ fun _ => rfl]

@[simp] theorem hashOutputs_setScript :
    (setScript tx index script).hashOutputs = tx.hashOutputs := rfl

/-- The digests stay good when a script is exchanged. -/
theorem belongsTo_setScript_iff (cache : SighashCache) :
    cache.BelongsTo (setScript tx index script) ↔ cache.BelongsTo tx := by
  refine ⟨fun h => ?_, fun h => ?_⟩
  · exact ⟨by simpa using h.outpoints, by simpa using h.lockRels, by simpa using h.outputs⟩
  · exact ⟨by simpa using h.outpoints, by simpa using h.lockRels, by simpa using h.outputs⟩

/-! ## The signed bytes -/

/-- Of the input that it is for, a signature covers the outpoint and the lock. -/
theorem preimage_setScript {input input' : TxInput} (houtpoint : input'.outpoint = input.outpoint)
    (hlockRel : input'.lockRel = input.lockRel) (spend : Spend) (hashType : UInt8) :
    (setScript tx index script).preimage input' spend hashType =
      tx.preimage input spend hashType := by
  simp [Tx.preimage, Tx.outpointsPart, Tx.lockRelsPart, Tx.outputsPart, houtpoint, hlockRel]

/-- A signature is accepted no matter what scripts the inputs have. -/
theorem accepts_setScript (spend : Spend) (key : PublicKey) (sig : TxSignature) :
    (setScript tx index script).accepts spend key sig = tx.accepts spend key sig := by
  unfold Tx.accepts
  rw [getElem?_inputs_setScript]
  cases tx.inputs[spend.index]? with
  | none => rfl
  | some input =>
    have hsame : ∀ input', input'.outpoint = input.outpoint → input'.lockRel = input.lockRel →
        (setScript tx index script).preimage input' spend sig.hashType =
          tx.preimage input spend sig.hashType :=
      fun _ houtpoint hlockRel =>
        preimage_setScript tx index script houtpoint hlockRel spend sig.hashType
    by_cases hi : index = spend.index
    · simp only [Option.map_some, if_pos hi, hsame { input with script := script } rfl rfl]
    · simp only [Option.map_some, if_neg hi, hsame input rfl rfl]

end Signer

end UtxoLedger
