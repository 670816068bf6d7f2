/-
UtxoLedger.Proofs.Script.Templates — what the standard scripts are recognised as,
and what their unlocking scripts push.

The recogniser of a pay-to-key-hash script looks at opcodes and at one length, but
a chunk without data is determined by its opcode, so what it recognises is what the
constructor makes (`keyHash?_eq_some_iff`). An unlocking script only pushes, and it
pushes the bytes of the signatures and keys that it was made of; these bytes read
back as what was written.
-/
import UtxoLedger.Proofs.Script.Pushes
import UtxoLedger.Script.Template

namespace UtxoLedger

/-! ## Keys and signatures as items -/

theorem TxSignature.decode_encode (sig : TxSignature) :
    TxSignature.decode sig.encode = .ok sig := by
  show (if h : sig.signature.toList.length = 64 then _ else _) = _
  rw [dif_pos sig.signature.length_toList]

theorem PublicKey.ofBytes_toList (key : PublicKey) :
    PublicKey.ofBytes key.bytes.toList = .ok key := by
  rw [ofBytes, Fixed.ofList_toList]
  show ofFixed key.bytes = _
  rw [ofFixed, dif_pos key.onCurve]

/-! ## Pay to key hash -/

/-- An opcode that pushes no data stands in a script as itself. -/
theorem Chunk.isOp_iff {chunk : Chunk} {code : Opcode} (noData : code.lengthWidth? = none) :
    chunk.isOp code = true ↔ chunk = .op code noData := by
  unfold isOp
  rw [beq_iff_eq]
  cases chunk with
  | op code' noData' => simp [opcode?]
  | unknown byte undefined => simp [opcode?]
  | push data pushable =>
    simp only [opcode?, Option.some.injEq, reduceCtorEq, iff_false]
    rintro rfl
    cases noData

namespace Script

/-- The recognizer returns the hash that the template was made for. -/
theorem keyHash?_payToKeyHash (hash : KeyHash) : (payToKeyHash hash).keyHash? = some hash := by
  show (if h : hash.digest.toList.length = 32 then _ else _) = _
  rw [dif_pos hash.digest.length_toList]

/-- The recogniser gives a hash for the script that is paid to it and for no other. -/
theorem keyHash?_eq_some_iff (script : Script) (hash : KeyHash) :
    script.keyHash? = some hash ↔ script = payToKeyHash hash := by
  constructor
  · intro h
    unfold keyHash? at h
    split at h
    · rename_i dup double data pushable same check hchunks
      split at h
      · rename_i hops
        simp only [Bool.and_eq_true] at hops
        obtain ⟨⟨⟨hdup, hdouble⟩, hsame⟩, hcheck⟩ := hops
        split at h
        · rename_i hlength
          obtain rfl := Option.some.inj h
          rw [Chunk.isOp_iff rfl] at hdup hdouble hsame hcheck
          cases script
          simp only at hchunks
          rw [hchunks, hdup, hdouble, hsame, hcheck]
          rfl
        · cases h
      · cases h
    · cases h
  · rintro rfl
    exact keyHash?_payToKeyHash hash

variable (sig : TxSignature) (key : PublicKey) (sigs : List TxSignature)

theorem isPushOnly_unlockKeyHash : (unlockKeyHash sig key).isPushOnly = true := by
  rw [isPushOnly_iff]
  simp [unlockKeyHash, Chunk.ofSignature, Chunk.ofKey, Chunk.pushed?]

theorem pushed_unlockKeyHash :
    (unlockKeyHash sig key).pushed = [sig.encode, key.bytes.toList] := rfl

/-! ## m of n keys -/

/-- All that unlocks such an output is data, whatever the number of keys. -/
theorem isPushOnly_unlockKeys : (unlockKeys sigs).isPushOnly = true := by
  rw [isPushOnly_iff]
  simp [unlockKeys, Chunk.ofSignature, Chunk.pushed?]

theorem pushed_unlockKeys : (unlockKeys sigs).pushed = sigs.map TxSignature.encode := by
  induction sigs with
  | nil => rfl
  | cons sig sigs ih => exact congrArg (sig.encode :: ·) ih

end Script

end UtxoLedger
