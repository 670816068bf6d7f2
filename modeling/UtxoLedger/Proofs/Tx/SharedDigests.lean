/-
UtxoLedger.Proofs.Tx.SharedDigests — the cache of shared digests never shows in
an answer.

A cache belongs to a transaction when each digest in it is the transaction's
(`BelongsTo`); the empty cache belongs to every transaction. `Settled tx f a` is
the form of every statement here: a computation that takes a cache and hands one
on answers `a` on each cache that belongs to `tx`, and the cache that it hands on
belongs to `tx` again. So settled checks can be chained (`Settled.followedBy`).

* `settled_commitOutpoints`, `settled_commitLockRels`, `settled_commitOutputs`:
  the three digests, as the hash type asks for them.
* `settled_sighashPreimage`: the signed bytes are `signedBytes`, written without a
  cache. What is made of them does not touch the cache again, so digests and
  signatures are settled with them (`Settled.map`).
* `settled_checkSignature`: so whether a signature is accepted is a property of
  the transaction, the spend, the key and the signature.
-/
import UtxoLedger.Tx.Sighash

namespace UtxoLedger

/-- Each digest in the cache is the one computed from the transaction. -/
structure SighashCache.BelongsTo (cache : SighashCache) (tx : Tx) : Prop where
  outpoints : ∀ digest, cache.outpoints = some digest → digest = tx.hashOutpoints
  lockRels : ∀ digest, cache.lockRels = some digest → digest = tx.hashLockRels
  outputs : ∀ digest, cache.outputs = some digest → digest = tx.hashOutputs

/-- The empty cache holds no digest that could be wrong. -/
theorem SighashCache.empty_belongsTo (tx : Tx) : SighashCache.empty.BelongsTo tx := by
  constructor <;> (intro digest h; cases h)

/-- The computation answers `answer` on every cache of the transaction, and
leaves such a cache. -/
def Settled (tx : Tx) {α : Type} (f : SighashCache → α × SighashCache) (answer : α) : Prop :=
  ∀ cache : SighashCache, cache.BelongsTo tx → (f cache).1 = answer ∧ (f cache).2.BelongsTo tx

/-- One check after another, on the cache that the first leaves, unless it fails. -/
def followedBy {ε : Type} (f g : SighashCache → Except ε Unit × SighashCache)
    (cache : SighashCache) : Except ε Unit × SighashCache :=
  match f cache with
  | (.ok _, cache) => g cache
  | (.error error, cache) => (.error error, cache)

namespace Settled

variable {tx : Tx} {α ε : Type} {f : SighashCache → α × SighashCache} {answer : α}

/-- The answer is the one that the empty cache gives. -/
theorem of_empty (h : Settled tx f answer) : (f .empty).1 = answer :=
  (h .empty (SighashCache.empty_belongsTo tx)).1

/-- The answer on the empty cache can stand for the answer on all. -/
theorem self (h : Settled tx f answer) : Settled tx f (f .empty).1 := by
  rw [h.of_empty]
  exact h

theorem constant (tx : Tx) (answer : α) : Settled tx (fun cache => (answer, cache)) answer :=
  fun _ h => ⟨rfl, h⟩

/-- What is made of a settled answer without the cache is settled. -/
theorem map {β : Type} (h : Settled tx f answer) (g : α → β) :
    Settled tx (fun cache => (g (f cache).1, (f cache).2)) (g answer) := by
  intro cache hcache
  obtain ⟨hanswer, hcache⟩ := h cache hcache
  exact ⟨congrArg g hanswer, hcache⟩

/-- Settled checks can be chained: the second runs on a cache that belongs to the
transaction because the first left one. -/
theorem followedBy {f g : SighashCache → Except ε Unit × SighashCache} {a b : Except ε Unit}
    (hf : Settled tx f a) (hg : Settled tx g b) :
    Settled tx (followedBy f g) (a >>= fun _ => b) := by
  intro cache h
  obtain ⟨hanswer, h'⟩ := hf cache h
  unfold UtxoLedger.followedBy
  generalize f cache = checked at hanswer h'
  obtain ⟨answer, left⟩ := checked
  subst hanswer
  cases answer with
  | ok _ => exact hg left h'
  | error _ => exact ⟨rfl, h'⟩

end Settled

namespace Tx

/-! ## The three digests -/

/-- What stands for the outpoints of all inputs in the signed bytes. -/
def outpointsPart (tx : Tx) (hashType : UInt8) : Digest :=
  if HashType.isAnyoneCanPay hashType then .zero else tx.hashOutpoints

/-- What stands for the relative locks of all inputs. -/
def lockRelsPart (tx : Tx) (hashType : UInt8) : Digest :=
  if HashType.isAnyoneCanPay hashType || HashType.base hashType == HashType.none ||
      HashType.base hashType == HashType.single then .zero
  else tx.hashLockRels

/-- What stands for the outputs, for an input at position `index`. -/
def outputsPart (tx : Tx) (index : Nat) (hashType : UInt8) : Digest :=
  if HashType.base hashType == HashType.none then .zero
  else if HashType.base hashType == HashType.single then
    match tx.outputs[index]? with
    | some output => .double output.encode
    | none => .zero
  else tx.hashOutputs

/-- A field that holds the right digest if it holds one answers that digest. -/
theorem getD_of_forall {field : Option Digest} {digest : Digest}
    (h : ∀ d, field = some d → d = digest) : field.getD digest = digest := by
  cases field with
  | none => rfl
  | some d => exact h d rfl

/-- The part is left out, or it is taken from the cache or put there. -/
theorem settled_commitOutpoints (tx : Tx) (hashType : UInt8) :
    Settled tx (tx.commitOutpoints hashType) (tx.outpointsPart hashType) := by
  intro cache h
  unfold commitOutpoints outpointsPart
  split
  · exact ⟨rfl, h⟩
  · have hdigest := getD_of_forall h.outpoints
    exact ⟨hdigest, fun d hd => (Option.some.inj hd).symm.trans hdigest, h.lockRels, h.outputs⟩

theorem settled_commitLockRels (tx : Tx) (hashType : UInt8) :
    Settled tx (tx.commitLockRels hashType) (tx.lockRelsPart hashType) := by
  intro cache h
  unfold commitLockRels lockRelsPart
  split
  · exact ⟨rfl, h⟩
  · have hdigest := getD_of_forall h.lockRels
    exact ⟨hdigest, h.outpoints, fun d hd => (Option.some.inj hd).symm.trans hdigest, h.outputs⟩

theorem settled_commitOutputs (tx : Tx) (index : Nat) (hashType : UInt8) :
    Settled tx (tx.commitOutputs index hashType) (tx.outputsPart index hashType) := by
  intro cache h
  unfold commitOutputs outputsPart
  split
  · exact ⟨rfl, h⟩
  · split
    · cases tx.outputs[index]? <;> exact ⟨rfl, h⟩
    · have hdigest := getD_of_forall h.outputs
      exact ⟨hdigest, h.outpoints, h.lockRels, fun d hd => (Option.some.inj hd).symm.trans hdigest⟩

/-! ## The signed bytes -/

/-- The bytes that a signature on an input covers. -/
def preimage (tx : Tx) (input : TxInput) (spend : Spend) (hashType : UInt8) : Bytes :=
  tx.version :: ((tx.outpointsPart hashType).toList ++ ((tx.lockRelsPart hashType).toList ++
    (input.outpoint.encode ++ (VarBytes.encode spend.script ++ (encodeUInt64 spend.value ++
    (encodeUInt32 input.lockRel ++ ((tx.outputsPart spend.index hashType).toList ++
    (encodeUInt64 tx.lockAbs ++ [hashType]))))))))

/-- The bytes that a call for a spend gets, or why it gets none. -/
def signedBytes (tx : Tx) (spend : Spend) (hashType : UInt8) : Except Error Bytes :=
  match tx.inputs[spend.index]? with
  | some input => .ok (tx.preimage input spend hashType)
  | none => .error (.inputOutOfRange spend.index)

theorem signedBytes_of_input {tx : Tx} {spend : Spend} {input : TxInput} (hashType : UInt8)
    (hinput : tx.inputs[spend.index]? = some input) :
    tx.signedBytes spend hashType = .ok (tx.preimage input spend hashType) := by
  rw [signedBytes, hinput]

/-- The parts are computed in turn on one cache, and without an input none is. -/
theorem settled_sighashPreimage (tx : Tx) (spend : Spend) (hashType : UInt8) :
    Settled tx (tx.sighashPreimage spend hashType) (tx.signedBytes spend hashType) := by
  intro cache h
  unfold sighashPreimage signedBytes
  cases hinput : tx.inputs[spend.index]? with
  | none => exact ⟨rfl, h⟩
  | some input =>
    obtain ⟨houtpoints, h⟩ := settled_commitOutpoints tx hashType cache h
    obtain ⟨hlockRels, h⟩ := settled_commitLockRels tx hashType _ h
    obtain ⟨houtputs, h⟩ := settled_commitOutputs tx spend.index hashType _ h
    refine ⟨?_, h⟩
    show Except.ok _ = Except.ok (tx.preimage input spend hashType)
    rw [preimage, ← houtpoints, ← hlockRels, ← houtputs]

/-- The digest of what is signed, and the same failure. -/
theorem settled_sighash (tx : Tx) (spend : Spend) (hashType : UInt8) :
    Settled tx (tx.sighash spend hashType) (Digest.double <$> tx.signedBytes spend hashType) :=
  (tx.settled_sighashPreimage spend hashType).map _

theorem settled_sign (tx : Tx) (spend : Spend) (key : PrivateKey) (hashType : UInt8) :
    Settled tx (tx.sign spend key hashType)
      ((fun digest => ⟨hashType, key.sign digest⟩) <$> Digest.double <$>
        tx.signedBytes spend hashType) :=
  (tx.settled_sighash spend hashType).map _

/-- The digest for an input that exists, on the empty cache. -/
theorem sighash_of_input {tx : Tx} {spend : Spend} {input : TxInput} (hashType : UInt8)
    (hinput : tx.inputs[spend.index]? = some input) :
    (tx.sighash spend hashType .empty).1 = .ok (.double (tx.preimage input spend hashType)) := by
  rw [(tx.settled_sighash spend hashType).of_empty, signedBytes_of_input hashType hinput]
  rfl

/-- A call for an input that does not exist fails before it looks at the cache, and hands
it back. -/
theorem sighashPreimage_out_of_range {tx : Tx} {spend : Spend} (hashType : UInt8)
    (cache : SighashCache) (h : tx.inputs[spend.index]? = none) :
    tx.sighashPreimage spend hashType cache = (.error (.inputOutOfRange spend.index), cache) := by
  rw [sighashPreimage, h]

/-! ## Signatures -/

/-- Whether the key signed what the signature's own hash type selects. -/
def accepts (tx : Tx) (spend : Spend) (key : PublicKey) (sig : TxSignature) : Bool :=
  match tx.inputs[spend.index]? with
  | some input => key.verify (.double (tx.preimage input spend sig.hashType)) sig.signature
  | none => false

/-- A signature is checked against the digest of its own hash type. -/
theorem accepts_eq_true_iff (tx : Tx) (spend : Spend) (key : PublicKey) (sig : TxSignature) :
    tx.accepts spend key sig = true ↔
      ∃ digest, (tx.sighash spend sig.hashType .empty).1 = .ok digest ∧
        key.verify digest sig.signature = true := by
  rw [(tx.settled_sighash spend sig.hashType).of_empty]
  unfold accepts signedBytes
  cases tx.inputs[spend.index]? with
  | none => simp [Functor.map, Except.map]
  | some input => simp [Functor.map, Except.map]

/-- A digest that cannot be computed counts as a signature that does not verify. -/
theorem settled_checkSignature (tx : Tx) (spend : Spend) (key : PublicKey) (sig : TxSignature) :
    Settled tx (tx.checkSignature spend key sig) (tx.accepts spend key sig) := by
  intro cache h
  obtain ⟨hdigest, h'⟩ := tx.settled_sighash spend sig.hashType cache h
  unfold checkSignature accepts
  generalize tx.sighash spend sig.hashType cache = hashed at hdigest h'
  obtain ⟨digest, left⟩ := hashed
  subst hdigest
  unfold signedBytes
  cases tx.inputs[spend.index]? with
  | none => exact ⟨rfl, h'⟩
  | some input => exact ⟨rfl, h'⟩

end Tx

end UtxoLedger
