/-
UtxoLedger.Proofs.Tx.PayToKeyHash — an output paid to a key hash is spent by the
holder of the key.

`Setting.keyHashVerdict` says what the five chunks of a pay-to-key-hash script
come to on a stack: the error that ends them, or whether the signature matches
the key. It looks at the two items on top only.

* `ends_payToKeyHash`: the run of the machine comes to the verdict, in every one
  of its branches.
* `checkInput_payToKeyHash`: the answer for an input, from the verdict on what
  its script pushes.
* `keyHashVerdict_eq_true_iff`: the verdict is yes when the two items are the key
  and a signature by it (`Tx.Authorizes`).
-/
import UtxoLedger.Proofs.Script.Steps
import UtxoLedger.Proofs.Tx.UnsignedScripts
import UtxoLedger.Proofs.Tx.Verdict

namespace UtxoLedger

/-! ## The verdict of the script -/

/-- What a signature check comes to on a stack, the key above the signature. -/
def Setting.checkSigVerdict (env : Setting) : Stack → Except ScriptError Bool
  | key :: sig :: _ =>
    if key.length ≠ PublicKey.size then .error .invalidPublicKeyLength
    else if sig.length ≠ TxSignature.size then .error .invalidSignatureLength
    else .ok (env.matchesItem key sig)
  | _ => .error .invalidStackOperation

/-- What a pay-to-key-hash script comes to on a stack. The key on top is hashed
before anything below it is looked at. -/
def Setting.keyHashVerdict (env : Setting) (hash : KeyHash) : Stack → Except ScriptError Bool
  | [] => .error .invalidStackOperation
  | key :: below =>
    if Digest.double key = hash.digest then env.checkSigVerdict (key :: below)
    else .error .verifyFailed

/-! ## The run -/

theorem ends_checkSig {env : Setting} {m : Machine} {s : Stack} {cache : SighashCache}
    {noData : Opcode.checkSig.lengthWidth? = none} (h : m.Holds s cache)
    (hcache : cache.BelongsTo env.tx) :
    Ends (runFrom env [.op .checkSig noData] m) (env.checkSigVerdict s) := by
  have htally := h.tally (.op .checkSig noData)
  rw [runFrom_cons _ [] h.conditions_eq]
  simp only [Machine.step, Machine.exec, Machine.checkSig, htally.stack_eq, htally.cache_eq]
  rcases s with _ | ⟨key, _ | ⟨sig, s⟩⟩
  · rfl
  · rfl
  · unfold Setting.checkSigVerdict
    by_cases hkey : key.length = PublicKey.size
    · by_cases hsig : sig.length = TxSignature.size
      · have hmatch := (Machine.settled_checkItem env key sig cache hcache).1
        simp [hkey, hsig, hmatch, Machine.conclude, Machine.push, runFrom, Ends, h.conditions_eq]
      · simp [hkey, hsig, Ends]
    · simp [hkey, Ends]

/-- The five chunks, with the proofs in them named. -/
theorem KeyHash.chunks_payToKeyHash (hash : KeyHash) :
    ∃ dup double pushable same check, (Script.payToKeyHash hash).chunks =
      [.op (.shuffle .dup) dup, .op .doubleBlake3 double, .push hash.digest.toList pushable,
        .op .equalVerify same, .op .checkSig check] :=
  ⟨_, _, _, _, _, rfl⟩

/-- The run comes to the verdict. -/
theorem ends_payToKeyHash {env : Setting} {m : Machine} {s : Stack} {cache : SighashCache}
    (hash : KeyHash) (h : m.Holds s cache) (hcache : cache.BelongsTo env.tx) :
    Ends (runFrom env (Script.payToKeyHash hash).chunks m) (env.keyHashVerdict hash s) := by
  obtain ⟨dup, double, pushable, same, check, hchunks⟩ := hash.chunks_payToKeyHash
  rw [hchunks]
  cases s with
  | nil =>
    obtain ⟨m', -, hrun⟩ := h.onStack_fail env _ (.shuffle .dup) (Stack.shuffle .dup)
      (fun _ => rfl) rfl
    rw [hrun]
    rfl
  | cons key below =>
    -- the first three chunks need an item and nothing of it
    obtain ⟨m₁, h₁, hrun₁⟩ := h.onStack_ok env _ (.shuffle .dup) (Stack.shuffle .dup)
      (fun _ => rfl) rfl
    obtain ⟨m₂, h₂, hrun₂⟩ := h₁.onStack_ok env _ .doubleBlake3 Stack.doubleBlake3
      (fun _ => rfl) rfl
    obtain ⟨m₃, h₃, hrun₃⟩ := h₂.push env _ hash.digest.toList _
    rw [hrun₁, hrun₂, hrun₃, Setting.keyHashVerdict]
    -- the fourth compares bytes, and digests are equal if their bytes are
    by_cases hhash : Digest.double key = hash.digest
    · have hsame : Stack.equalVerify
          (hash.digest.toList :: (Digest.double key).toList :: key :: below) =
            .ok (key :: below) := by
        simp [Stack.equalVerify, hhash]
      obtain ⟨m₄, h₄, hrun₄⟩ := h₃.onStack_ok env _ .equalVerify Stack.equalVerify
        (fun _ => rfl) hsame
      rw [hrun₄, if_pos hhash]
      exact ends_checkSig h₄ hcache
    · have hdiffer : Stack.equalVerify
          (hash.digest.toList :: (Digest.double key).toList :: key :: below) =
            .fail .verifyFailed (key :: below) := by
        have hbytes : (Digest.double key).toList ≠ hash.digest.toList :=
          fun hbytes => hhash (Fixed.ext hbytes)
        simp [Stack.equalVerify, hbytes]
      obtain ⟨m₄, -, hrun₄⟩ := h₃.onStack_fail env _ .equalVerify Stack.equalVerify
        (fun _ => rfl) hdiffer
      rw [hrun₄, if_neg hhash]
      rfl

/-! ## The answer for an input -/

namespace Tx

/-- The check of an input, for every cache of the transaction. -/
theorem checkInput_payToKeyHash {tx : Tx} {outputs : OutputMap} {index : Nat} {hash : KeyHash}
    {input : TxInput} {coin : Coin} {cache : SighashCache}
    (hinput : tx.inputs[index]? = some input) (hcoin : outputs.find? input.outpoint = some coin)
    (hscript : coin.output.script = .payToKeyHash hash) (hcache : cache.BelongsTo tx) :
    (tx.checkInput outputs index cache).1 =
      if input.script.isPushOnly then
        answerOf index (Setting.keyHashVerdict
          ⟨coin.output.script, tx, index, coin.output.value⟩ hash input.script.pushed.reverse)
      else .error (.inputScriptNotPushOnly index) := by
  refine checkInput_of_ends hinput hcoin ?_
  rw [hscript]
  exact ends_payToKeyHash hash ⟨rfl, rfl, rfl⟩ hcache

/-! ## Who is authorised -/

/-- The one item is a key with the hash, and the other a signature by it for the
spend, of the hash type that the signature names. -/
def Authorizes (tx : Tx) (spend : Spend) (hash : KeyHash) (sigItem keyItem : Bytes) : Prop :=
  ∃ key sig digest,
    keyItem.length = 33 ∧ PublicKey.ofBytes keyItem = .ok key ∧
    Digest.double keyItem = hash.digest ∧
    sigItem.length = 65 ∧ TxSignature.decode sigItem = .ok sig ∧
    (tx.sighash spend sig.hashType .empty).1 = .ok digest ∧
    key.verify digest sig.signature = true

end Tx

/-- The widths are looked at before anything is verified. -/
theorem Setting.checkSigVerdict_eq_true_iff (env : Setting) (key sig : Bytes) (below : Stack) :
    env.checkSigVerdict (key :: sig :: below) = .ok true ↔
      key.length = PublicKey.size ∧ sig.length = TxSignature.size ∧
        env.matchesItem key sig = true := by
  unfold checkSigVerdict
  by_cases hkey : key.length = PublicKey.size
  · by_cases hsig : sig.length = TxSignature.size
    · simp [hkey, hsig]
    · simp [hkey, hsig]
  · simp [hkey]

/-- The key comes on top, and below it the signature. What lies below is not looked at. -/
theorem Setting.keyHashVerdict_eq_true_iff (env : Setting) (hash : KeyHash) (s : Stack) :
    env.keyHashVerdict hash s = .ok true ↔
      ∃ key sig below, s = key :: sig :: below ∧
        env.tx.Authorizes env.spend hash sig key := by
  constructor
  · intro h
    rcases s with _ | ⟨key, _ | ⟨sig, below⟩⟩
    · cases h
    · rw [keyHashVerdict] at h
      split at h <;> cases h
    · rw [keyHashVerdict] at h
      split at h
      · rename_i hhash
        obtain ⟨hkey, hsig, hmatch⟩ := (env.checkSigVerdict_eq_true_iff key sig below).mp h
        obtain ⟨key', sig', hofBytes, hdecode, haccepts⟩ :=
          (env.matchesItem_eq_true_iff key sig).mp hmatch
        obtain ⟨digest, hsighash, hverify⟩ :=
          (env.tx.accepts_eq_true_iff env.spend key' sig').mp haccepts
        exact ⟨key, sig, below, rfl, key', sig', digest, hkey, hofBytes, hhash, hsig,
          hdecode, hsighash, hverify⟩
      · cases h
  · rintro ⟨key, sig, below, rfl, key', sig', digest, hkey, hofBytes, hhash, hsig, hdecode,
      hsighash, hverify⟩
    have haccepts : env.tx.accepts env.spend key' sig' = true :=
      (env.tx.accepts_eq_true_iff env.spend key' sig').mpr ⟨digest, hsighash, hverify⟩
    have hmatch : env.matchesItem key sig = true :=
      (env.matchesItem_eq_true_iff key sig).mpr ⟨key', sig', hofBytes, hdecode, haccepts⟩
    rw [keyHashVerdict, if_pos hhash]
    exact (env.checkSigVerdict_eq_true_iff key sig below).mpr ⟨hkey, hsig, hmatch⟩

/-- Only the two items on top count, and the transaction only as far as
signatures are concerned. -/
theorem Setting.keyHashVerdict_congr {env env' : Setting} {hash : KeyHash} {key sig : Bytes}
    (hmatch : env'.matchesItem key sig = env.matchesItem key sig) (below below' : Stack) :
    env'.keyHashVerdict hash (key :: sig :: below') =
      env.keyHashVerdict hash (key :: sig :: below) := by
  simp [keyHashVerdict, checkSigVerdict, hmatch]

/-- Unlocking scripts are not signed. -/
theorem Setting.matchesItem_setScript (script : Script) (tx : Tx) (index changed : Nat)
    (value : UInt64) (unlock : Script) (key sig : Bytes) :
    Setting.matchesItem ⟨script, Signer.setScript tx changed unlock, index, value⟩ key sig =
      Setting.matchesItem ⟨script, tx, index, value⟩ key sig := by
  unfold matchesItem
  simp only [Signer.accepts_setScript]
  rfl

namespace Tx

/-- **A pay-to-key-hash output is spent by the holder of the key only.** The
input is satisfied when its script only pushes and ends with a signature and the
key. Pushes below these two, which leave the signed bytes as they are, change no
answer, not even the error of a refusal. -/
theorem payToKeyHash_authorizes_holder {tx : Tx} {outputs : OutputMap} {index : Nat}
    {hash : KeyHash} {input : TxInput} {coin : Coin} {cache : SighashCache}
    (hinput : tx.inputs[index]? = some input) (hcoin : outputs.find? input.outpoint = some coin)
    (hscript : coin.output.script = .payToKeyHash hash) (hcache : cache.BelongsTo tx) :
    ((tx.checkInput outputs index cache).1 = .ok () ↔
      input.script.isPushOnly = true ∧ ∃ below sig key,
        input.script.pushed = below ++ [sig, key] ∧
          tx.Authorizes ⟨index, coin.output.script.encode, coin.output.value⟩ hash sig key) ∧
    ∀ below below' sig key script cache',
      input.script.isPushOnly = true → input.script.pushed = below ++ [sig, key] →
      script.isPushOnly = true → script.pushed = below' ++ [sig, key] →
      cache'.BelongsTo (Signer.setScript tx index script) →
        ((Signer.setScript tx index script).checkInput outputs index cache').1 =
          (tx.checkInput outputs index cache).1 := by
  constructor
  · rw [checkInput_payToKeyHash hinput hcoin hscript hcache]
    by_cases hpush : input.script.isPushOnly = true
    · rw [if_pos hpush, answerOf_eq_ok_iff, Setting.keyHashVerdict_eq_true_iff]
      constructor
      · rintro ⟨key, sig, rest, hpushed, hauthorizes⟩
        refine ⟨hpush, rest.reverse, sig, key, ?_, hauthorizes⟩
        rw [← List.reverse_reverse input.script.pushed, hpushed]
        simp
      · rintro ⟨-, below, sig, key, hpushed, hauthorizes⟩
        exact ⟨key, sig, below.reverse, by simp [hpushed], hauthorizes⟩
    · simp [hpush]
  · intro below below' sig key script cache' hpush hpushed hpush' hpushed' hcache'
    have hinput' := Signer.getElem?_inputs_setScript_self tx index script hinput
    rw [checkInput_payToKeyHash hinput hcoin hscript hcache, if_pos hpush,
      checkInput_payToKeyHash hinput' hcoin hscript hcache', if_pos hpush']
    rw [hpushed, hpushed', List.reverse_append, List.reverse_append]
    exact congrArg (answerOf index) (Setting.keyHashVerdict_congr
      (Setting.matchesItem_setScript _ tx index index _ script key sig) _ _)

/-! ### A signed spend

The key of the scalar 1 has signed `spend`, whose one input carries its signature
and the key. `unlockAbove` has a 1 below the two. -/

namespace KeyHashSample

def hash : KeyHash :=
  ⟨.ofNat 32 0x491b0ef6aaf8bdcd65530223cae9de4ac09484ffdfacecd573bf245780b399af⟩

def key : Fixed 33 :=
  .ofNat 33 0x0279be667ef9dcbbac55a06295ce870b07029bfcdb2dce28d959f2815b16f81798

def sig : Fixed 65 :=
  TxSignature.toFixed ⟨HashType.all,
    BigEndian.encode 32 0x58ad112176ec09fdc4c796201bc0c2a6f9bd657fbfa4683f49ec6a93fd69f89b ++
      BigEndian.encode 32 0x5b050ca03cd25f3bfab3dc533837dc93936b252ef6148568aa9b890ef698d312, by
    rw [List.length_append, BigEndian.length_encode, BigEndian.length_encode]⟩

def unlock : Script :=
  ⟨[.push sig.toList (sig.pushable (by decide)), .push key.toList (key.pushable (by decide))]⟩

def unlockAbove : Script := ⟨(Chunk.ofSmallInt? 1).toList ++ unlock.chunks⟩

def coins : OutputMap := OutputMap.empty.insert ⟨.zero, 0⟩ ⟨⟨5, .payToKeyHash hash⟩, 3⟩

def spend : Tx := ⟨0, [⟨⟨.zero, 0⟩, unlock, 0⟩], [⟨5, .empty⟩], 0⟩

end KeyHashSample

open KeyHashSample in
theorem payToKeyHash_authorizes_holder_sample :
    (∃ below sig key, unlock.pushed = below ++ [sig, key] ∧
      spend.Authorizes ⟨0, (Script.payToKeyHash hash).encode, 5⟩ hash sig key) ∧
    ((Signer.setScript spend 0 unlockAbove).checkInput coins 0 .empty).1 = .ok () := by
  have hempty := SighashCache.empty_belongsTo
  have hcoin := OutputMap.find?_insert_self .empty ⟨.zero, 0⟩ ⟨⟨5, .payToKeyHash hash⟩, 3⟩
  have hspec := @payToKeyHash_authorizes_holder spend coins 0 hash _ _ .empty rfl hcoin rfl
    (hempty spend)
  have haccepted : (spend.checkInput coins 0 .empty).1 = .ok () :=
    eq_ok_of_isOk (by decide +kernel)
  obtain ⟨hpush, hholder⟩ := hspec.1.mp haccepted
  refine ⟨hholder, ?_⟩
  rw [← haccepted]
  have hpushed : unlock.pushed = [] ++ [sig.toList, key.toList] := rfl
  have hpushed' : unlockAbove.pushed = [[1]] ++ [sig.toList, key.toList] := by decide +kernel
  exact hspec.2 [] [[1]] sig.toList key.toList unlockAbove .empty hpush hpushed rfl hpushed'
    (hempty _)

end Tx

end UtxoLedger
