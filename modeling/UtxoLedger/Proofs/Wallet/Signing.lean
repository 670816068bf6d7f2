/-
UtxoLedger.Proofs.Wallet.Signing — inputs can be signed in any order.

What there is to sign for an input is fixed before anything is signed: a pair of
keys and a digest (`Tx.signingTask?`). No signature covers an input script, so the
task of one input is still the same when other inputs, or the input itself, have
been signed (`signingTask?_setScript`). A call to sign succeeds exactly where there
is a task, and then it exchanges one script for the one that the task determines.

`Signer.HasSigned` is the invariant of a session: the transaction is the original
one with the scripts exchanged at the signed inputs, and the cache belongs to it.
`HasSigned.sign` is the step and `hasSigned_session` the run over any list of calls.
The order of the calls is not in the invariant, so it is of no account. A call that
fails hands back the signer as it was (`HasSigned.sign_of_error`): every check that it
makes stands before the cache is touched.

What a signed input is worth follows from the last state alone
(`checkInput_of_hasSigned`), with `UtxoLedger.Proofs.Tx.PayToKeyHash` for the run of
the output's script.
-/
import UtxoLedger.Proofs.KeyPairs
import UtxoLedger.Proofs.Script.Templates
import UtxoLedger.Proofs.Tx.PayToKeyHash

namespace UtxoLedger

/-! ## What there is to sign -/

/-- A pair of keys, and the digest that it is to sign. -/
structure SigningTask where
  pair : KeyPair
  digest : Digest

/-- The script into which the signature goes. -/
def SigningTask.unlock (task : SigningTask) : Script :=
  .unlockKeyHash ⟨HashType.all, task.pair.privateKey.sign task.digest⟩ task.pair.publicKey

namespace Tx

/-- What it takes to sign an input: its coin is known and paid to a key hash, and the
ring has the pair. -/
def signingTask? (tx : Tx) (outputs : OutputMap) (ring : KeyRing) (index : Nat) :
    Option SigningTask :=
  match tx.inputs[index]? with
  | none => none
  | some input =>
    match outputs.find? input.outpoint with
    | none => none
    | some coin =>
      (coin.output.script.keyHash?.bind ring.find?).map fun pair =>
        ⟨pair, .double (tx.preimage input
          ⟨index, coin.output.script.encode, coin.output.value⟩ HashType.all)⟩

variable {tx : Tx} {outputs : OutputMap} {ring : KeyRing} {index : Nat} {task : SigningTask}

theorem signingTask?_eq_some_iff :
    tx.signingTask? outputs ring index = some task ↔
      ∃ input coin hash, tx.inputs[index]? = some input ∧
        outputs.find? input.outpoint = some coin ∧ coin.output.script = .payToKeyHash hash ∧
        ring.find? hash = some task.pair ∧
        task.digest = .double (tx.preimage input
          ⟨index, coin.output.script.encode, coin.output.value⟩ HashType.all) := by
  unfold signingTask?
  cases tx.inputs[index]? with
  | none => simp
  | some input =>
    simp only [Option.some.injEq]
    cases hcoin : outputs.find? input.outpoint with
    | none => simp [hcoin]
    | some coin =>
      simp only [Option.map_eq_some_iff, Option.bind_eq_some_iff, Script.keyHash?_eq_some_iff]
      constructor
      · rintro ⟨pair, ⟨hash, hscript, hpair⟩, rfl⟩
        exact ⟨input, coin, hash, rfl, hcoin, hscript, hpair, rfl⟩
      · rintro ⟨_, coin', hash, rfl, hcoin', hscript, hpair, hdigest⟩
        obtain rfl : coin = coin' := Option.some.inj (hcoin.symm.trans hcoin')
        exact ⟨task.pair, ⟨hash, hscript, hpair⟩, by rw [← hdigest]⟩

/-- Exchanging a script, also the input's own, changes no task. -/
theorem signingTask?_setScript (changed : Nat) (script : Script) :
    (Signer.setScript tx changed script).signingTask? outputs ring index =
      tx.signingTask? outputs ring index := by
  unfold signingTask?
  rw [Signer.getElem?_inputs_setScript]
  cases tx.inputs[index]? with
  | none => rfl
  | some input =>
    have hsame (input' : TxInput) (houtpoint : input'.outpoint = input.outpoint)
        (hlockRel : input'.lockRel = input.lockRel) (spend : Spend) :
        (Signer.setScript tx changed script).preimage input' spend HashType.all =
          tx.preimage input spend HashType.all :=
      Signer.preimage_setScript tx changed script houtpoint hlockRel spend HashType.all
    by_cases hindex : changed = index
    · simp only [Option.map_some, if_pos hindex, hsame { input with script := script } rfl rfl]
    · simp only [Option.map_some, if_neg hindex, hsame input rfl rfl]

/-! ## The signed transaction -/

/-- The transaction with signatures and keys as the scripts of some inputs. -/
def withUnlocks (tx : Tx) (outputs : OutputMap) (ring : KeyRing) (signed : List Nat) : Tx :=
  { tx with
    inputs := tx.inputs.mapIdx fun i input =>
      match tx.signingTask? outputs ring i with
      | some task => if i ∈ signed then { input with script := task.unlock } else input
      | none => input }

theorem getElem?_withUnlocks (signed : List Nat) (i : Nat) :
    (tx.withUnlocks outputs ring signed).inputs[i]? =
      tx.inputs[i]?.map fun input =>
        match tx.signingTask? outputs ring i with
        | some task => if i ∈ signed then { input with script := task.unlock } else input
        | none => input :=
  List.getElem?_mapIdx

theorem outpoints_withUnlocks (signed : List Nat) :
    (tx.withUnlocks outputs ring signed).outpoints = tx.outpoints := by
  apply List.ext_getElem?
  intro i
  rw [outpoints, outpoints, List.getElem?_map, List.getElem?_map, getElem?_withUnlocks,
    Option.map_map]
  congr 1
  funext input
  cases tx.signingTask? outputs ring i with
  | none => rfl
  | some task => by_cases hmem : i ∈ signed <;> simp [hmem]

theorem withUnlocks_nil : tx.withUnlocks outputs ring [] = tx := by
  have hinputs : (tx.withUnlocks outputs ring []).inputs = tx.inputs := by
    apply List.ext_getElem?
    intro i
    rw [getElem?_withUnlocks]
    cases tx.inputs[i]? with
    | none => rfl
    | some input => cases tx.signingTask? outputs ring i <;> simp
  exact congrArg (fun inputs => { tx with inputs := inputs }) hinputs

/-- Only which inputs are signed counts. -/
theorem withUnlocks_congr {signed signed' : List Nat} (h : ∀ i, i ∈ signed ↔ i ∈ signed') :
    tx.withUnlocks outputs ring signed = tx.withUnlocks outputs ring signed' := by
  unfold withUnlocks
  simp only [h]

/-- Signing one more input. -/
theorem setScript_withUnlocks (signed : List Nat)
    (htask : tx.signingTask? outputs ring index = some task) :
    Signer.setScript (tx.withUnlocks outputs ring signed) index task.unlock =
      tx.withUnlocks outputs ring (index :: signed) := by
  have hinputs : (Signer.setScript (tx.withUnlocks outputs ring signed) index task.unlock).inputs =
      (tx.withUnlocks outputs ring (index :: signed)).inputs := by
    apply List.ext_getElem?
    intro i
    rw [Signer.getElem?_inputs_setScript, getElem?_withUnlocks, getElem?_withUnlocks]
    cases tx.inputs[i]? with
    | none => rfl
    | some input =>
      by_cases hi : index = i
      · subst hi
        by_cases hsigned : index ∈ signed <;> simp [htask, hsigned]
      · have hi' : i ≠ index := fun h => hi h.symm
        cases tx.signingTask? outputs ring i <;> simp [hi, hi']
  exact congrArg (fun inputs => { tx with inputs := inputs }) hinputs

end Tx

/-! ## One call -/

namespace Signer

variable {tx : Tx} {outputs : OutputMap} {ring : KeyRing} {index : Nat}

theorem sign_of_task {signer : Signer} {task : SigningTask}
    (htask : signer.tx.signingTask? outputs ring index = some task)
    (hcache : signer.cache.BelongsTo signer.tx) :
    ∃ cache, signer.sign outputs ring index =
        (.ok (), ⟨setScript signer.tx index task.unlock, cache⟩) ∧ cache.BelongsTo signer.tx := by
  obtain ⟨input, coin, hash, hinput, hcoin, hscript, hpair, hdigest⟩ :=
    Tx.signingTask?_eq_some_iff.mp htask
  let spend : Spend := ⟨index, coin.output.script.encode, coin.output.value⟩
  obtain ⟨hmade, hcache'⟩ :=
    signer.tx.settled_sign spend task.pair.privateKey HashType.all signer.cache hcache
  have hfound : coin.output.script.keyHash?.bind ring.find? = some task.pair := by
    rw [hscript, Script.keyHash?_payToKeyHash, Option.bind_some, hpair]
  rw [Tx.signedBytes_of_input HashType.all (show signer.tx.inputs[spend.index]? = _ from hinput)]
    at hmade
  refine ⟨_, ?_, hcache'⟩
  simp only [sign, hinput, hcoin, hfound]
  generalize signer.tx.sign spend task.pair.privateKey HashType.all signer.cache = made at hmade ⊢
  obtain ⟨answer, left⟩ := made
  subst hmade
  rw [SigningTask.unlock, hdigest]
  rfl

/-- Where there is nothing to sign, a call fails before it signs. -/
theorem sign_of_no_task {signer : Signer}
    (htask : signer.tx.signingTask? outputs ring index = none) :
    ∃ error, signer.sign outputs ring index = (.error error, signer) := by
  unfold Tx.signingTask? at htask
  unfold sign
  cases hinput : signer.tx.inputs[index]? with
  | none => exact ⟨_, rfl⟩
  | some input =>
    simp only [hinput] at htask ⊢
    cases hcoin : outputs.find? input.outpoint with
    | none => exact ⟨_, rfl⟩
    | some coin =>
      simp only [hcoin, Option.map_eq_none_iff] at htask ⊢
      rw [htask]
      exact ⟨_, rfl⟩

/-- The signer has signed these inputs of the transaction and has changed nothing
else. -/
structure HasSigned (outputs : OutputMap) (ring : KeyRing) (tx : Tx) (signed : List Nat)
    (signer : Signer) : Prop where
  tx_eq : signer.tx = tx.withUnlocks outputs ring signed
  task_eq : ∀ i, signer.tx.signingTask? outputs ring i = tx.signingTask? outputs ring i
  signable : ∀ i ∈ signed, ∃ task, tx.signingTask? outputs ring i = some task
  cache : signer.cache.BelongsTo signer.tx

theorem hasSigned_start (outputs : OutputMap) (ring : KeyRing) (tx : Tx) :
    HasSigned outputs ring tx [] (start tx) where
  tx_eq := Tx.withUnlocks_nil.symm
  task_eq _ := rfl
  signable _ hmem := nomatch hmem
  cache := SighashCache.empty_belongsTo tx

namespace HasSigned

variable {signed : List Nat} {signer : Signer}

theorem congr {signed' : List Nat} (h : HasSigned outputs ring tx signed signer)
    (hsame : ∀ i, i ∈ signed ↔ i ∈ signed') : HasSigned outputs ring tx signed' signer where
  tx_eq := h.tx_eq.trans (Tx.withUnlocks_congr hsame)
  task_eq := h.task_eq
  signable i hmem := h.signable i ((hsame i).mpr hmem)
  cache := h.cache

/-- A call where there is something to sign. -/
theorem sign {task : SigningTask} (h : HasSigned outputs ring tx signed signer)
    (htask : tx.signingTask? outputs ring index = some task) :
    ∃ signer', signer.sign outputs ring index = (.ok (), signer') ∧
      HasSigned outputs ring tx (index :: signed) signer' := by
  obtain ⟨cache, hsign, hcache⟩ := sign_of_task ((h.task_eq index).trans htask) h.cache
  refine ⟨_, hsign, ?_, fun i => ?_, fun i hmem => ?_, ?_⟩
  · show setScript signer.tx index task.unlock = _
    rw [h.tx_eq, Tx.setScript_withUnlocks signed htask]
  · exact Tx.signingTask?_setScript index task.unlock |>.trans (h.task_eq i)
  · rcases List.mem_cons.mp hmem with rfl | hmem
    · exact ⟨task, htask⟩
    · exact h.signable i hmem
  · exact (belongsTo_setScript_iff signer.tx index task.unlock cache).mpr hcache

/-- A call where there is nothing to sign. -/
theorem sign_fails (h : HasSigned outputs ring tx signed signer)
    (htask : tx.signingTask? outputs ring index = none) :
    ∃ error, signer.sign outputs ring index = (.error error, signer) :=
  sign_of_no_task ((h.task_eq index).trans htask)

/-- A call that fails leaves the signer as it was: there was nothing to sign, since a call
for a task goes through. -/
theorem sign_of_error {error : Error} (h : HasSigned outputs ring tx signed signer)
    (herror : (signer.sign outputs ring index).1 = .error error) :
    (signer.sign outputs ring index).2 = signer := by
  cases htask : tx.signingTask? outputs ring index with
  | some task =>
    obtain ⟨signer', hsign, -⟩ := h.sign htask
    rw [hsign] at herror
    cases herror
  | none =>
    obtain ⟨error', hsign⟩ := h.sign_fails htask
    rw [hsign]

/-- Of the inputs, only those that are signed have another script. -/
theorem inputs_eq (h : HasSigned outputs ring tx signed signer) (i : Nat) :
    ∃ script, signer.tx.inputs[i]? = tx.inputs[i]?.map fun (input : TxInput) =>
      { input with script := if i ∈ signed then script else input.script } := by
  rw [h.tx_eq, Tx.getElem?_withUnlocks]
  by_cases hmem : i ∈ signed
  · obtain ⟨task, htask⟩ := h.signable i hmem
    exact ⟨task.unlock, by simp only [htask, if_pos hmem]⟩
  · refine ⟨.empty, congrArg (fun f => tx.inputs[i]?.map f) (funext fun input => ?_)⟩
    cases tx.signingTask? outputs ring i <;> simp only [if_neg hmem]

end HasSigned

/-! ## Any calls in any order -/

/-- Calls on one signer, each with its answer, and the signer that is left. -/
def session (outputs : OutputMap) (ring : KeyRing) :
    List Nat → Signer → List (Nat × Except Error Unit) × Signer
  | [], signer => ([], signer)
  | index :: calls, signer =>
    let (answer, signer) := signer.sign outputs ring index
    let (log, signer) := session outputs ring calls signer
    ((index, answer) :: log, signer)

/-- The inputs for which a call succeeded. -/
def succeeded (log : List (Nat × Except Error Unit)) : List Nat :=
  (log.filter fun entry => entry.2.isOk).map Prod.fst

theorem succeeded_cons_ok (index : Nat) (log : List (Nat × Except Error Unit)) :
    succeeded ((index, .ok ()) :: log) = index :: succeeded log := rfl

theorem succeeded_cons_error (index : Nat) (error : Error) (log : List (Nat × Except Error Unit)) :
    succeeded ((index, .error error) :: log) = succeeded log := rfl

theorem hasSigned_session : ∀ (calls : List Nat) {signed : List Nat} {signer : Signer},
    HasSigned outputs ring tx signed signer →
      HasSigned outputs ring tx (succeeded (session outputs ring calls signer).1 ++ signed)
        (session outputs ring calls signer).2
  | [], _, _, h => h
  | index :: calls, signed, signer, h => by
      cases htask : tx.signingTask? outputs ring index with
      | some task =>
        obtain ⟨signer', hsign, h'⟩ := h.sign htask
        have hrest := hasSigned_session calls h'
        simp only [session, hsign, succeeded_cons_ok]
        refine hrest.congr fun i => ?_
        simp [or_left_comm]
      | none =>
        obtain ⟨error, hsign⟩ := h.sign_fails htask
        simp only [session, hsign, succeeded_cons_error]
        exact hasSigned_session calls h

/-! ## Every input -/

/-- Signing one input after another goes through where each has a task. -/
theorem signFrom_of_tasks : ∀ (count index : Nat) {signed : List Nat} {signer : Signer},
    HasSigned outputs ring tx signed signer →
      (∀ i, index ≤ i → i < index + count → ∃ task, tx.signingTask? outputs ring i = some task) →
        ∃ signer', signFrom outputs ring count index signer = (.ok (), signer') ∧
          HasSigned outputs ring tx (List.range' index count ++ signed) signer'
  | 0, _, _, signer, h, _ => ⟨signer, rfl, h⟩
  | count + 1, index, _, _, h, htasks => by
      obtain ⟨task, htask⟩ := htasks index (by omega) (by omega)
      obtain ⟨signer₁, hsign, h₁⟩ := h.sign htask
      obtain ⟨signer', hrest, h'⟩ :=
        signFrom_of_tasks count (index + 1) h₁ fun i hi hlt => htasks i (by omega) (by omega)
      refine ⟨signer', ?_, h'.congr fun i => ?_⟩
      · rw [signFrom, hsign]
        exact hrest
      · rw [List.range'_succ]
        simp [or_left_comm]

theorem signAll_of_tasks
    (htasks : ∀ i < tx.inputs.length, ∃ task, tx.signingTask? outputs ring i = some task) :
    ∃ signer, (start tx).signAll outputs ring = (.ok (), signer) ∧
      HasSigned outputs ring tx (List.range tx.inputs.length) signer := by
  obtain ⟨signer, hrun, h⟩ := signFrom_of_tasks tx.inputs.length 0
    (hasSigned_start outputs ring tx) fun i _ hlt => htasks i (by omega)
  rw [List.append_nil, ← List.range_eq_range'] at h
  exact ⟨signer, hrun, h⟩

/-! ## What a signed input is worth -/

theorem checkInput_of_hasSigned {signed : List Nat} {signer : Signer} {task : SigningTask}
    {cache : SighashCache} (h : HasSigned outputs ring tx signed signer) (hring : ring.Built)
    (hmem : index ∈ signed) (htask : tx.signingTask? outputs ring index = some task)
    (hderived : task.pair.IsDerived)
    (hcorrect : Ecdsa.CorrectAt task.pair.privateKey task.digest)
    (hcache : cache.BelongsTo signer.tx) :
    (signer.tx.checkInput outputs index cache).1 = .ok () := by
  obtain ⟨input, coin, hash, hinput, hcoin, hscript, hpair, hdigest⟩ :=
    Tx.signingTask?_eq_some_iff.mp ((h.task_eq index).trans htask)
  obtain rfl := hring.hash_eq hpair
  -- the script at a signed input is the one of its task, whatever was signed since
  have hunlock : input.script = task.unlock := by
    rw [h.tx_eq, Tx.getElem?_withUnlocks] at hinput
    obtain ⟨original, -, hinput⟩ := Option.map_eq_some_iff.mp hinput
    simp only [htask, if_pos hmem] at hinput
    rw [← hinput]
  rw [Tx.checkInput_payToKeyHash hinput hcoin hscript hcache, hunlock, SigningTask.unlock,
    if_pos (Script.isPushOnly_unlockKeyHash _ _), Script.pushed_unlockKeyHash,
    Tx.answerOf_eq_ok_iff, Setting.keyHashVerdict_eq_true_iff]
  let spend : Spend := ⟨index, coin.output.script.encode, coin.output.value⟩
  let sig : TxSignature := ⟨HashType.all, task.pair.privateKey.sign task.digest⟩
  let key := task.pair.publicKey
  -- the digest of the task is that of the final transaction, since no script is covered
  have hsighash : (signer.tx.sighash spend HashType.all .empty).1 = .ok task.digest := by
    rw [hdigest]
    exact Tx.sighash_of_input HashType.all hinput
  exact ⟨key.bytes.toList, sig.encode, [], rfl, key, sig, task.digest, key.length_bytes,
    key.ofBytes_toList, rfl, sig.length_encode, sig.decode_encode, hsighash,
    hderived.verify hcorrect⟩

/-- **Inputs can be signed in any order.** Take any calls on one signer, in any order,
with repetitions and with failures among them. A failing call leaves the transaction
as it was. The calls change scripts only, and only those of inputs that were signed.
Other calls that sign the same inputs lead to the same transaction. And every signed
input satisfies its coin's script in the transaction that is left. -/
theorem signing_order_is_free (tx : Tx) (outputs : OutputMap) {pairs : List KeyPair}
    (hderived : ∀ pair ∈ pairs, pair.IsDerived)
    (hcorrect : ∀ index task, tx.signingTask? outputs (.ofPairs pairs) index = some task →
      Ecdsa.CorrectAt task.pair.privateKey task.digest)
    (calls : List Nat) :
    let run := fun calls => session outputs (.ofPairs pairs) calls (start tx)
    let signed := fun calls => succeeded (run calls).1
    let final := (run calls).2
    (∀ index error, (final.sign outputs (.ofPairs pairs) index).1 = .error error →
      (final.sign outputs (.ofPairs pairs) index).2.tx = final.tx) ∧
    (final.tx.version = tx.version ∧ final.tx.outputs = tx.outputs ∧
      final.tx.lockAbs = tx.lockAbs ∧
      ∀ i, ∃ script, final.tx.inputs[i]? = tx.inputs[i]?.map (fun (input : TxInput) =>
        { input with script := if i ∈ signed calls then script else input.script })) ∧
    (∀ calls', (∀ i, i ∈ signed calls' ↔ i ∈ signed calls) → (run calls').2.tx = final.tx) ∧
    ∀ i ∈ signed calls, ∀ cache : SighashCache, cache.BelongsTo final.tx →
      (final.tx.checkInput outputs i cache).1 = .ok () := by
  intro run signed final
  -- the invariant for any calls; what follows is read off it
  have hrun (calls : List Nat) :
      HasSigned outputs (.ofPairs pairs) tx (signed calls) (run calls).2 := by
    have h := hasSigned_session calls (hasSigned_start outputs (.ofPairs pairs) tx)
    rwa [List.append_nil] at h
  have hfinal : final.tx = tx.withUnlocks outputs (.ofPairs pairs) (signed calls) :=
    (hrun calls).tx_eq
  refine ⟨fun _ _ herror => by rw [(hrun calls).sign_of_error herror],
    ⟨?_, ?_, ?_, (hrun calls).inputs_eq⟩, fun calls' hsame => ?_, fun i hmem cache hcache => ?_⟩
  · rw [hfinal]
    rfl
  · rw [hfinal]
    rfl
  · rw [hfinal]
    rfl
  · rw [hfinal, (hrun calls').tx_eq, Tx.withUnlocks_congr hsame]
  · obtain ⟨task, htask⟩ := (hrun calls).signable i hmem
    obtain ⟨_, _, _, -, -, -, hpair, -⟩ := Tx.signingTask?_eq_some_iff.mp htask
    have hpair : task.pair.IsDerived := hderived task.pair (KeyRing.mem_of_find?_ofPairs hpair)
    exact checkInput_of_hasSigned (hrun calls) (KeyRing.built_ofPairs pairs) hmem htask hpair
      (hcorrect i task htask) hcache

end Signer

/-! ### A wallet of two keys

A coin for each of two keys. The transaction spends both coins and has change. -/

namespace WalletSample

def pairs : List KeyPair := [KeyPairSample.first, KeyPairSample.second]

def firstHash : KeyHash :=
  ⟨.ofNat 32 0x491b0ef6aaf8bdcd65530223cae9de4ac09484ffdfacecd573bf245780b399af⟩

def secondHash : KeyHash :=
  ⟨.ofNat 32 0x4b5da1dbca8390dc1a18f58afa2b581734674703d8a6963118b14bf90b169a8c⟩

def coins : OutputMap :=
  (OutputMap.empty.insert ⟨.zero, 0⟩ ⟨⟨5, .payToKeyHash firstHash⟩, 3⟩).insert
    ⟨.zero, 1⟩ ⟨⟨7, .payToKeyHash secondHash⟩, 3⟩

def draft : Tx :=
  ⟨0, [⟨⟨.zero, 0⟩, .empty, 0⟩, ⟨⟨.zero, 1⟩, .empty, 0⟩],
    [⟨10, .empty⟩, ⟨2, .payToKeyHash firstHash⟩], 0⟩

/-- What the assumption on signatures comes to here. -/
theorem correctAt (index : Nat) (task : SigningTask)
    (htask : draft.signingTask? coins (.ofPairs pairs) index = some task) :
    Ecdsa.CorrectAt task.pair.privateKey task.digest := by
  have hboth : ∀ i < 2, (draft.signingTask? coins (.ofPairs pairs) i).all
      (fun task => decide (Ecdsa.CorrectAt task.pair.privateKey task.digest)) = true := by
    decide +kernel
  obtain ⟨input, -, -, hinput, -⟩ := Tx.signingTask?_eq_some_iff.mp htask
  obtain ⟨hindex, -⟩ := List.getElem?_eq_some_iff.mp hinput
  have hdecided := hboth index hindex
  rw [htask] at hdecided
  exact of_decide_eq_true hdecided

end WalletSample

namespace Signer

open WalletSample in
/-- Calls out of order, with one for an input that does not exist and one for an input
that is signed already. -/
theorem signing_order_is_free_sample :
    (∀ pair ∈ pairs, pair.IsDerived) ∧
    (∀ index task, draft.signingTask? coins (.ofPairs pairs) index = some task →
      Ecdsa.CorrectAt task.pair.privateKey task.digest) ∧
    let run := fun calls => session coins (.ofPairs pairs) calls (start draft)
    succeeded (run [1, 5, 0, 1]).1 = [1, 0, 1] ∧
    (run [0, 1]).2.tx = (run [1, 5, 0, 1]).2.tx ∧
    ((run [1, 5, 0, 1]).2.tx.checkInput coins 0 .empty).1 = .ok () ∧
    ((run [1, 5, 0, 1]).2.tx.checkInput coins 1 .empty).1 = .ok () := by
  refine ⟨KeyPairSample.isDerived, correctAt, ?_⟩
  intro run
  have hsigned : succeeded (run [1, 5, 0, 1]).1 = [1, 0, 1] := by decide +kernel
  have hsigned' : succeeded (run [0, 1]).1 = [0, 1] := by decide +kernel
  obtain ⟨-, -, hsame, hpass⟩ :=
    signing_order_is_free draft coins KeyPairSample.isDerived correctAt [1, 5, 0, 1]
  refine ⟨hsigned, hsame [0, 1] fun i => ?_, hpass 0 ?_ .empty ?_, hpass 1 ?_ .empty ?_⟩
  · show i ∈ succeeded (run [0, 1]).1 ↔ i ∈ succeeded (run [1, 5, 0, 1]).1
    rw [hsigned, hsigned']
    simp only [List.mem_cons, List.not_mem_nil, or_false]
    omega
  · show 0 ∈ succeeded (run [1, 5, 0, 1]).1
    rw [hsigned]
    decide
  · exact SighashCache.empty_belongsTo _
  · show 1 ∈ succeeded (run [1, 5, 0, 1]).1
    rw [hsigned]
    decide
  · exact SighashCache.empty_belongsTo _

end Signer

end UtxoLedger
