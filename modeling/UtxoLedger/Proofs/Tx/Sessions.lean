/-
UtxoLedger.Proofs.Tx.Sessions — calls that share one cache answer as if each had
a new one.

A session is a list of calls on one transaction. Each call is made on the cache
that the one before left (`inTurn`), and the first on the empty one. Two facts
about a single call carry over to sessions by induction on the calls:

* `Settled`: its answer is the same on every cache of the transaction, and the
  cache that it leaves is one (`Settled.inTurn`);
* `Growing`: it adds digests to the cache and replaces none (`Growing.inTurn`).

There are two kinds of session: calls for signed bytes, digests, signatures and
their checks (`SighashCall`), and checks of a transaction against a map of outputs
(`Check`), which run scripts and leave what these left behind.
-/
import UtxoLedger.Proofs.Tx.Acceptance

namespace UtxoLedger

/-! ## Calls in turn -/

/-- The answers to calls made one after another, and the cache that the last one
leaves. -/
def inTurn {κ α : Type} (ask : κ → SighashCache → α × SighashCache) :
    List κ → SighashCache → List α × SighashCache
  | [], cache => ([], cache)
  | call :: calls, cache =>
    let (answer, cache) := ask call cache
    let (answers, cache) := inTurn ask calls cache
    (answer :: answers, cache)

section InTurn

variable {κ α : Type} {ask : κ → SighashCache → α × SighashCache}

theorem inTurn_append_snd : ∀ (calls more : List κ) (cache : SighashCache),
    (inTurn ask (calls ++ more) cache).2 = (inTurn ask more (inTurn ask calls cache).2).2
  | [], _, _ => rfl
  | call :: calls, more, cache => inTurn_append_snd calls more (ask call cache).2

/-- Each call finds a cache of the transaction and leaves one. -/
theorem Settled.inTurn {tx : Tx} {fresh : κ → α}
    (h : ∀ call, Settled tx (ask call) (fresh call)) : ∀ calls : List κ,
    Settled tx (inTurn ask calls) (calls.map fresh)
  | [], _, hcache => ⟨rfl, hcache⟩
  | call :: calls, cache, hcache => by
      obtain ⟨hanswer, hcache⟩ := h call cache hcache
      obtain ⟨hanswers, hcache⟩ := Settled.inTurn h calls _ hcache
      refine ⟨?_, hcache⟩
      rw [List.map_cons, ← hanswer, ← hanswers]
      rfl

end InTurn

/-! ## Caches that grow -/

/-- What the first cache holds the second holds too. -/
structure SighashCache.Within (cache cache' : SighashCache) : Prop where
  outpoints : ∀ digest, cache.outpoints = some digest → cache'.outpoints = some digest
  lockRels : ∀ digest, cache.lockRels = some digest → cache'.lockRels = some digest
  outputs : ∀ digest, cache.outputs = some digest → cache'.outputs = some digest

namespace SighashCache.Within

theorem refl (cache : SighashCache) : cache.Within cache :=
  ⟨fun _ h => h, fun _ h => h, fun _ h => h⟩

theorem trans {a b c : SighashCache} (hab : a.Within b) (hbc : b.Within c) : a.Within c :=
  ⟨fun d h => hbc.outpoints d (hab.outpoints d h), fun d h => hbc.lockRels d (hab.lockRels d h),
    fun d h => hbc.outputs d (hab.outputs d h)⟩

end SighashCache.Within

/-- The computation replaces no digest in the cache, whatever the cache holds. -/
def Growing {α : Type} (f : SighashCache → α × SighashCache) : Prop :=
  ∀ cache : SighashCache, cache.Within (f cache).2

/-- If no call replaces a digest, no session does. -/
theorem Growing.inTurn {κ α : Type} {ask : κ → SighashCache → α × SighashCache}
    (h : ∀ call, Growing (ask call)) : ∀ calls : List κ, Growing (inTurn ask calls)
  | [], cache => .refl cache
  | call :: calls, cache => (h call cache).trans (Growing.inTurn h calls (ask call cache).2)

namespace Tx

/-- A field that is filled when it is empty keeps what it holds. -/
theorem some_getD_of_eq_some {field : Option Digest} {digest computed : Digest}
    (h : field = some digest) : some (field.getD computed) = some digest := by
  rw [h, Option.getD_some]

/-- Only an empty field is filled. -/
theorem growing_commitOutpoints (tx : Tx) (hashType : UInt8) :
    Growing (tx.commitOutpoints hashType) := by
  intro cache
  unfold commitOutpoints
  split
  · exact .refl cache
  · exact ⟨fun _ => some_getD_of_eq_some, fun _ h => h, fun _ h => h⟩

theorem growing_commitLockRels (tx : Tx) (hashType : UInt8) :
    Growing (tx.commitLockRels hashType) := by
  intro cache
  unfold commitLockRels
  split
  · exact .refl cache
  · exact ⟨fun _ h => h, fun _ => some_getD_of_eq_some, fun _ h => h⟩

/-- The digest of a single output does not enter the cache. -/
theorem growing_commitOutputs (tx : Tx) (index : Nat) (hashType : UInt8) :
    Growing (tx.commitOutputs index hashType) := by
  intro cache
  unfold commitOutputs
  split
  · exact .refl cache
  · split
    · cases tx.outputs[index]? <;> exact .refl cache
    · exact ⟨fun _ h => h, fun _ h => h, fun _ => some_getD_of_eq_some⟩

/-- Making signed bytes adds to the cache, and on failure does not even that. -/
theorem growing_sighashPreimage (tx : Tx) (spend : Spend) (hashType : UInt8) :
    Growing (tx.sighashPreimage spend hashType) := by
  intro cache
  unfold sighashPreimage
  cases tx.inputs[spend.index]? with
  | none => exact .refl cache
  | some input =>
    exact ((tx.growing_commitOutpoints hashType cache).trans
      (tx.growing_commitLockRels hashType _)).trans
        (tx.growing_commitOutputs spend.index hashType _)

end Tx

/-! ## Calls for signature hashes -/

/-- What can be asked for about a spend. -/
inductive SighashRequest where
  | preimage (hashType : UInt8)
  | digest (hashType : UInt8)
  | signature (key : PrivateKey) (hashType : UInt8)
  | check (key : PublicKey) (sig : TxSignature)

structure SighashCall where
  spend : Spend
  request : SighashRequest

inductive SighashAnswer where
  | preimage (result : Except Error Bytes)
  | digest (result : Except Error Digest)
  | signature (result : Except Error TxSignature)
  | accepted (result : Bool)

/-- The error that a call failed with. A check answers no instead. -/
def SighashAnswer.error? : SighashAnswer → Option Error
  | .preimage (.error error) | .digest (.error error) | .signature (.error error) => some error
  | _ => none

/-- Makes one call on a cache. -/
def Tx.ask (tx : Tx) (call : SighashCall) (cache : SighashCache) : SighashAnswer × SighashCache :=
  match call.request with
  | .preimage hashType =>
    let (result, cache) := tx.sighashPreimage call.spend hashType cache
    (.preimage result, cache)
  | .digest hashType =>
    let (result, cache) := tx.sighash call.spend hashType cache
    (.digest result, cache)
  | .signature key hashType =>
    let (result, cache) := tx.sign call.spend key hashType cache
    (.signature result, cache)
  | .check key sig =>
    let (result, cache) := tx.checkSignature call.spend key sig cache
    (.accepted result, cache)

namespace SighashRequest

/-- The hash type of the bytes that the request is about. -/
def hashType : SighashRequest → UInt8
  | .preimage hashType | .digest hashType | .signature _ hashType => hashType
  | .check _ sig => sig.hashType

/-- The answer, from the signed bytes or the failure to make them. -/
def answer : SighashRequest → Except Error Bytes → SighashAnswer
  | .preimage _, bytes => .preimage bytes
  | .digest _, bytes => .digest (Digest.double <$> bytes)
  | .signature key hashType, bytes =>
    .signature ((fun digest => ⟨hashType, key.sign digest⟩) <$> Digest.double <$> bytes)
  | .check key sig, .ok bytes => .accepted (key.verify (.double bytes) sig.signature)
  | .check _ _, .error _ => .accepted false

theorem error?_answer_ok (request : SighashRequest) (bytes : Bytes) :
    (request.answer (.ok bytes)).error? = none := by
  cases request <;> rfl

/-- Each kind of request hands the error on as it is. -/
theorem eq_of_error?_answer {request : SighashRequest} {error error' : Error}
    (h : (request.answer (.error error)).error? = some error') : error' = error := by
  cases request with
  | check _ _ => cases h
  | preimage _ | digest _ | signature _ _ => exact (Option.some.inj h).symm

end SighashRequest

namespace Tx

/-- Every call makes the signed bytes first, and nothing that it does with them
touches the cache. -/
theorem ask_eq (tx : Tx) (call : SighashCall) (cache : SighashCache) :
    let made := tx.sighashPreimage call.spend call.request.hashType cache
    tx.ask call cache = (call.request.answer made.1, made.2) := by
  obtain ⟨spend, request⟩ := call
  cases request with
  | preimage hashType => rfl
  | digest hashType => rfl
  | signature key hashType => rfl
  | check key sig =>
    simp only [ask, checkSignature, sighash, SighashRequest.hashType]
    generalize tx.sighashPreimage spend sig.hashType cache = made
    obtain ⟨_ | bytes, left⟩ := made
    · rfl
    · rfl

/-- The index is checked before any part is computed, so the cache stays. -/
theorem ask_out_of_range {tx : Tx} {call : SighashCall} (cache : SighashCache)
    (h : tx.inputs[call.spend.index]? = none) :
    tx.ask call cache =
      (call.request.answer (.error (.inputOutOfRange call.spend.index)), cache) := by
  rw [ask_eq, sighashPreimage_out_of_range _ cache h]

theorem growing_ask (tx : Tx) (call : SighashCall) : Growing (tx.ask call) := by
  intro cache
  rw [ask_eq]
  exact tx.growing_sighashPreimage call.spend call.request.hashType cache

theorem settled_ask (tx : Tx) (call : SighashCall) :
    Settled tx (tx.ask call) (tx.ask call .empty).1 := by
  have hsettled : Settled tx (tx.ask call)
      (call.request.answer (tx.signedBytes call.spend call.request.hashType)) := by
    intro cache h
    rw [ask_eq]
    exact (tx.settled_sighashPreimage call.spend call.request.hashType).map call.request.answer
      cache h
  exact hsettled.self

/-- A call fails for the one reason that its input does not exist. -/
theorem eq_of_error?_ask {tx : Tx} {call : SighashCall} {cache : SighashCache} {error : Error}
    (h : (tx.ask call cache).1.error? = some error) :
    error = .inputOutOfRange call.spend.index ∧ tx.inputs[call.spend.index]? = none := by
  cases hinput : tx.inputs[call.spend.index]? with
  | none =>
    rw [ask_out_of_range cache hinput] at h
    exact ⟨SighashRequest.eq_of_error?_answer h, rfl⟩
  | some input =>
    rw [ask_eq, sighashPreimage, hinput, SighashRequest.error?_answer_ok] at h
    cases h

/-- **Sharing a cache changes no answer.** Whatever is asked for in a session, each
answer is the one that the call gets on a new cache. After any number of calls a
digest in the cache is the transaction's, and it stays when more calls are made. A
call fails only where its input does not exist; it then leaves the cache as it
was, and so does a check there, which answers no. -/
theorem session_answers_as_fresh (tx : Tx) (calls : List SighashCall) :
    let after (calls : List SighashCall) : SighashCache := (inTurn tx.ask calls .empty).2
    (inTurn tx.ask calls .empty).1 = calls.map (fun call => (tx.ask call .empty).1) ∧
    (after calls).BelongsTo tx ∧
    (∀ more, (after calls).Within (after (calls ++ more))) ∧
    (∀ call, tx.inputs[call.spend.index]? = none →
      tx.ask call (after calls) =
        (call.request.answer (.error (.inputOutOfRange call.spend.index)), after calls)) ∧
    ∀ call error, (tx.ask call (after calls)).1.error? = some error →
      error = .inputOutOfRange call.spend.index ∧ (tx.ask call (after calls)).2 = after calls := by
  intro after
  have hsettled := Settled.inTurn tx.settled_ask calls
  obtain ⟨hanswers, hbelongs⟩ := hsettled .empty (SighashCache.empty_belongsTo tx)
  refine ⟨hanswers, hbelongs, fun more => ?_, fun call => ask_out_of_range (after calls), ?_⟩
  · show (after calls).Within (inTurn tx.ask (calls ++ more) .empty).2
    rw [inTurn_append_snd]
    exact Growing.inTurn tx.growing_ask more (after calls)
  · intro call error herror
    obtain ⟨hreason, hinput⟩ := eq_of_error?_ask herror
    exact ⟨hreason, by rw [ask_out_of_range _ hinput]⟩

end Tx

/-! ## Checks of a transaction -/

/-- What can be checked about a transaction that spends from a map of outputs. -/
inductive Check where
  | input (index : Nat)
  | distinct
  | inputs
  | values
  | locks (blockNum : UInt64)
  | verify
  | isValid

inductive CheckAnswer where
  | verdict (result : Except ValidityError Unit)
  | valid (result : Bool)

/-- Makes one check on a cache. Those that run no script leave it alone. -/
def Tx.askCheck (tx : Tx) (outputs : OutputMap) :
    Check → SighashCache → CheckAnswer × SighashCache
  | .input index, cache =>
    let (result, cache) := tx.checkInput outputs index cache
    (.verdict result, cache)
  | .distinct, cache => (.verdict tx.checkDistinct, cache)
  | .inputs, cache =>
    let (result, cache) := tx.checkInputs outputs cache
    (.verdict result, cache)
  | .values, cache => (.verdict (tx.checkValues outputs), cache)
  | .locks blockNum, cache => (.verdict (tx.checkLocks outputs blockNum), cache)
  | .verify, cache =>
    let (result, cache) := tx.verify outputs cache
    (.verdict result, cache)
  | .isValid, cache =>
    let (result, cache) := tx.verify outputs cache
    (.valid result.isOk, cache)

namespace Tx

theorem settled_askCheck (tx : Tx) (outputs : OutputMap) (check : Check) :
    Settled tx (tx.askCheck outputs check) (tx.askCheck outputs check .empty).1 := by
  cases check with
  | input index => exact (tx.settled_checkInput outputs index).map CheckAnswer.verdict
  | inputs => exact (tx.settled_checkInputs outputs).map CheckAnswer.verdict
  | verify => exact (tx.settled_verify outputs).map CheckAnswer.verdict
  | isValid => exact (tx.settled_verify outputs).map fun result => CheckAnswer.valid result.isOk
  | distinct => exact .constant tx (CheckAnswer.verdict tx.checkDistinct)
  | values => exact .constant tx (CheckAnswer.verdict (tx.checkValues outputs))
  | locks blockNum => exact .constant tx (CheckAnswer.verdict (tx.checkLocks outputs blockNum))

/-- **Checking leaves no trace.** Whatever checks were made before, in any order
and however they ended, a check answers as it does when it is made first. -/
theorem check_answers_as_first (tx : Tx) (outputs : OutputMap) (checks : List Check) :
    (inTurn (tx.askCheck outputs) checks .empty).1 =
      checks.map fun check => (tx.askCheck outputs check .empty).1 :=
  (Settled.inTurn (tx.settled_askCheck outputs) checks).of_empty

end Tx

end UtxoLedger
