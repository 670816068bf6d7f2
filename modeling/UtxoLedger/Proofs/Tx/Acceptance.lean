/-
UtxoLedger.Proofs.Tx.Acceptance — the checks of a transaction accept exactly the
valid ones.

`Tx.Valid` says what a valid transaction is without the order of the checks: each
input is satisfied by an evaluation of its own (`Satisfies`), on an empty cache
and on the items that its script pushes, and the values are compared as exact
sums. The checks run two scripts for an input, hand one cache through all of
them, stop at the first failure and add in 64 bits. The two meet as follows.

* `checkScripts_of_pushOnly`: the first script only pushes, so the second starts
  on the pushed items and on the cache that the first was given.
* `settled_checkInput`, `settled_checkInputsFrom`: an answer does not depend on
  the digests that earlier inputs left behind.
* `checkInputsFrom_eq_ok_iff`: hence no failure means that each input is
  satisfied by itself.
* `verify_eq_ok_iff_valid`: the conjunction, with the sums of
  `UtxoLedger.Proofs.Amounts`.
-/
import UtxoLedger.Proofs.Script.CacheIndependence
import UtxoLedger.Proofs.Script.Pushes
import UtxoLedger.Proofs.Tx.Checks

namespace UtxoLedger

/-! ## Valid transactions -/

/-- The output's script, evaluated afresh against the input on the given stack,
ends without an error and with a true item on top. -/
def Tx.Unlocks (tx : Tx) (index : Nat) (output : TxOutput) (stack : Stack) : Prop :=
  let e := (Evaluation.start stack .empty).run ⟨output.script, tx, index, output.value⟩
  e.error = none ∧ ∃ top below, e.machine.stack = top :: below ∧ Number.isTrue top = true

/-- The input at position `index` names a known output, and its script only
pushes and leaves what unlocks that output. -/
def Tx.Satisfies (tx : Tx) (outputs : OutputMap) (index : Nat) (input : TxInput) : Prop :=
  ∃ coin, outputs.find? input.outpoint = some coin ∧ input.script.isPushOnly = true ∧
    tx.Unlocks index coin.output input.script.pushed.reverse

/-- What it takes to spend from a map. -/
structure Tx.Valid (tx : Tx) (outputs : OutputMap) : Prop where
  hasInput : tx.inputs ≠ []
  hasOutput : tx.outputs ≠ []
  distinct : tx.outpoints.Nodup
  satisfied : ∀ index input, tx.inputs[index]? = some input → tx.Satisfies outputs index input
  spentFits : tx.spentTotal outputs < 18446744073709551616
  createdFits : tx.outputTotal < 18446744073709551616
  covers : tx.outputTotal ≤ tx.spentTotal outputs

/-! ## One script -/

/-- The first run of a push-only script leaves its items, the last on top, and nothing else. -/
theorem Evaluation.run_pushOnly {env : Setting} (cache : SighashCache)
    (h : env.script.isPushOnly = true) :
    ((start [] cache).run env).error = none ∧
      ((start [] cache).run env).machine =
        ⟨env.script.pushed.reverse, [], [], env.script.chunks.length, 0, cache⟩ := by
  obtain ⟨final, failure, hrun, heval⟩ := run_start env [] cache
  rw [runFrom_pushOnly cache h, Prod.mk.injEq] at hrun
  obtain ⟨rfl, rfl⟩ := hrun
  rw [heval]
  exact ⟨rfl, rfl⟩

/-- Success is no error and a true item on top. The stack must not be empty, since an item
that is not there counts as false. -/
theorem Evaluation.succeeded_start_iff (env : Setting) (stack : Stack) (cache : SighashCache) :
    ((start stack cache).run env).succeeded = true ↔
      ((start stack cache).run env).error = none ∧
        ∃ top below, ((start stack cache).run env).machine.stack = top :: below ∧
          Number.isTrue top = true := by
  obtain ⟨final, failure, -, heval⟩ := run_start env stack cache
  rw [heval, succeeded]
  cases failure with
  | some error => simp
  | none =>
    cases hstack : final.stack with
    | nil => simp [Number.isTrue]
    | cons top below => simp

namespace Tx

/-- The scripts of a spend are run with the cache of the transaction, from the stack that
the input leaves. -/
theorem settled_checkOutputScript (tx : Tx) (index : Nat) (output : TxOutput) (stack : Stack) :
    Settled tx (tx.checkOutputScript index output stack)
      (tx.checkOutputScript index output stack .empty).1 := by
  intro cache h
  obtain ⟨hmachine, herror, hsuccess⟩ :=
    Evaluation.run_start_alike ⟨output.script, tx, index, output.value⟩ stack h
      (SighashCache.empty_belongsTo tx)
  unfold checkOutputScript Evaluation.succeeded
  dsimp only
  rw [herror, hsuccess]
  split
  · exact ⟨rfl, hmachine.left⟩
  · exact ⟨rfl, hmachine.left⟩

theorem checkOutputScript_eq_ok_iff (tx : Tx) (index : Nat) (output : TxOutput) (stack : Stack) :
    (tx.checkOutputScript index output stack .empty).1 = .ok () ↔
      tx.Unlocks index output stack := by
  unfold Unlocks
  rw [← Evaluation.succeeded_start_iff, checkOutputScript]
  split
  · rename_i hsucceeded
    simp [hsucceeded]
  · rename_i hfailed
    simp [hfailed]

/-! ## One input -/

/-- The script of the input leaves its pushes, and the cache as it was. -/
theorem checkScripts_of_pushOnly {tx : Tx} {index : Nat} {input : TxInput} {output : TxOutput}
    (cache : SighashCache) (h : input.script.isPushOnly = true) :
    tx.checkScripts index input output cache =
      tx.checkOutputScript index output input.script.pushed.reverse cache := by
  obtain ⟨herror, hmachine⟩ := @Evaluation.run_pushOnly ⟨input.script, tx, index, 0⟩ cache h
  rw [checkScripts, herror, hmachine]

/-- Every exit in front of the scripts leaves the cache as it was. -/
theorem settled_checkInput (tx : Tx) (outputs : OutputMap) (index : Nat) :
    Settled tx (tx.checkInput outputs index) (tx.checkInput outputs index .empty).1 := by
  intro cache h
  unfold checkInput
  cases tx.inputs[index]? with
  | none => exact ⟨rfl, h⟩
  | some input =>
    dsimp only
    cases outputs.find? input.outpoint with
    | none => exact ⟨rfl, h⟩
    | some coin =>
      dsimp only
      split
      · rename_i hpush
        rw [checkScripts_of_pushOnly cache hpush, checkScripts_of_pushOnly .empty hpush]
        exact tx.settled_checkOutputScript index coin.output _ cache h
      · exact ⟨rfl, h⟩

/-- An input that passes is there, spends a coin of the map, only pushes and unlocks that
coin. -/
theorem checkInput_eq_ok_iff (tx : Tx) (outputs : OutputMap) (index : Nat) :
    (tx.checkInput outputs index .empty).1 = .ok () ↔
      ∃ input, tx.inputs[index]? = some input ∧ tx.Satisfies outputs index input := by
  unfold checkInput Satisfies
  cases tx.inputs[index]? with
  | none => simp
  | some input =>
    dsimp only
    cases hfind : outputs.find? input.outpoint with
    | none => simp [hfind]
    | some coin =>
      dsimp only
      split
      · rename_i hpush
        rw [checkScripts_of_pushOnly .empty hpush, checkOutputScript_eq_ok_iff]
        simp [hpush, hfind]
      · rename_i hpush
        simp [hpush]

/-! ## All inputs -/

theorem checkInputsFrom_succ (tx : Tx) (outputs : OutputMap) (count index : Nat) :
    tx.checkInputsFrom outputs (count + 1) index =
      followedBy (tx.checkInput outputs index) (tx.checkInputsFrom outputs count (index + 1)) := by
  funext cache
  rw [checkInputsFrom, followedBy]
  rcases tx.checkInput outputs index cache with ⟨_ | _, _⟩ <;> rfl

/-- By induction on the number of inputs that are left. -/
theorem settled_checkInputsFrom (tx : Tx) (outputs : OutputMap) : ∀ count index : Nat,
    Settled tx (tx.checkInputsFrom outputs count index)
      (tx.checkInputsFrom outputs count index .empty).1
  | 0, _ => Settled.self (.constant tx (Except.ok ()))
  | count + 1, index => by
      rw [checkInputsFrom_succ]
      exact Settled.self ((tx.settled_checkInput outputs index).followedBy
        (settled_checkInputsFrom tx outputs count (index + 1)))

/-- The loop over the inputs succeeds when each of them does by itself. -/
theorem checkInputsFrom_eq_ok_iff (tx : Tx) (outputs : OutputMap) : ∀ count index : Nat,
    (tx.checkInputsFrom outputs count index .empty).1 = .ok () ↔
      ∀ i, index ≤ i → i < index + count → (tx.checkInput outputs i .empty).1 = .ok ()
  | 0, index => by
      refine iff_of_true rfl fun i hi hlt => ?_
      omega
  | count + 1, index => by
      have hloop := ((tx.settled_checkInput outputs index).followedBy
        (tx.settled_checkInputsFrom outputs count (index + 1))).of_empty
      rw [← checkInputsFrom_succ] at hloop
      have hsplit : (∀ i, index ≤ i → i < index + (count + 1) →
            (tx.checkInput outputs i .empty).1 = .ok ()) ↔
          (tx.checkInput outputs index .empty).1 = .ok () ∧
            ∀ i, index + 1 ≤ i → i < index + 1 + count →
              (tx.checkInput outputs i .empty).1 = .ok () := by
        constructor
        · intro hall
          exact ⟨hall index (by omega) (by omega), fun i hi hlt => hall i (by omega) (by omega)⟩
        · rintro ⟨hfirst, hrest⟩ i hi hlt
          rcases Nat.eq_or_lt_of_le hi with rfl | hi
          · exact hfirst
          · exact hrest i hi (by omega)
      rw [hsplit, ← checkInputsFrom_eq_ok_iff tx outputs count (index + 1), hloop]
      cases (tx.checkInput outputs index .empty).1 with
      | error error => simp [bind, Except.bind]
      | ok _ => simp [bind, Except.bind]

theorem checkInputsFrom_all_iff (tx : Tx) (outputs : OutputMap) :
    (tx.checkInputsFrom outputs tx.inputs.length 0 .empty).1 = .ok () ↔
      ∀ index input, tx.inputs[index]? = some input → tx.Satisfies outputs index input := by
  simp only [checkInputsFrom_eq_ok_iff, checkInput_eq_ok_iff, Nat.zero_add, Nat.zero_le,
    true_implies]
  constructor
  · intro hall index input hat
    obtain ⟨input', hat', hsatisfied⟩ := hall index (List.getElem?_eq_some_iff.mp hat).1
    rw [hat] at hat'
    exact Option.some.inj hat' ▸ hsatisfied
  · intro hall index hlt
    exact ⟨tx.inputs[index], List.getElem?_eq_getElem hlt, hall _ _ (List.getElem?_eq_getElem hlt)⟩

/-! ## The whole transaction -/

theorem settled_checkInputs (tx : Tx) (outputs : OutputMap) :
    Settled tx (tx.checkInputs outputs) (tx.checkInputs outputs .empty).1 := by
  unfold checkInputs
  cases tx.checkDistinct with
  | error error => exact .constant tx (Except.error error)
  | ok _ => exact tx.settled_checkInputsFrom outputs tx.inputs.length 0

/-- Where neither list is empty, the verifier is two checks in turn. -/
theorem verify_eq_followedBy (tx : Tx) (outputs : OutputMap)
    (h : (tx.inputs.isEmpty || tx.outputs.isEmpty) = false) :
    tx.verify outputs =
      followedBy (tx.checkInputs outputs) (fun cache => (tx.checkValues outputs, cache)) := by
  funext cache
  rw [verify, h, followedBy]
  rcases tx.checkInputs outputs cache with ⟨_ | _, _⟩ <;> rfl

/-- What the verifier answers is the same on every cache of the transaction. -/
theorem settled_verify (tx : Tx) (outputs : OutputMap) :
    Settled tx (tx.verify outputs) (tx.verify outputs .empty).1 := by
  cases h : tx.inputs.isEmpty || tx.outputs.isEmpty with
  | true =>
    have hverify : tx.verify outputs = fun cache => (.error .emptyTransaction, cache) := by
      funext cache
      rw [verify, h, if_pos rfl]
    rw [hverify]
    exact Settled.constant tx _
  | false =>
    rw [tx.verify_eq_followedBy outputs h]
    exact Settled.self ((tx.settled_checkInputs outputs).followedBy
      (.constant tx (tx.checkValues outputs)))

/-- The verifier on the empty cache, which is a cache of every transaction. -/
theorem verify_eq_ok_iff_valid (tx : Tx) (outputs : OutputMap) :
    (tx.verify outputs .empty).1 = .ok () ↔ tx.Valid outputs := by
  rw [verify_eq_ok_iff, checkInputsFrom_all_iff, checkValues_eq_ok_iff]
  constructor
  · rintro ⟨hin, hout, hdistinct, hsatisfied, -, hspent, hcreated, hcovers⟩
    exact ⟨hin, hout, hdistinct, hsatisfied, hspent, hcreated, hcovers⟩
  · rintro ⟨hin, hout, hdistinct, hsatisfied, hspent, hcreated, hcovers⟩
    refine ⟨hin, hout, hdistinct, hsatisfied, fun o hmem => ?_, hspent, hcreated, hcovers⟩
    obtain ⟨input, hinput, rfl⟩ := List.mem_map.mp hmem
    obtain ⟨index, hat⟩ := List.mem_iff_getElem?.mp hinput
    obtain ⟨coin, hfind, -⟩ := hsatisfied index input hat
    exact ⟨coin, hfind⟩

/-- **Exactly the valid transactions are accepted**, on any cache that earlier
checks of the transaction can have left. Of the others, one that has inputs and
outputs and names an outpoint twice is refused for the first repetition, whatever
the map, the scripts and the cache are. -/
theorem verify_accepts_exactly_valid (tx : Tx) (outputs : OutputMap) (cache : SighashCache) :
    (cache.BelongsTo tx → ((tx.verify outputs cache).1 = .ok () ↔ tx.Valid outputs)) ∧
      (tx.inputs ≠ [] → tx.outputs ≠ [] → ¬ tx.outpoints.Nodup →
        ∃ index, (tx.verify outputs cache).1 = .error (.duplicateInput index) ∧
          IsFirstRepeat tx.outpoints index) := by
  constructor
  · intro hcache
    rw [(tx.settled_verify outputs cache hcache).1]
    exact tx.verify_eq_ok_iff_valid outputs
  · exact fun hin hout => tx.verify_of_repeat outputs cache hin hout

/-! ### A transaction of each kind

The output in the map asks for nothing. `spend` spends it once, `spendTwice` names
it in both of its inputs. -/

namespace Sample

def anyone : Script := ⟨(Chunk.ofSmallInt? 1).toList⟩

def known : Outpoint := ⟨.zero, 0⟩

def outputs : OutputMap := OutputMap.empty.insert known ⟨⟨5, anyone⟩, 3⟩

def spend : Tx := ⟨0, [⟨known, .empty, 0⟩], [⟨5, anyone⟩], 0⟩

def spendTwice : Tx := ⟨0, [⟨known, .empty, 0⟩, ⟨known, .empty, 0⟩], [⟨5, anyone⟩], 0⟩

end Sample

theorem verify_accepts_exactly_valid_sample :
    Sample.spend.Valid Sample.outputs ∧
      ∃ index, (Sample.spendTwice.verify Sample.outputs .empty).1 =
        .error (.duplicateInput index) := by
  constructor
  · have haccepted : (Sample.spend.verify Sample.outputs .empty).1 = .ok () :=
      eq_ok_of_isOk (by decide +kernel)
    have hempty := SighashCache.empty_belongsTo Sample.spend
    exact ((verify_accepts_exactly_valid Sample.spend Sample.outputs .empty).1 hempty).mp haccepted
  · have hrepeated : ¬ Sample.spendTwice.outpoints.Nodup := by decide +kernel
    obtain ⟨index, hanswer, -⟩ :=
      (verify_accepts_exactly_valid Sample.spendTwice Sample.outputs .empty).2
        (by decide) (by decide) hrepeated
    exact ⟨index, hanswer⟩

end Tx

end UtxoLedger
