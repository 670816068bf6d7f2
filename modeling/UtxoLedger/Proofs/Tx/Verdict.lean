/-
UtxoLedger.Proofs.Tx.Verdict — from the run of an output's script to the answer
for the input.

A run ends with an error or with a truth value on top (`Ends`). The check of an
input turns the one into a refusal and the other into yes or no (`answerOf`), so
for a locking script it is enough to say what its run ends with on the items that
the input pushes: `checkInput_of_ends` does the rest.
-/
import UtxoLedger.Proofs.Tx.Acceptance

namespace UtxoLedger

/-- The run ended with the error, or with the truth value on top. -/
def Ends : Machine × Option ScriptError → Except ScriptError Bool → Prop
  | (_, failure), .error error => failure = some error
  | (m, failure), .ok answer => failure = none ∧ m.stack.head? = some (Stack.ofBool answer)

/-- What a check leaves on the stack is true exactly if the check passed. -/
theorem Number.isTrue_ofBool (answer : Bool) : Number.isTrue (Stack.ofBool answer) = answer := by
  cases answer <;> rfl

namespace Tx

/-- The answer for an input whose output's script comes to the verdict. -/
def answerOf (index : Nat) : Except ScriptError Bool → Except ValidityError Unit
  | .ok true => .ok ()
  | .ok false => .error (.scriptFailed index none)
  | .error error => .error (.scriptFailed index (some error))

theorem answerOf_eq_ok_iff (index : Nat) (verdict : Except ScriptError Bool) :
    answerOf index verdict = .ok () ↔ verdict = .ok true := by
  rcases verdict with error | _ | _ <;> simp [answerOf]

/-- An output's script whose run comes to a verdict answers it. -/
theorem checkOutputScript_of_ends {tx : Tx} {index : Nat} {output : TxOutput} {stack : Stack}
    {cache : SighashCache} {verdict : Except ScriptError Bool}
    (h : Ends (runFrom ⟨output.script, tx, index, output.value⟩ output.script.chunks
      (Evaluation.start stack cache).machine) verdict) :
    (tx.checkOutputScript index output stack cache).1 = answerOf index verdict := by
  obtain ⟨final, failure, hrun, heval⟩ :=
    Evaluation.run_start ⟨output.script, tx, index, output.value⟩ stack cache
  rw [hrun] at h
  rw [checkOutputScript, heval]
  cases verdict with
  | error error =>
    have hfailure : failure = some error := h
    simp [hfailure, Evaluation.succeeded, answerOf]
  | ok answer =>
    obtain ⟨hfailure, htop⟩ : failure = none ∧ final.stack.head? = some (Stack.ofBool answer) := h
    cases answer <;>
      simp [hfailure, htop, Number.isTrue_ofBool, Evaluation.succeeded, answerOf]

/-- For an input that only pushes, all depends on how the script that is spent ends. -/
theorem checkInput_of_ends {tx : Tx} {outputs : OutputMap} {index : Nat} {input : TxInput}
    {coin : Coin} {cache : SighashCache} {verdict : Except ScriptError Bool}
    (hinput : tx.inputs[index]? = some input) (hcoin : outputs.find? input.outpoint = some coin)
    (hends : Ends (runFrom ⟨coin.output.script, tx, index, coin.output.value⟩
      coin.output.script.chunks (Evaluation.start input.script.pushed.reverse cache).machine)
      verdict) :
    (tx.checkInput outputs index cache).1 =
      if input.script.isPushOnly then answerOf index verdict
      else .error (.inputScriptNotPushOnly index) := by
  simp only [checkInput, hinput, hcoin]
  by_cases hpush : input.script.isPushOnly = true
  · rw [if_pos hpush, if_pos hpush, checkScripts_of_pushOnly cache hpush]
    exact checkOutputScript_of_ends hends
  · rw [if_neg hpush, if_neg hpush]

end Tx

end UtxoLedger
