/-
UtxoLedger.Script.Evaluation — running a script to its end.

`runFrom` visits the chunks one after another and moves the position past each
one that did not end the run; at the end every conditional has to be closed. An
`Evaluation` is a machine with what earlier runs on it left: the last error, and
the item on top when the last run ended. A failure stays inside: `Evaluation.run`
always returns, and says with `success` whether no error is on record and the top
item is true. Running again goes on from the recorded position with the whole
state, and an error on record is replaced only by another one.
-/
import UtxoLedger.Script.Machine

namespace UtxoLedger

/-- Visits the chunks that are left. The second part is the error that ended the
run, if one did. -/
def runFrom (env : Setting) : List Chunk → Machine → Machine × Option ScriptError
  | [], m => (m, if m.conditions.isEmpty then none else some .unbalancedConditional)
  | chunk :: rest, m =>
    match m.visit env chunk with
    | .next m => runFrom env rest { m with position := m.position + 1 }
    | .stop m => (m, none)
    | .fail error m => (m, some error)

/-- A machine and the outcome of the runs on it so far. -/
structure Evaluation where
  machine : Machine
  error : Option ScriptError
  /-- The top item when the last run ended, empty if there was none. -/
  returned : Option Bytes
  /-- Whether the last run ended with no error on record and a true top item. -/
  success : Option Bool
  deriving DecidableEq

namespace Evaluation

/-- An evaluation that has not run yet. -/
def start (stack : Stack) (cache : SighashCache) : Evaluation :=
  ⟨⟨stack, [], [], 0, 0, cache⟩, none, none, none⟩

/-- Runs the chunks that are not yet behind. -/
def run (env : Setting) (e : Evaluation) : Evaluation :=
  let (m, failure) := runFrom env (env.script.chunks.drop e.machine.position) e.machine
  -- an error of an earlier run stays unless there is another
  let error := match failure with
    | some error => some error
    | none => e.error
  let top := m.stack.headD []
  ⟨m, error, some top, some (error.isNone && Number.isTrue top)⟩

/-- Whether the last run succeeded. -/
def succeeded (e : Evaluation) : Bool := e.success == some true

end Evaluation

end UtxoLedger
