/-
UtxoLedger.Proofs.Script.RunAgain — running an evaluation again brings nothing new.

An evaluation keeps its machine between runs, and the next run goes on where the last one
ended. A run without an error ends behind the last chunk with nothing open
(`Machine.AtEnd`), or in front of the opcode that stops, in the midst of whatever
conditionals are open there (`Machine.AtReturn`). From the first place there is nothing to
run; from the second the opcode is executed again, which counts it once more and does nothing
else, so the machine is at the same place again. The rest of the evaluation is read off the
machine (`Evaluation.Settled`) and stays too.

An error on record is replaced only by another one. Whatever a run does that starts where a
failed one ended, it does not succeed.
-/
import UtxoLedger.Proofs.Script.Nesting

namespace UtxoLedger

namespace Machine

variable {env : Setting} {m : Machine}

/-! ## Where a run ends -/

/-- The machine again, with as many opcodes more on its count. -/
def countMore (m : Machine) (n : Nat) : Machine := { m with opCount := m.opCount + n }

theorem tally_ret (m : Machine) {noData : Opcode.ret.lengthWidth? = none} :
    m.tally (.op .ret noData) = m.countMore 1 := by
  have hbyte : lastUncounted < Opcode.ret.toByte := by decide
  exact if_pos hbyte

/-- The next chunk is the opcode that stops, and it is not skipped. -/
structure AtReturn (env : Setting) (m : Machine) : Prop where
  isExecuting_eq : m.isExecuting = true
  next_eq : ∃ noData rest, env.script.chunks.drop m.position = .op .ret noData :: rest

/-- No chunk is left and nothing is open. -/
structure AtEnd (env : Setting) (m : Machine) : Prop where
  rest_eq : env.script.chunks.drop m.position = []
  conditions_eq : m.conditions = []

/-- The count is not looked at there. -/
theorem AtReturn.countMore (h : m.AtReturn env) (n : Nat) : (m.countMore n).AtReturn env :=
  ⟨h.isExecuting_eq, h.next_eq⟩

/-- The opcode that stops is executed and counted again. -/
theorem AtReturn.runFrom_eq (h : m.AtReturn env) :
    runFrom env (env.script.chunks.drop m.position) m = (m.countMore 1, none) := by
  obtain ⟨noData, rest, hrest⟩ := h.next_eq
  rw [hrest, runFrom, m.visit_of_executing _ env h.isExecuting_eq, step, exec, tally_ret]

theorem AtEnd.runFrom_eq (h : m.AtEnd env) :
    runFrom env (env.script.chunks.drop m.position) m = (m, none) := by
  rw [h.rest_eq, runFrom, h.conditions_eq]
  rfl

end Machine

namespace Executes

variable {env : Setting} {chunk : Chunk} {s : Machine}

/-- The position of a machine is that of the chunk it executes. -/
theorem drop_position : ∀ {chunks : List Chunk} {m : Machine}, Executes env chunks m chunk s →
    env.script.chunks.drop m.position = chunks →
      ∃ rest, env.script.chunks.drop s.position = chunk :: rest
  | _, _, .here _, hat => ⟨_, hat⟩
  | _, m, .later hvisit h, hat => by
      refine h.drop_position ?_
      dsimp only
      rw [Machine.position_of_visit hvisit, ← List.tail_drop, hat, List.tail_cons]

/-- A run that meets the opcode which stops is left in front of it, with that opcode
counted. -/
theorem runFrom_of_ret {chunks : List Chunk} {m : Machine}
    {noData : Opcode.ret.lengthWidth? = none} (h : Executes env chunks m (.op .ret noData) s) :
    runFrom env chunks m = (s.countMore 1, none) := by
  rw [h.runFrom_of_stop rfl, s.tally_ret]

end Executes

namespace Evaluation

variable {env : Setting} {e : Evaluation}

/-- The next run executes the opcode that stops, which ends it. -/
def StopsAtReturn (env : Setting) (e : Evaluation) : Prop :=
  ∃ noData met, Executes env (env.script.chunks.drop e.machine.position) e.machine
    (.op .ret noData) met

/-- What is said of the outcome is read off the machine and the error, as a run does. -/
structure Settled (e : Evaluation) : Prop where
  returned_eq : e.returned = some (e.machine.stack.headD [])
  success_eq : e.success = some (e.error.isNone && Number.isTrue (e.machine.stack.headD []))

theorem settled_run (env : Setting) (e : Evaluation) : (e.run env).Settled := ⟨rfl, rfl⟩

/-- A run without an error had none to begin with and met none. -/
theorem of_run_error_eq_none (h : (e.run env).error = none) :
    e.error = none ∧
      (runFrom env (env.script.chunks.drop e.machine.position) e.machine).2 = none := by
  unfold run at h
  dsimp only at h
  split at h
  · cases h
  · exact ⟨h, ‹_›⟩

/-- What a run without an error leaves. -/
theorem ends_of_run_error_eq_none (h : (e.run env).error = none) :
    (e.StopsAtReturn env ∧ (e.run env).machine.AtReturn env) ∨
      (¬ e.StopsAtReturn env ∧ (e.run env).machine.AtEnd env) := by
  have hrun := (of_run_error_eq_none h).2
  have hmachine : (e.run env).machine =
      (runFrom env (env.script.chunks.drop e.machine.position) e.machine).1 := rfl
  by_cases hstops : e.StopsAtReturn env
  · refine Or.inl ⟨hstops, ?_⟩
    obtain ⟨noData, met, hmet⟩ := hstops
    rw [hmachine, hmet.runFrom_of_ret]
    exact Machine.AtReturn.countMore ⟨hmet.isExecuting_eq, noData, hmet.drop_position rfl⟩ 1
  · refine Or.inr ⟨hstops, ?_⟩
    rcases Machine.ends_of_runFrom hrun with ⟨hend, hclosed⟩ | ⟨noData, met, hmet, -⟩
    · refine hmachine ▸ ⟨List.drop_eq_nil_of_le ?_, hclosed⟩
      rw [Machine.position_of_visitAll hend, List.length_drop]
      omega
    · exact absurd ⟨noData, met, hmet⟩ hstops

/-- A run that changes nothing but the count changes nothing else. -/
theorem Settled.run_eq {n : Nat} (h : e.Settled)
    (hrun : runFrom env (env.script.chunks.drop e.machine.position) e.machine =
      (e.machine.countMore n, none)) :
    e.run env = { e with machine := e.machine.countMore n } := by
  have hreturned := h.returned_eq
  have hsuccess := h.success_eq
  simp only [run, hrun]
  rw [hreturned, hsuccess]
  rfl

/-- By induction on the number of runs: each finds the machine where it was. -/
theorem after_of_atReturn (h : e.Settled) (hat : e.machine.AtReturn env) : ∀ later : Nat,
    e.after env later = { e with machine := e.machine.countMore later }
  | 0 => rfl
  | later + 1 => by
      have hsettled : Settled { e with machine := e.machine.countMore later } :=
        ⟨h.returned_eq, h.success_eq⟩
      rw [after, after_of_atReturn h hat later,
        hsettled.run_eq (hat.countMore later).runFrom_eq]
      rfl

/-- By induction on the number of runs, none of which has anything to do. -/
theorem after_of_atEnd (h : e.Settled) (hat : e.machine.AtEnd env) : ∀ later : Nat,
    e.after env later = e
  | 0 => rfl
  | later + 1 => by
      rw [after, after_of_atEnd h hat later]
      exact h.run_eq (n := 0) hat.runFrom_eq

/-! ## Errors -/

/-- No run takes an error off the record. -/
theorem run_error_ne_none (h : e.error ≠ none) : (e.run env).error ≠ none :=
  fun hnone => h (of_run_error_eq_none hnone).1

theorem after_error_ne_none (h : e.error ≠ none) : ∀ later : Nat, (e.after env later).error ≠ none
  | 0 => h
  | later + 1 => run_error_ne_none (after_error_ne_none h later)

theorem succeeded_run (env : Setting) (e : Evaluation) :
    (e.run env).succeeded =
      ((e.run env).error.isNone && Number.isTrue ((e.run env).machine.stack.headD [])) := by
  rw [succeeded, (settled_run env e).success_eq]
  cases (e.run env).error.isNone && Number.isTrue ((e.run env).machine.stack.headD []) <;> rfl

/-- **Running again changes nothing.** Take an evaluation that has run at least once. If it
has no error, any number of further runs leave it as it is, with the same outcome; where the
last run was stopped by the opcode that stops, each of them counts that opcode once more and
nothing else. If it has an error, none of them succeeds. -/
theorem running_again_changes_nothing (env : Setting) (before : Evaluation) :
    ((before.run env).error = none →
      (before.StopsAtReturn env → ∀ later, (before.run env).after env later =
        { before.run env with machine := (before.run env).machine.countMore later }) ∧
      (¬ before.StopsAtReturn env → ∀ later, (before.run env).after env later = before.run env) ∧
      ∀ later, ((before.run env).after env later).succeeded = (before.run env).succeeded) ∧
    ((before.run env).error ≠ none →
      ∀ later, ((before.run env).after env (later + 1)).succeeded = false) := by
  have hsettled := settled_run env before
  refine ⟨fun hnone => ?_, fun herror later => ?_⟩
  · rcases ends_of_run_error_eq_none hnone with ⟨hstops, hat⟩ | ⟨hstops, hat⟩
    · have hafter := after_of_atReturn hsettled hat
      refine ⟨fun _ => hafter, fun hnot => absurd hstops hnot, fun later => ?_⟩
      rw [hafter later]
      rfl
    · have hafter := after_of_atEnd hsettled hat
      refine ⟨fun hyes => absurd hyes hstops, fun _ => hafter, fun later => ?_⟩
      rw [hafter later]
  · have hlater : ((before.run env).after env (later + 1)).error ≠ none :=
      after_error_ne_none herror (later + 1)
    rw [after] at hlater ⊢
    rw [succeeded_run, Option.isNone_eq_false_iff.mpr (Option.isSome_iff_ne_none.mpr hlater),
      Bool.false_and]

/-! ### The same script on a true item and on a false one

On a true item the script stops inside the group that it opens. On a false one it comes to its
end with the group open, which is an error. -/

namespace RunAgainSample

theorem noData : Opcode.ret.lengthWidth? = none := rfl

def setting : Setting :=
  ⟨⟨[.branch .ifTrue, .op .ret noData, .branch .otherwise]⟩, ⟨0, [], [], 0⟩, 0, 0⟩

def onTrue : Evaluation := start [[1], [7]] .empty

def onFalse : Evaluation := start [[], [7]] .empty

theorem stopsAtReturn : onTrue.StopsAtReturn setting := ⟨noData, _, .later rfl (.here rfl)⟩

end RunAgainSample

open RunAgainSample in
theorem running_again_changes_nothing_sample :
    (∀ later, ((onTrue.run setting).after setting later).machine.opCount = 2 + later ∧
      ((onTrue.run setting).after setting later).succeeded = true) ∧
      ∀ later, ((onFalse.run setting).after setting (later + 1)).succeeded = false := by
  obtain ⟨htrue, -⟩ := running_again_changes_nothing setting onTrue
  obtain ⟨hafter, -, hsucceeded⟩ := htrue (by decide)
  obtain ⟨-, hfalse⟩ := running_again_changes_nothing setting onFalse
  refine ⟨fun later => ⟨?_, (hsucceeded later).trans (by decide)⟩, hfalse (by decide)⟩
  rw [hafter stopsAtReturn later]
  rfl

end Evaluation

end UtxoLedger
