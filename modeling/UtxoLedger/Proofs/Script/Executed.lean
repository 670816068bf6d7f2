/-
UtxoLedger.Proofs.Script.Executed — the chunks that a run executes, and the
machine that each of them meets.

`Executes` follows a run chunk by chunk and says where it comes to a chunk that
no conditional skips. The machine in it is the one before the chunk: its stack is
what the opcode looks at.

A run that ends without an error executed no chunk that failed
(`Executes.not_fail`). So what an opcode refuses was nowhere on top when it was
executed. For the two lock opcodes that is a bound on a number
(`Executes.le_lockAbs`, `Executes.le_lockRel`), whatever the rest of the script does.
-/
import UtxoLedger.Proofs.Script.Steps

namespace UtxoLedger

/-- A run of the chunks from the first machine executes a chunk on the second. -/
inductive Executes (env : Setting) : List Chunk → Machine → Chunk → Machine → Prop where
  /-- No surrounding conditional is off at the first chunk. -/
  | here {chunk : Chunk} {rest : List Chunk} {m : Machine} (hon : m.isExecuting = true) :
    Executes env (chunk :: rest) m chunk m
  /-- The first chunk, executed or skipped, does not end the run. -/
  | later {first chunk : Chunk} {rest : List Chunk} {m next met : Machine}
    (hvisit : m.visit env first = .next next)
    (h : Executes env rest { next with position := next.position + 1 } chunk met) :
    Executes env (first :: rest) m chunk met

namespace Executes

variable {env : Setting} {chunks : List Chunk} {m s : Machine} {chunk : Chunk}

/-- Only what is not skipped is executed. -/
theorem isExecuting_eq (h : Executes env chunks m chunk s) : s.isExecuting = true := by
  induction h with
  | here hon => exact hon
  | later _ _ ih => exact ih

theorem visit_eq (h : Executes env chunks m chunk s) :
    s.visit env chunk = (s.tally chunk).step env chunk :=
  s.visit_of_executing chunk env h.isExecuting_eq

/-- The run goes on from the machine that executes the chunk. -/
theorem exists_runFrom_eq (h : Executes env chunks m chunk s) :
    ∃ rest, runFrom env chunks m = runFrom env (chunk :: rest) s := by
  induction h with
  | here hon => exact ⟨_, rfl⟩
  | later hvisit _ ih =>
    rw [runFrom, hvisit]
    exact ih

theorem runFrom_of_fail {error : ScriptError} {left : Machine} (h : Executes env chunks m chunk s)
    (hfail : (s.tally chunk).step env chunk = .fail error left) :
    runFrom env chunks m = (left, some error) := by
  obtain ⟨rest, hrun⟩ := h.exists_runFrom_eq
  rw [hrun, runFrom, h.visit_eq, hfail]

theorem runFrom_of_stop {left : Machine} (h : Executes env chunks m chunk s)
    (hstop : (s.tally chunk).step env chunk = .stop left) :
    runFrom env chunks m = (left, none) := by
  obtain ⟨rest, hrun⟩ := h.exists_runFrom_eq
  rw [hrun, runFrom, h.visit_eq, hstop]

/-- The step of an executed chunk does not fail where the run has no error. -/
theorem not_fail (h : Executes env chunks m chunk s) (hrun : (runFrom env chunks m).2 = none)
    (error : ScriptError) (left : Machine) : (s.tally chunk).step env chunk ≠ .fail error left := by
  intro hfail
  rw [h.runFrom_of_fail hfail] at hrun
  cases hrun

end Executes

/-! ## The lock opcodes -/

namespace Machine

theorem reaches_eq_true_iff (lock : Nat) (item : Bytes) :
    reaches lock item = true ↔ 0 ≤ Number.decode item ∧ Number.decode item ≤ (lock : Int) := by
  simp [reaches]

variable {env : Setting} {m : Machine}

theorem reaches_of_checkLockAbs (h : ∀ error left, m.checkLockAbs env ≠ .fail error left) :
    ∃ top below, m.stack = top :: below ∧ reaches env.tx.lockAbs.toNat top = true := by
  unfold checkLockAbs at h
  cases hstack : m.stack with
  | nil => exact absurd (by rw [hstack]) (h .invalidStackOperation m)
  | cons top below =>
    refine ⟨top, below, rfl, ?_⟩
    cases hreaches : reaches env.tx.lockAbs.toNat top with
    | true => rfl
    | false => exact absurd (by simp [hstack, hreaches]) (h .lockNotSatisfied m)

theorem reaches_of_checkLockRel (h : ∀ error left, m.checkLockRel env ≠ .fail error left) :
    ∃ top below input, m.stack = top :: below ∧ env.tx.inputs[env.index]? = some input ∧
      reaches input.lockRel.toNat top = true := by
  unfold checkLockRel at h
  cases hstack : m.stack with
  | nil => exact absurd (by rw [hstack]) (h .invalidStackOperation m)
  | cons top below =>
    cases hinput : env.tx.inputs[env.index]? with
    | none => exact absurd (by simp [hstack, hinput]) (h .lockNotSatisfied m)
    | some input =>
      refine ⟨top, below, input, rfl, rfl, ?_⟩
      cases hreaches : reaches input.lockRel.toNat top with
      | true => rfl
      | false => exact absurd (by simp [hstack, hinput, hreaches]) (h .lockNotSatisfied m)

end Machine

namespace Executes

variable {env : Setting} {chunks : List Chunk} {m s : Machine}

/-- Where a script demands an absolute lock, the transaction has one that reaches it. -/
theorem le_lockAbs {noData : Opcode.checkLockAbs.lengthWidth? = none}
    (h : Executes env chunks m (.op .checkLockAbs noData) s)
    (hrun : (runFrom env chunks m).2 = none) :
    ∃ top below, s.stack = top :: below ∧ 0 ≤ Number.decode top ∧
      Number.decode top ≤ (env.tx.lockAbs.toNat : Int) := by
  obtain ⟨top, below, hstack, hreaches⟩ := Machine.reaches_of_checkLockAbs (h.not_fail hrun)
  rw [Machine.tally_stack] at hstack
  exact ⟨top, below, hstack, (Machine.reaches_eq_true_iff _ _).mp hreaches⟩

/-- Where a script demands a relative lock, the input has one that reaches it. -/
theorem le_lockRel {noData : Opcode.checkLockRel.lengthWidth? = none}
    (h : Executes env chunks m (.op .checkLockRel noData) s)
    (hrun : (runFrom env chunks m).2 = none) :
    ∃ top below input, s.stack = top :: below ∧ env.tx.inputs[env.index]? = some input ∧
      0 ≤ Number.decode top ∧ Number.decode top ≤ (input.lockRel.toNat : Int) := by
  obtain ⟨top, below, input, hstack, hinput, hreaches⟩ :=
    Machine.reaches_of_checkLockRel (h.not_fail hrun)
  rw [Machine.tally_stack] at hstack
  exact ⟨top, below, input, hstack, hinput, (Machine.reaches_eq_true_iff _ _).mp hreaches⟩

end Executes

end UtxoLedger
