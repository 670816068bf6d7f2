/-
UtxoLedger.Proofs.Script.Segments — runs cut in pieces, and pieces moved to other
places.

`Machine.visitAll` visits the chunks of a segment and comes to what a single visit
comes to: the script goes on behind it, or it ended inside. A run is the visit of
any front part and the run of what is left (`runFrom_append`).

No chunk but the conditionals looks at the conditionals around it or at its own
position, and none changes them. `placed_step` says so for one step, by the opcodes:
a step commutes with placing the machine elsewhere. For the chunks of a run this gives
that a run which goes on does so in the same place (`kept_of_visit`) and that more
conditionals around it do not show while they are on (`visit_inside`).
-/
import UtxoLedger.Proofs.Script.Steps

namespace UtxoLedger

namespace Visit

/-- The same outcome on a machine that is changed. -/
def map (f : Machine → Machine) : Visit → Visit
  | .next m => .next (f m)
  | .stop m => .stop (f m)
  | .fail error m => .fail error (f m)

/-- What follows a visit, if the script goes on. -/
def andThen (v : Visit) (k : Machine → Visit) : Visit :=
  match v with
  | .next m => k m
  | .stop m => .stop m
  | .fail error m => .fail error m

/-- The run that follows a visit, if the script goes on. -/
def thenRun (v : Visit) (run : Machine → Machine × Option ScriptError) :
    Machine × Option ScriptError :=
  match v with
  | .next m => run m
  | .stop m => (m, none)
  | .fail error m => (m, some error)

/-- Where a visit ends, what follows is not looked at, however it is grouped. -/
theorem andThen_assoc (v : Visit) (k l : Machine → Visit) :
    (v.andThen k).andThen l = v.andThen fun m => (k m).andThen l := by
  cases v <;> rfl

/-- A run behind two visits is a run behind the second. -/
theorem thenRun_andThen (v : Visit) (k : Machine → Visit)
    (run : Machine → Machine × Option ScriptError) :
    (v.andThen k).thenRun run = v.thenRun fun m => (k m).thenRun run := by
  cases v <;> rfl

end Visit

/-! ## Segments -/

namespace Machine

/-- The machine behind the chunk that it is at. -/
def advance (m : Machine) : Machine := { m with position := m.position + 1 }

@[simp] theorem advance_conditions (m : Machine) : m.advance.conditions = m.conditions := rfl

@[simp] theorem advance_position (m : Machine) : m.advance.position = m.position + 1 := rfl

/-- Visits the chunks of a segment one after another. -/
def visitAll (env : Setting) : List Chunk → Machine → Visit
  | [], m => .next m
  | chunk :: rest, m => (m.visit env chunk).andThen fun m => visitAll env rest m.advance

/-- A segment that is left by its end was so at each of its chunks. -/
theorem visitAll_cons_eq_next {env : Setting} {chunk : Chunk} {rest : List Chunk}
    {m m' : Machine} (h : m.visitAll env (chunk :: rest) = .next m') :
    ∃ m₁, m.visit env chunk = .next m₁ ∧ m₁.advance.visitAll env rest = .next m' := by
  rw [visitAll] at h
  cases hvisit : m.visit env chunk with
  | next m₁ =>
    rw [hvisit] at h
    exact ⟨m₁, rfl, h⟩
  | stop _ | fail _ _ =>
    rw [hvisit] at h
    cases h

theorem visitAll_append (env : Setting) (back : List Chunk) : ∀ (front : List Chunk) (m : Machine),
    visitAll env (front ++ back) m = (visitAll env front m).andThen (visitAll env back)
  | [], _ => rfl
  | chunk :: front, m => by
      rw [List.cons_append, visitAll, visitAll, Visit.andThen_assoc]
      simp only [visitAll_append env back front]

end Machine

/-- A run can be cut at any place. -/
theorem runFrom_append (env : Setting) (back : List Chunk) : ∀ (front : List Chunk) (m : Machine),
    runFrom env (front ++ back) m = (m.visitAll env front).thenRun (runFrom env back)
  | [], _ => rfl
  | chunk :: front, m => by
      rw [List.cons_append, runFrom, Machine.visitAll, Visit.thenRun_andThen]
      simp only [← runFrom_append env back front]
      cases m.visit env chunk <;> rfl

/-! ## Other places -/

namespace Machine

/-- The machine at another position, under other conditionals. -/
def placed (conditions : List Bool) (position : Nat) (m : Machine) : Machine :=
  { m with conditions := conditions, position := position }

/-- The machine with more conditionals around those that are open. -/
def inside (outer : List Bool) (m : Machine) : Machine :=
  { m with conditions := m.conditions ++ outer }

variable (conditions : List Bool) (position : Nat) (env : Setting) (m : Machine)

theorem placed_onStack (operation : Stack → Popped) :
    (m.placed conditions position).onStack operation =
      (m.onStack operation).map (placed conditions position) := by
  simp only [onStack, placed]
  cases operation m.stack <;> rfl

theorem placed_toAlt :
    (m.placed conditions position).toAlt = m.toAlt.map (placed conditions position) := by
  obtain ⟨stack, alt, _, _, opCount, cache⟩ := m
  cases stack <;> rfl

theorem placed_fromAlt :
    (m.placed conditions position).fromAlt = m.fromAlt.map (placed conditions position) := by
  obtain ⟨stack, alt, _, _, opCount, cache⟩ := m
  cases alt <;> rfl

/-- The lock of the transaction is compared with the top of the stack, which stays. -/
theorem placed_checkLockAbs :
    (m.placed conditions position).checkLockAbs env =
      (m.checkLockAbs env).map (placed conditions position) := by
  obtain ⟨stack, alt, _, _, opCount, cache⟩ := m
  cases stack with
  | nil => rfl
  | cons a s =>
    simp only [checkLockAbs, placed]
    split <;> rfl

theorem placed_checkLockRel :
    (m.placed conditions position).checkLockRel env =
      (m.checkLockRel env).map (placed conditions position) := by
  obtain ⟨stack, alt, _, _, opCount, cache⟩ := m
  cases stack with
  | nil => rfl
  | cons a s =>
    simp only [checkLockRel, placed]
    cases env.tx.inputs[env.index]? with
    | none => rfl
    | some input =>
      dsimp only
      split <;> rfl

/-- The result of a check goes on the stack, or the script ends. -/
theorem placed_conclude (thenVerify success : Bool) :
    (m.placed conditions position).conclude thenVerify success =
      (m.conclude thenVerify success).map (placed conditions position) := by
  simp only [conclude]
  split <;> rfl

/-- A digest is computed from the transaction and the script that is spent, with the cache,
and from nothing else of the machine. -/
theorem placed_checkSig (thenVerify : Bool) :
    (m.placed conditions position).checkSig env thenVerify =
      (m.checkSig env thenVerify).map (placed conditions position) := by
  obtain ⟨stack, alt, conditions', position', opCount, cache⟩ := m
  simp only [checkSig, placed]
  rcases stack with _ | ⟨key, _ | ⟨sig, s⟩⟩
  · rfl
  · rfl
  · dsimp only
    split
    · rfl
    · split
      · rfl
      · exact placed_conclude conditions position ⟨s, alt, conditions', position', opCount, _⟩ _ _

theorem placed_checkMultiSig (thenVerify : Bool) :
    (m.placed conditions position).checkMultiSig env thenVerify =
      (m.checkMultiSig env thenVerify).map (placed conditions position) := by
  obtain ⟨stack, alt, conditions', position', opCount, cache⟩ := m
  simp only [checkMultiSig, placed]
  cases stack with
  | nil => rfl
  | cons top s =>
    dsimp only
    cases (Number.toCount? (Number.decode top)).filter (decide <| · ≤ Script.maxKeys) with
    | none => rfl
    | some keyCount =>
      dsimp only
      split
      · rfl
      · cases takeSized PublicKey.size keyCount s with
        | error s => rfl
        | ok taken =>
          obtain ⟨keys, _ | ⟨top, s⟩⟩ := taken
          · rfl
          · dsimp only
            cases (Number.toCount? (Number.decode top)).filter (decide <| · ≤ keyCount) with
            | none => rfl
            | some sigCount =>
              dsimp only
              split
              · rfl
              · cases takeSized TxSignature.size sigCount s with
                | error s => rfl
                | ok taken =>
                  exact placed_conclude conditions position
                    ⟨taken.2, alt, conditions', position', opCount, _⟩ _ _

/-- One case for each opcode. That it is no conditional is needed, since those are the ones
that look at the conditionals and at the position. -/
theorem placed_exec (code : Opcode) (hplain : ∀ kind, code ≠ .branch kind) :
    (m.placed conditions position).exec env code =
      (m.exec env code).map (placed conditions position) := by
  cases code with
  | branch kind => exact absurd rfl (hplain kind)
  | zero | pushData _ | negativeOne | small _ | ret => rfl
  | toAlt => exact m.placed_toAlt conditions position
  | fromAlt => exact m.placed_fromAlt conditions position
  | checkSig => exact m.placed_checkSig conditions position env false
  | checkSigVerify => exact m.placed_checkSig conditions position env true
  | checkMultiSig => exact m.placed_checkMultiSig conditions position env false
  | checkMultiSigVerify => exact m.placed_checkMultiSig conditions position env true
  | checkLockAbs => exact m.placed_checkLockAbs conditions position env
  | checkLockRel => exact m.placed_checkLockRel conditions position env
  | depth => exact m.placed_onStack conditions position Stack.depth
  | _ => exact m.placed_onStack conditions position _

variable {chunk : Chunk}

/-- Opcodes that are unknown or push data do not look around either. -/
theorem placed_step (hplain : chunk.isBranch = false) :
    (m.placed conditions position).step env chunk =
      (m.step env chunk).map (placed conditions position) := by
  cases chunk with
  | op code _ =>
    refine m.placed_exec conditions position env code fun kind hkind => ?_
    subst hkind
    cases hplain
  | unknown _ _ | push _ _ => rfl

/-- Operations are counted wherever they stand. -/
theorem placed_tally :
    (m.placed conditions position).tally chunk = (m.tally chunk).placed conditions position := by
  unfold tally
  split <;> rfl

theorem step_eq_placed (hplain : chunk.isBranch = false) :
    m.step env chunk = (m.step env chunk).map (placed m.conditions m.position) :=
  m.placed_step m.conditions m.position env hplain

/-- A chunk that is no conditional changes neither the conditionals nor the position. -/
theorem kept_of_visit {m' : Machine} (hplain : chunk.isBranch = false)
    (h : m.visit env chunk = .next m') :
    m'.conditions = m.conditions ∧ m'.position = m.position := by
  unfold visit at h
  split at h
  · rw [(m.tally chunk).step_eq_placed env hplain, tally_conditions, tally_position] at h
    cases hstep : (m.tally chunk).step env chunk with
    | next left =>
      rw [hstep] at h
      cases h
      exact ⟨rfl, rfl⟩
    | stop _ | fail _ _ =>
      rw [hstep] at h
      cases h
  · cases h
    exact ⟨rfl, rfl⟩

/-- More conditionals that are on do not change whether a chunk is executed. -/
theorem isExecuting_inside {outer : List Bool} (houter : outer.all id = true) :
    (m.inside outer).isExecuting = m.isExecuting := by
  simp only [isExecuting, inside, List.all_append, houter, Bool.and_true]

/-- Conditionals that are on do not show from inside. -/
theorem visit_inside (hplain : chunk.isBranch = false) {outer : List Bool}
    (houter : outer.all id = true) :
    (m.inside outer).visit env chunk = (m.visit env chunk).map (inside outer) := by
  unfold visit
  rw [m.isExecuting_inside houter]
  split
  · show ((m.placed (m.conditions ++ outer) m.position).tally chunk).step env chunk = _
    rw [placed_tally, placed_step _ _ _ _ hplain, (m.tally chunk).step_eq_placed env hplain,
      tally_conditions, tally_position]
    cases (m.tally chunk).step env chunk <;> rfl
  · rfl

end Machine

end UtxoLedger
