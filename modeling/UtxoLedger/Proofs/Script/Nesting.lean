/-
UtxoLedger.Proofs.Script.Nesting — a script whose conditionals do not match never ends well.

The machine compares conditionals with nothing but the list of those that are open, and
which chunks it executes depends on data. The length of that list does not: a conditional
acts also where it is skipped. So at every moment the length is the number of openings less
the number of ends among the chunks behind the machine, `Script.height`. `Machine.Level` is
that invariant; a visit that goes on keeps it (`Level.next`) and so does one that ends the
run (`Level.ended`), hence whole runs do, and any number of them.

At the end of a script nothing may be open. Read from there to the front, the visits say
that each turn and each end had something open (`closes_of_visitAll`), which makes the
chunks nested groups (`Script.Closes.balanced`). A run that has no error and did not
come to the end was stopped by the one opcode that stops (`ends_of_runFrom`).
-/
import UtxoLedger.Proofs.Script.CacheIndependence
import UtxoLedger.Proofs.Script.Conditionals
import UtxoLedger.Proofs.Script.Executed

namespace UtxoLedger

/-! ## Openings and ends -/

namespace Chunk

/-- Whether the chunk opens a conditional. -/
def isOpening : Chunk → Bool
  | .op (.branch .ifTrue) _ => true
  | .op (.branch .ifFalse) _ => true
  | _ => false

/-- Whether the chunk ends a conditional. -/
def isEnd : Chunk → Bool
  | .op (.branch .endIf) _ => true
  | _ => false

/-- What a chunk is to the conditionals around it. -/
inductive Role : Chunk → Prop where
  | plain {chunk : Chunk} (hplain : chunk.isBranch = false) : Role chunk
  | opens (wanted : Bool) : Role (.branch (.opening wanted))
  | turns : Role (.branch .otherwise)
  | ends : Role (.branch .endIf)

/-- Every chunk has one of the four roles, so a case split on chunks needs no more cases
than the grammar has. -/
theorem role : ∀ chunk : Chunk, chunk.Role
  | .op code _ => by
      cases code with
      | branch kind =>
        cases kind with
        | ifTrue => exact .opens true
        | ifFalse => exact .opens false
        | otherwise => exact .turns
        | endIf => exact .ends
      | _ => exact .plain rfl
  | .unknown _ _ => .plain rfl
  | .push _ _ => .plain rfl

/-- Only conditionals count for the nesting. -/
theorem opens_and_ends_none {chunk : Chunk} (h : chunk.isBranch = false) :
    chunk.isOpening = false ∧ chunk.isEnd = false := by
  cases chunk with
  | op code _ =>
    cases code with
    | branch kind => cases h
    | _ => exact ⟨rfl, rfl⟩
  | unknown _ _ | push _ _ => exact ⟨rfl, rfl⟩

/-- By how much the chunk changes the number of open conditionals. -/
def rise (chunk : Chunk) : Int :=
  (if chunk.isOpening then 1 else 0) - (if chunk.isEnd then 1 else 0)

theorem rise_of_plain {chunk : Chunk} (h : chunk.isBranch = false) : chunk.rise = 0 := by
  rw [rise, (opens_and_ends_none h).1, (opens_and_ends_none h).2]
  rfl

@[simp] theorem rise_opening (wanted : Bool) : rise (.branch (.opening wanted)) = 1 := by
  cases wanted <;> rfl

/-- A turn leaves the number of open conditionals as it is, though it needs one. -/
@[simp] theorem rise_otherwise : rise (.branch .otherwise) = 0 := rfl

@[simp] theorem rise_endIf : rise (.branch .endIf) = -1 := rfl

end Chunk

namespace Script

/-- The number of openings less the number of ends. -/
def height (chunks : List Chunk) : Int :=
  (chunks.countP Chunk.isOpening : Int) - (chunks.countP Chunk.isEnd : Int)

/-- The sum from the front, for inductions on the chunks that are left. -/
theorem height_cons (chunk : Chunk) (chunks : List Chunk) :
    height (chunk :: chunks) = chunk.rise + height chunks := by
  simp only [height, Chunk.rise, List.countP_cons]
  split <;> split <;> simp <;> omega

/-- The sum from the back, for the chunk that the machine has just passed. -/
theorem height_concat (chunks : List Chunk) (chunk : Chunk) :
    height (chunks ++ [chunk]) = height chunks + chunk.rise := by
  simp only [height, Chunk.rise, List.countP_append, List.countP_singleton]
  split <;> split <;> simp <;> omega

/-! ## Chunks that close what they open -/

/-- What stands in front of the end of a group, and what behind it. -/
theorem Closes.split {n : Nat} {chunks : List Chunk} (h : Closes (n + 1) chunks) :
    ∃ (body : List Chunk) (others : List (List Chunk)) (rest : List Chunk),
      chunks = body ++ (others.flatMap (.branch .otherwise :: ·) ++ .branch .endIf :: rest) ∧
        Balanced body ∧ (∀ other ∈ others, Balanced other) ∧ Closes n rest := by
  induction hlength : chunks.length using Nat.strongRecOn generalizing n chunks with
  | ind length ih =>
    subst hlength
    cases h with
    | plain hplain hrest =>
      obtain ⟨body, others, rest', rfl, hbody, hothers, hrest'⟩ :=
        ih _ (by simp) hrest rfl
      exact ⟨_ :: body, others, rest', rfl, .plain hplain hbody, hothers, hrest'⟩
    | opens wanted hrest =>
      -- the group that is opened here ends first; what is behind it belongs to the body
      obtain ⟨inner, turned, behind, rfl, hinner, hturned, hbehind⟩ := ih _ (by simp) hrest rfl
      obtain ⟨body, others, rest', rfl, hbody, hothers, hrest'⟩ :=
        ih _ (by simp; omega) hbehind rfl
      refine ⟨_, others, rest', ?_, .group wanted hinner hturned hbody, hothers, hrest'⟩
      simp only [List.cons_append, List.append_assoc]
    | turns hrest =>
      obtain ⟨body, others, rest', rfl, hbody, hothers, hrest'⟩ := ih _ (by simp) hrest rfl
      refine ⟨[], body :: others, rest', ?_, .nil, ?_, hrest'⟩
      · simp only [List.flatMap_cons, List.nil_append, List.cons_append, List.append_assoc]
      · exact List.forall_mem_cons.mpr ⟨hbody, hothers⟩
    | ends hrest => exact ⟨[], [], _, rfl, .nil, by simp, hrest⟩

/-- Chunks that close what they open are nested groups. By induction on the number of
chunks, since the group in front is taken off as a whole (`Closes.split`). -/
theorem Closes.balanced {chunks : List Chunk} (h : Closes 0 chunks) : Balanced chunks := by
  induction hlength : chunks.length using Nat.strongRecOn generalizing chunks with
  | ind length ih =>
    subst hlength
    cases h with
    | nil => exact .nil
    | plain hplain hrest => exact .plain hplain (ih _ (by simp) hrest rfl)
    | opens wanted hrest =>
      obtain ⟨body, others, rest, rfl, hbody, hothers, hrest⟩ := hrest.split
      exact .group wanted hbody hothers (ih _ (by simp; omega) hrest rfl)

/-- The number that is still to be ended shows in the height. -/
theorem Closes.height_eq {n : Nat} {chunks : List Chunk} (h : Closes n chunks) :
    height chunks = -n := by
  induction h with
  | nil => rfl
  | plain hplain _ ih => rw [height_cons, Chunk.rise_of_plain hplain, ih, Int.zero_add]
  | opens wanted _ ih =>
    rw [height_cons, Chunk.rise_opening, ih]
    omega
  | turns _ ih => rw [height_cons, Chunk.rise_otherwise, ih, Int.zero_add]
  | ends _ ih =>
    rw [height_cons, Chunk.rise_endIf, ih]
    omega

/-- Nested groups open as much as they end. -/
theorem Balanced.height_eq_zero {chunks : List Chunk} (h : Balanced chunks) : height chunks = 0 :=
  h.closes.height_eq

end Script

/-! ## One visit -/

/-- The machine that a visit leaves, whether or not the script goes on. -/
def Visit.machine : Visit → Machine
  | .next m => m
  | .stop m => m
  | .fail _ m => m

namespace Machine

variable {env : Setting} {m m' : Machine} {chunk : Chunk}

/-- A conditional that does not go on fails where it stands. -/
theorem branch_cases (m : Machine) (kind : Branch) :
    (∃ m', m.branch kind = .next m') ∨ ∃ error, m.branch kind = .fail error m := by
  have hopening : ∀ wanted,
      (∃ m', m.openGroup wanted = .next m') ∨ ∃ error, m.openGroup wanted = .fail error m := by
    intro wanted
    unfold openGroup
    split
    · split
      · exact Or.inr ⟨_, rfl⟩
      · exact Or.inl ⟨_, rfl⟩
    · exact Or.inl ⟨_, rfl⟩
  cases kind with
  | ifTrue => exact hopening true
  | ifFalse => exact hopening false
  | otherwise | endIf =>
    unfold branch
    dsimp only
    split
    · exact Or.inr ⟨_, rfl⟩
    · exact Or.inl ⟨_, rfl⟩

theorem open_of_turn (h : m.visit env (.branch .otherwise) = .next m') :
    ∃ on outer, m.conditions = on :: outer ∧ m'.conditions = (!on) :: outer := by
  cases hopen : m.conditions with
  | nil =>
    rw [visit_branch] at h
    simp only [branch, hopen] at h
    cases h
  | cons on outer =>
    rw [visit_otherwise hopen] at h
    cases h
    exact ⟨on, outer, rfl, rfl⟩

theorem open_of_end (h : m.visit env (.branch .endIf) = .next m') :
    ∃ on, m.conditions = on :: m'.conditions := by
  cases hopen : m.conditions with
  | nil =>
    rw [visit_branch] at h
    simp only [branch, hopen] at h
    cases h
  | cons on outer =>
    rw [visit_endIf hopen] at h
    cases h
    exact ⟨on, rfl⟩

/-- Executed or skipped, a chunk changes the number of open conditionals by the same. -/
theorem length_conditions_of_visit (h : m.visit env chunk = .next m') :
    (m'.conditions.length : Int) = m.conditions.length + chunk.rise := by
  cases chunk.role with
  | plain hplain =>
    rw [(m.kept_of_visit env hplain h).1, Chunk.rise_of_plain hplain, Int.add_zero]
  | opens wanted =>
    obtain ⟨on, hopened⟩ := opened_of_visit h
    rw [hopened, List.length_cons, Chunk.rise_opening]
    omega
  | turns =>
    obtain ⟨on, outer, hopen, hturned⟩ := open_of_turn h
    rw [hopen, hturned, Chunk.rise_otherwise, List.length_cons, List.length_cons, Int.add_zero]
  | ends =>
    obtain ⟨on, hopen⟩ := open_of_end h
    rw [hopen, List.length_cons, Chunk.rise_endIf]
    omega

/-- A visit that ends the run leaves the machine at the chunk, and the conditionals as
they were. -/
theorem kept_of_ended (env : Setting) (m : Machine) (chunk : Chunk)
    (hended : ∀ m', m.visit env chunk ≠ .next m') :
    (m.visit env chunk).machine.conditions = m.conditions ∧
      (m.visit env chunk).machine.position = m.position := by
  have hbranch : ∀ kind, (∀ m', m.visit env (.branch kind) ≠ .next m') →
      (m.visit env (.branch kind)).machine.conditions = m.conditions ∧
        (m.visit env (.branch kind)).machine.position = m.position := by
    intro kind hended
    rw [visit_branch] at hended ⊢
    rcases branch_cases { m with opCount := m.opCount + 1 } kind with ⟨m', hnext⟩ | ⟨error, hfail⟩
    · exact absurd hnext (hended m')
    · rw [hfail]
      exact ⟨rfl, rfl⟩
  cases chunk.role with
  | opens wanted => exact hbranch _ hended
  | turns => exact hbranch _ hended
  | ends => exact hbranch _ hended
  | plain hplain =>
    unfold visit
    split
    · rw [(m.tally chunk).step_eq_placed env hplain, tally_conditions, tally_position]
      cases (m.tally chunk).step env chunk <;> exact ⟨rfl, rfl⟩
    · exact ⟨rfl, rfl⟩

/-! ### The opcode that stops -/

theorem onStack_ne_stop (m : Machine) (operation : Stack → Popped) (m' : Machine) :
    m.onStack operation ≠ .stop m' := by
  unfold onStack
  cases operation m.stack <;> nofun

theorem conclude_ne_stop (m : Machine) (thenVerify success : Bool) (m' : Machine) :
    m.conclude thenVerify success ≠ .stop m' := by
  unfold conclude
  split <;> nofun

theorem checkSig_ne_stop (env : Setting) (m : Machine) (thenVerify : Bool) (m' : Machine) :
    m.checkSig env thenVerify ≠ .stop m' := by
  unfold checkSig
  split
  · split
    · nofun
    · split
      · nofun
      · exact conclude_ne_stop _ _ _ _
  · nofun

theorem checkMultiSig_ne_stop (env : Setting) (m : Machine) (thenVerify : Bool) (m' : Machine) :
    m.checkMultiSig env thenVerify ≠ .stop m' := by
  unfold checkMultiSig
  dsimp only
  split
  · nofun
  · split
    · nofun
    · split
      · nofun
      · split
        · nofun
        · nofun
        · split
          · nofun
          · split
            · nofun
            · split
              · nofun
              · exact conclude_ne_stop _ _ _ _

theorem exec_eq_stop {code : Opcode} (h : m.exec env code = .stop m') : code = .ret ∧ m' = m := by
  cases code with
  | ret =>
    cases h
    exact ⟨rfl, rfl⟩
  | branch kind =>
    rcases m.branch_cases kind with ⟨_, hnext⟩ | ⟨_, hfail⟩
    · cases hnext.symm.trans h
    · cases hfail.symm.trans h
  | zero | negativeOne | small _ | pushData _ => cases h
  | toAlt =>
    unfold exec toAlt at h
    dsimp only at h
    split at h <;> cases h
  | fromAlt =>
    unfold exec fromAlt at h
    dsimp only at h
    split at h <;> cases h
  | checkSig => exact absurd h (checkSig_ne_stop env m false m')
  | checkSigVerify => exact absurd h (checkSig_ne_stop env m true m')
  | checkMultiSig => exact absurd h (checkMultiSig_ne_stop env m false m')
  | checkMultiSigVerify => exact absurd h (checkMultiSig_ne_stop env m true m')
  | checkLockAbs =>
    unfold exec checkLockAbs at h
    dsimp only at h
    repeat' split at h
    all_goals cases h
  | checkLockRel =>
    unfold exec checkLockRel at h
    dsimp only at h
    repeat' split at h
    all_goals cases h
  | depth => exact absurd h (m.onStack_ne_stop Stack.depth m')
  | _ => exact absurd h (m.onStack_ne_stop _ m')

/-- Only one opcode stops a run, and only where it is executed. The machine it leaves has
counted it and is otherwise as it was. -/
theorem visit_eq_stop (h : m.visit env chunk = .stop m') :
    (∃ noData, chunk = .op .ret noData) ∧ m.isExecuting = true ∧ m' = m.tally chunk := by
  unfold visit at h
  split at h
  · rename_i hvisited
    cases chunk with
    | op code noData =>
      obtain ⟨rfl, rfl⟩ := exec_eq_stop h
      refine ⟨⟨noData, rfl⟩, ?_, rfl⟩
      simpa [Chunk.isBranch] using hvisited
    | unknown _ _ | push _ _ => cases h
  · cases h

/-! ## The invariant -/

/-- As many conditionals are open as the chunks behind the machine leave open. -/
structure Level (env : Setting) (m : Machine) : Prop where
  position_le : m.position ≤ env.script.chunks.length
  height_eq : (m.conditions.length : Int) = Script.height (env.script.chunks.take m.position)

namespace Level

variable {rest : List Chunk}

theorem start (env : Setting) (stack : Stack) (cache : SighashCache) :
    Level env (Evaluation.start stack cache).machine :=
  ⟨Nat.zero_le _, rfl⟩

/-- The chunk that was visited moves from the chunks ahead to those behind, and the list of
open conditionals changes by what that chunk is. -/
theorem next (h : Level env m) (hat : env.script.chunks.drop m.position = chunk :: rest)
    (hvisit : m.visit env chunk = .next m') :
    Level env m'.advance ∧ env.script.chunks.drop m'.advance.position = rest := by
  have hposition : m'.advance.position = m.position + 1 :=
    congrArg (· + 1) (position_of_visit hvisit)
  have hlength : m.position + 1 ≤ env.script.chunks.length := by
    have := congrArg List.length hat
    rw [List.length_drop, List.length_cons] at this
    omega
  have htake : env.script.chunks.take (m.position + 1) =
      env.script.chunks.take m.position ++ [chunk] := by
    rw [List.take_add_one, ← List.head?_drop, hat]
    rfl
  refine ⟨⟨hposition ▸ hlength, ?_⟩, ?_⟩
  · rw [hposition, htake, Script.height_concat, ← h.height_eq, advance_conditions,
      length_conditions_of_visit hvisit]
  · rw [hposition, ← List.tail_drop, hat, List.tail_cons]

/-- A visit that ends the run, by a failure or a stop, has not changed the list. -/
theorem ended (h : Level env m) (chunk : Chunk) (hended : ∀ m', m.visit env chunk ≠ .next m') :
    Level env (m.visit env chunk).machine := by
  obtain ⟨hconditions, hposition⟩ := m.kept_of_ended env chunk hended
  exact ⟨hposition ▸ h.position_le, hposition ▸ hconditions ▸ h.height_eq⟩

/-- Behind any front part of what is left of the script. -/
theorem visitAll : ∀ {front back : List Chunk} {m m' : Machine}, Level env m →
    env.script.chunks.drop m.position = front ++ back → m.visitAll env front = .next m' →
      Level env m'
  | [], _, _, _, h, _, hvisit => by
      cases hvisit
      exact h
  | chunk :: front, back, m, m', h, hat, hvisit => by
      obtain ⟨m₁, hfirst, hrest⟩ := visitAll_cons_eq_next hvisit
      obtain ⟨h₁, hat₁⟩ := h.next hat hfirst
      exact visitAll h₁ hat₁ hrest

/-- Where the run of what is left of the script ends, also by an error. -/
theorem runFrom : ∀ {rest : List Chunk} {m : Machine}, Level env m →
    env.script.chunks.drop m.position = rest → Level env (UtxoLedger.runFrom env rest m).1
  | [], m, h, _ => h
  | chunk :: rest, m, h, hat => by
      rw [UtxoLedger.runFrom]
      have hended := h.ended chunk
      cases hvisit : m.visit env chunk with
      | next m' =>
        obtain ⟨h', hat'⟩ := h.next hat hvisit
        exact runFrom h' hat'
      | stop m' | fail error m' =>
        rw [hvisit] at hended
        refine hended fun next hnext => ?_
        cases hnext

end Level

/-! ## Runs that come to the end -/

/-- A run to a place where nothing is open closes what is open at its start. -/
theorem closes_of_visitAll : ∀ {chunks : List Chunk} {m m' : Machine},
    m.visitAll env chunks = .next m' → m'.conditions = [] →
      Script.Closes m.conditions.length chunks
  | [], m, m', h, hclosed => by
      cases h
      rw [hclosed]
      exact .nil
  | chunk :: rest, m, m', h, hclosed => by
      obtain ⟨m₁, hvisit, hrest⟩ := visitAll_cons_eq_next h
      have ih := closes_of_visitAll hrest hclosed
      rw [advance_conditions] at ih
      -- by the role of the chunk, as the grammar of what is closed has it
      cases chunk.role with
      | plain hplain =>
        rw [(m.kept_of_visit env hplain hvisit).1] at ih
        exact .plain hplain ih
      | opens wanted =>
        obtain ⟨on, hopened⟩ := opened_of_visit hvisit
        rw [hopened] at ih
        exact .opens wanted ih
      | turns =>
        obtain ⟨on, outer, hopen, hturned⟩ := open_of_turn hvisit
        rw [hturned] at ih
        rw [hopen]
        exact .turns ih
      | ends =>
        obtain ⟨on, hopen⟩ := open_of_end hvisit
        rw [hopen]
        exact .ends ih

/-- A run without an error came to the end with nothing open, or executed the opcode that
stops. -/
theorem ends_of_runFrom : ∀ {chunks : List Chunk} {m : Machine},
    (runFrom env chunks m).2 = none →
      (m.visitAll env chunks = .next (runFrom env chunks m).1 ∧
        (runFrom env chunks m).1.conditions = []) ∨
      ∃ noData met, Executes env chunks m (.op .ret noData) met ∧
        (runFrom env chunks m).1 = met.tally (.op .ret noData)
  | [], m, h => by
      refine Or.inl ⟨rfl, ?_⟩
      rw [runFrom] at h ⊢
      simpa using h
  | chunk :: rest, m, h => by
      rw [runFrom] at h ⊢
      rw [visitAll]
      cases hvisit : m.visit env chunk with
      | next m' =>
        rw [hvisit] at h
        rcases ends_of_runFrom h with hend | ⟨noData, met, hmet, hleft⟩
        · exact Or.inl hend
        · exact Or.inr ⟨noData, met, .later hvisit hmet, hleft⟩
      -- only one opcode stops, and the run ends right behind it
      | stop m' =>
        obtain ⟨⟨noData, rfl⟩, hon, rfl⟩ := visit_eq_stop hvisit
        exact Or.inr ⟨noData, m, .here hon, rfl⟩
      | fail error m' =>
        rw [hvisit] at h
        cases h

end Machine

theorem Executes.position_lt {env : Setting} {chunks : List Chunk} {m s : Machine} {chunk : Chunk}
    (h : Executes env chunks m chunk s) : s.position < m.position + chunks.length := by
  induction h with
  | here hon =>
    rw [List.length_cons]
    omega
  | later hvisit _ ih =>
    dsimp only at ih
    rw [Machine.position_of_visit hvisit] at ih
    rw [List.length_cons]
    omega

/-! ## Evaluations -/

namespace Evaluation

/-- The evaluation after a number of runs, each of which goes on where the one before
ended. -/
def after (env : Setting) (e : Evaluation) : (runs : Nat) → Evaluation
  | 0 => e
  | runs + 1 => (e.after env runs).run env

/-- A machine that the next run comes through: the one at its start or behind one of its
chunks, or the one where it ends. -/
inductive Meets (env : Setting) (e : Evaluation) : Machine → Prop where
  | behind {front back : List Chunk} {m : Machine}
    (hat : env.script.chunks.drop e.machine.position = front ++ back)
    (hvisit : e.machine.visitAll env front = .next m) : Meets env e m
  | atEnd : Meets env e (e.run env).machine

variable {env : Setting} {e : Evaluation}

/-- So the invariant holds wherever a run comes by, also one that goes on from an earlier
run. -/
theorem level_of_meets (h : Machine.Level env e.machine) {m : Machine} (hmeets : e.Meets env m) :
    Machine.Level env m := by
  cases hmeets with
  | behind hat hvisit => exact h.visitAll hat hvisit
  | atEnd => exact h.runFrom rfl

theorem level_after (env : Setting) (stack : Stack) (cache : SighashCache) : ∀ runs : Nat,
    Machine.Level env ((start stack cache).after env runs).machine
  | 0 => .start env stack cache
  | runs + 1 => level_of_meets (level_after env stack cache runs) .atEnd

/-- A run without an error has come to the end of nested groups, or was stopped before. -/
theorem ends_of_run {stack : Stack} {cache : SighashCache}
    (h : ((start stack cache).run env).error = none) :
    Script.Balanced env.script.chunks ∨
      ∃ noData met,
        Executes env env.script.chunks (start stack cache).machine (.op .ret noData) met ∧
          ((start stack cache).run env).machine = met.tally (.op .ret noData) := by
  obtain ⟨final, failure, hrun, heval⟩ := run_start env stack cache
  rw [heval] at h ⊢
  obtain rfl : failure = none := h
  have hends := @Machine.ends_of_runFrom env env.script.chunks (start stack cache).machine
  rw [hrun] at hends
  rcases hends rfl with ⟨hend, hclosed⟩ | hstopped
  · exact Or.inl (Machine.closes_of_visitAll hend hclosed).balanced
  · exact Or.inr hstopped

/-- **Unbalanced scripts fail closed.** At every moment of every run as many conditionals
are open as chunks behind the machine open one, less those that end one. An evaluation that
comes to the end of a script without an error therefore has a script of nested groups; of
any other script, on whatever stack, it ends by an error or where it executes the opcode
that stops. -/
theorem unbalanced_fails_closed (env : Setting) (stack : Stack) (cache : SighashCache) :
    (∀ runs m, ((start stack cache).after env runs).Meets env m →
      m.position ≤ env.script.chunks.length ∧
        (m.conditions.length : Int) = Script.height (env.script.chunks.take m.position)) ∧
    (((start stack cache).run env).error = none →
      ((start stack cache).run env).machine.position = env.script.chunks.length →
        Script.Balanced env.script.chunks) ∧
    (¬ Script.Balanced env.script.chunks →
      (∃ error, ((start stack cache).run env).error = some error) ∨
        ∃ noData met,
          Executes env env.script.chunks (start stack cache).machine (.op .ret noData) met ∧
            ((start stack cache).run env).machine = met.tally (.op .ret noData)) := by
  refine ⟨fun runs m hmeets => ?_, fun herror hposition => ?_, fun hunbalanced => ?_⟩
  · have hlevel := level_of_meets (level_after env stack cache runs) hmeets
    exact ⟨hlevel.position_le, hlevel.height_eq⟩
  · rcases ends_of_run herror with hbalanced | ⟨noData, met, hmet, hleft⟩
    · exact hbalanced
    · have hbefore : met.position < 0 + env.script.chunks.length := hmet.position_lt
      rw [hleft, Machine.tally_position] at hposition
      omega
  · cases herror : ((start stack cache).run env).error with
    | some error => exact Or.inl ⟨error, rfl⟩
    | none => exact Or.inr ((ends_of_run herror).resolve_left hunbalanced)

/-! ### A group that is not ended

On a true item the script stops inside the group. On a false one it comes to its end, with
the group open. -/

namespace UnbalancedSample

def setting : Setting :=
  ⟨⟨[.branch .ifTrue, .op .ret rfl, .branch .otherwise]⟩, ⟨0, [], [], 0⟩, 0, 0⟩

/-- The opening is never ended: the height is one, and that of balanced chunks is zero. -/
theorem unbalanced : ¬ Script.Balanced setting.script.chunks := by
  intro h
  exact absurd h.height_eq_zero (by decide)

end UnbalancedSample

open UnbalancedSample in
/-- A true item leads to the opcode that stops, a false one past it to the end of the
script. -/
theorem unbalanced_fails_closed_sample :
    ¬ Script.Balanced setting.script.chunks ∧
      (∃ noData met,
        Executes setting setting.script.chunks (start [[1]] .empty).machine (.op .ret noData) met ∧
          ((start [[1]] .empty).run setting).machine = met.tally (.op .ret noData)) ∧
      ∃ error, ((start [[]] .empty).run setting).error = some error := by
  obtain ⟨-, -, htrue⟩ := unbalanced_fails_closed setting [[1]] .empty
  obtain ⟨-, hended, -⟩ := unbalanced_fails_closed setting [[]] .empty
  refine ⟨unbalanced, (htrue unbalanced).resolve_left ?_, ?_⟩
  · rintro ⟨error, herror⟩
    have hnone : ((start [[1]] .empty).run setting).error = none := by decide
    cases hnone.symm.trans herror
  · cases herror : ((start [[]] .empty).run setting).error with
    | some error => exact ⟨error, rfl⟩
    | none => exact absurd (hended herror (by decide)) unbalanced

end Evaluation

end UtxoLedger
