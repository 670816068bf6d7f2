/-
UtxoLedger.Proofs.Script.Steps — following a run chunk by chunk.

`runFrom` asks at each chunk whether the chunk is executed, counts it, executes
it and moves on. While no conditional is open every chunk is executed
(`runFrom_cons`). `Machine.Holds` keeps what the chunks of a script without
conditionals depend on, the stack and the cache, and leaves the position and the
count open: `Holds.push`, `Holds.onStack_ok` and `Holds.onStack_fail` lead from
the machine before a chunk to the machine behind it.

Two operations reach for an item at a depth that the script gives. `Stack.depth_cases`
says when it is there, and what is then above and below it.
-/
import UtxoLedger.Script.Evaluation

namespace UtxoLedger

/-! ## Items at a given depth -/

namespace Stack

/-- The stack cut at one of its items. -/
theorem exists_split {s : Stack} {i : Nat} {a : Bytes} (h : s[i]? = some a) :
    ∃ front back, s = front ++ a :: back ∧ front.length = i := by
  obtain ⟨hi, rfl⟩ := List.getElem?_eq_some_iff.mp h
  refine ⟨s.take i, s.drop (i + 1), ?_, ?_⟩
  · rw [List.getElem_cons_drop, List.take_append_drop]
  · rw [List.length_take, Nat.min_eq_left (Nat.le_of_lt hi)]

variable {n a : Bytes} {front back : Stack}

/-- The count is taken off before the items are counted, so the item is found at the depth
that is said. -/
theorem pick_of_count (h : Number.toCount? (Number.decode n) = some front.length) :
    pick (n :: (front ++ a :: back)) = .ok (a :: (front ++ a :: back)) := by
  simp [pick, h]

theorem roll_of_count (h : Number.toCount? (Number.decode n) = some front.length) :
    roll (n :: (front ++ a :: back)) = .ok (a :: (front ++ back)) := by
  simp [roll, h, List.eraseIdx_append]

/-- Both operations miss the item that the top asks for, or it is there, with as many items
above it as the top says. -/
theorem depth_cases : ∀ s : Stack, s = [] ∨
    (∃ n rest, s = n :: rest ∧
      (Number.toCount? (Number.decode n)).filter (decide <| · < rest.length) = none ∧
      pick s = missing rest ∧ roll s = missing rest) ∨
    ∃ n front a back, s = n :: (front ++ a :: back) ∧
      Number.toCount? (Number.decode n) = some front.length
  | [] => Or.inl rfl
  | n :: rest => by
      refine Or.inr ?_
      simp only [pick, roll]
      cases hcount : Number.toCount? (Number.decode n) with
      | none => exact Or.inl ⟨n, rest, rfl, by rw [hcount]; rfl, rfl, rfl⟩
      | some i =>
        dsimp only
        cases hitem : rest[i]? with
        | none =>
          -- an item that is not there is a count that is not below the length
          have hi : ¬ i < rest.length := Nat.not_lt.mpr (List.getElem?_eq_none_iff.mp hitem)
          refine Or.inl ⟨n, rest, rfl, ?_, rfl, rfl⟩
          rw [hcount, Option.filter_some, if_neg (by simpa using hi)]
        | some a =>
          obtain ⟨front, back, rfl, rfl⟩ := exists_split hitem
          exact Or.inr ⟨n, front, a, back, rfl, hcount⟩

end Stack

/-! ## Chunk by chunk -/

namespace Machine

variable (m : Machine) (chunk : Chunk)

/-! ## Counting -/

@[simp] theorem tally_stack : (m.tally chunk).stack = m.stack := by
  unfold tally
  split <;> rfl

@[simp] theorem tally_conditions : (m.tally chunk).conditions = m.conditions := by
  unfold tally
  split <;> rfl

@[simp] theorem tally_position : (m.tally chunk).position = m.position := by
  unfold tally
  split <;> rfl

@[simp] theorem tally_cache : (m.tally chunk).cache = m.cache := by
  unfold tally
  split <;> rfl

/-! ## Chunks that are executed -/

/-- While all conditionals are on, a chunk is executed. -/
theorem visit_of_executing (env : Setting) (hon : m.isExecuting = true) :
    m.visit env chunk = (m.tally chunk).step env chunk := by
  rw [visit, hon, Bool.true_or, if_pos rfl]

theorem visit_of_open (env : Setting) (hopen : m.conditions = []) :
    m.visit env chunk = (m.tally chunk).step env chunk :=
  m.visit_of_executing chunk env (by rw [isExecuting, hopen, List.all_nil])

end Machine

theorem runFrom_cons {env : Setting} {m : Machine} (chunk : Chunk) (rest : List Chunk)
    (hopen : m.conditions = []) :
    runFrom env (chunk :: rest) m =
      match (m.tally chunk).step env chunk with
      | .next m => runFrom env rest { m with position := m.position + 1 }
      | .stop m => (m, none)
      | .fail error m => (m, some error) := by
  have hvisit := m.visit_of_open chunk env hopen
  rw [runFrom]
  generalize m.visit env chunk = v at hvisit
  subst hvisit
  cases (m.tally chunk).step env chunk <;> rfl

namespace Machine

/-- The machine stands outside of conditionals, with this stack and this cache. -/
structure Holds (m : Machine) (stack : Stack) (cache : SighashCache) : Prop where
  stack_eq : m.stack = stack
  cache_eq : m.cache = cache
  conditions_eq : m.conditions = []

namespace Holds

variable {m : Machine} {s s' : Stack} {cache : SighashCache} (env : Setting) (rest : List Chunk)

theorem tally (h : m.Holds s cache) (chunk : Chunk) : (m.tally chunk).Holds s cache :=
  ⟨by simp [h.stack_eq], by simp [h.cache_eq], by simp [h.conditions_eq]⟩

theorem withStack (h : m.Holds s cache) (s' : Stack) :
    Holds { m with stack := s' } s' cache :=
  ⟨rfl, h.cache_eq, h.conditions_eq⟩

/-- Behind a chunk that goes on, the position apart. -/
theorem next {m' : Machine} (chunk : Chunk) (h : m.Holds s cache) (h' : m'.Holds s' cache)
    (hstep : (m.tally chunk).step env chunk = .next m') :
    ∃ m' : Machine, m'.Holds s' cache ∧ runFrom env (chunk :: rest) m = runFrom env rest m' := by
  refine ⟨{ m' with position := m'.position + 1 }, ?_, ?_⟩
  · exact ⟨h'.stack_eq, h'.cache_eq, h'.conditions_eq⟩
  · rw [runFrom_cons chunk rest h.conditions_eq, hstep]

theorem push (h : m.Holds s cache) (data : Bytes) (pushable : Pushable data) :
    ∃ m' : Machine, m'.Holds (data :: s) cache ∧
      runFrom env (.push data pushable :: rest) m = runFrom env rest m' := by
  refine next env rest _ h ?_ rfl
  have htally := h.tally (.push data pushable)
  exact ⟨congrArg (data :: ·) htally.stack_eq, htally.cache_eq, htally.conditions_eq⟩

variable (code : Opcode) {noData : code.lengthWidth? = none} (operation : Stack → Popped)

/-- An opcode that only works on the stack leaves what its operation leaves. -/
theorem onStack_ok (h : m.Holds s cache)
    (hcode : ∀ m : Machine, m.exec env code = m.onStack operation) (hok : operation s = .ok s') :
    ∃ m' : Machine, m'.Holds s' cache ∧
      runFrom env (.op code noData :: rest) m = runFrom env rest m' := by
  refine next env rest _ h ((h.tally (.op code noData)).withStack s') ?_
  rw [step, hcode, Machine.onStack, tally_stack, h.stack_eq, hok]

/-- If its operation fails, the run ends there with the same error. -/
theorem onStack_fail {error : ScriptError} (h : m.Holds s cache)
    (hcode : ∀ m : Machine, m.exec env code = m.onStack operation)
    (hfail : operation s = .fail error s') :
    ∃ m' : Machine, m'.Holds s' cache ∧
      runFrom env (.op code noData :: rest) m = (m', some error) := by
  refine ⟨_, (h.tally (.op code noData)).withStack s', ?_⟩
  rw [runFrom_cons _ rest h.conditions_eq, step, hcode, Machine.onStack, tally_stack, h.stack_eq,
    hfail]

end Holds

end Machine

end UtxoLedger
