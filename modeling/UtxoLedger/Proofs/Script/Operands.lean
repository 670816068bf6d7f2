/-
UtxoLedger.Proofs.Script.Operands — an opcode that lacks operands says so and takes none.

`Opcode.operands?` lists how many items each opcode needs on the stack, for the opcodes that
need a number of items that is the same whatever the items are. Each operation on the stack
alone is given its number by `Stack.Needs`: a shorter stack it leaves as it is, and from a
stack of that length it takes something before it refuses it. The number of a rearrangement
differs from member to member (`Shuffle.isSome_apply_iff`), and there it is the only
condition. So the list is exact: an opcode refuses a stack as it is if and only if there are
fewer items on it (`Machine.exec_eq_missing_iff`).

What an opcode refuses ends the run, wherever in the script it is executed
(`Executes.runFrom_of_fail`), and `Evaluation.FailsAsFound` is what the evaluation then shows.
-/
import UtxoLedger.Proofs.Script.Executed

namespace UtxoLedger

/-! ## How many items an opcode needs -/

def Shuffle.operands : Shuffle → Nat
  | .drop | .dup => 1
  | .drop2 | .dup2 | .nip | .over | .swap | .tuck => 2
  | .dup3 | .rot => 3
  | .over2 | .swap2 => 4
  | .rot2 => 6

namespace Opcode

/-- The number of items that must be on the stack, if it does not depend on them and is not
zero. An item at a depth that the top gives needs only the top for this. -/
def operands? : Opcode → Option Nat
  | .shuffle kind => some kind.operands
  | .verify | .toAlt | .dupIfTrue | .pick | .roll | .size | .invert | .unary _
  | .blake3 | .doubleBlake3 | .checkLockAbs | .checkLockRel => some 1
  | .cat | .left | .right | .bitwise _ | .equal | .equalVerify | .binary _ | .numEqualVerify
  | .checkSig | .checkSigVerify => some 2
  | .substr | .within => some 3
  | .zero | .pushData _ | .negativeOne | .small _ | .branch _ | .ret | .fromAlt | .depth
  | .checkMultiSig | .checkMultiSigVerify => none

/-- Whether the opcode only moves or copies items at fixed depths. -/
def movesOnly : Opcode → Bool
  | .shuffle _ | .dupIfTrue | .toAlt => true
  | _ => false

/-- No opcode of the list needs nothing, and none needs more than the three pairs of the
longest rotation. -/
theorem operands?_range {code : Opcode} {k : Nat} (h : code.operands? = some k) :
    1 ≤ k ∧ k ≤ 6 := by
  cases code with
  | shuffle kind =>
    cases h
    cases kind <;> decide
  | _ =>
    cases h <;> decide

end Opcode

/-! ## Operations on the stack -/

/-- The operation gives a stack, or it has taken operands off the one it was given. -/
def Popped.Takes (s : Stack) : Popped → Prop
  | .ok _ => True
  | .fail _ left => left.length < s.length

namespace Popped

variable {s : Stack} {error : ScriptError}

/-- A refusal that has taken one item. -/
theorem takes_one (a : Bytes) : (fail error s).Takes (a :: s) :=
  Nat.lt_add_of_pos_right (by decide)

theorem takes_two (b a : Bytes) : (fail error s).Takes (b :: a :: s) :=
  Nat.lt_add_of_pos_right (n := s.length) (k := 2) (by decide)

theorem takes_three (c b a : Bytes) : (fail error s).Takes (c :: b :: a :: s) :=
  Nat.lt_add_of_pos_right (n := s.length) (k := 3) (by decide)

end Popped

/-- There is nothing else that a rearrangement could object to. The cases are the lengths up
to the largest number of operands. -/
theorem Shuffle.isSome_apply_iff (kind : Shuffle) (s : Stack) :
    (kind.apply s).isSome = true ↔ kind.operands ≤ s.length := by
  cases kind <;> rcases s with _ | ⟨_, _ | ⟨_, _ | ⟨_, _ | ⟨_, _ | ⟨_, _ | ⟨_, s⟩⟩⟩⟩⟩⟩ <;>
    simp [apply, operands]

namespace Stack

/-- The operation needs `k` items and no more. -/
structure Needs (k : Nat) (operation : Stack → Popped) : Prop where
  /-- A shorter stack is left as it is. -/
  few {s : Stack} (h : s.length < k) : operation s = missing s
  takes {s : Stack} (h : k ≤ s.length) : (operation s).Takes s

namespace Needs

variable {operation : Stack → Popped}

/-- One operand: the empty stack is refused, any other loses its top before it is refused. -/
theorem one (hnil : operation [] = missing [])
    (hcons : ∀ a s, (operation (a :: s)).Takes (a :: s)) : Needs 1 operation where
  few {s} h := by
    obtain rfl : s = [] := List.length_eq_zero_iff.mp (Nat.lt_one_iff.mp h)
    exact hnil
  takes {s} h := by
    obtain ⟨a, s, rfl⟩ := List.exists_cons_of_length_pos h
    exact hcons a s

/-- Two operands: the short stacks are the empty one and those of one item. -/
theorem two (hnil : operation [] = missing []) (hone : ∀ b, operation [b] = missing [b])
    (hcons : ∀ b a s, (operation (b :: a :: s)).Takes (b :: a :: s)) : Needs 2 operation where
  few {s} h := by
    rcases s with _ | ⟨b, _ | ⟨a, s⟩⟩
    · exact hnil
    · exact hone b
    · simp only [List.length_cons] at h
      omega
  takes {s} h := by
    rcases s with _ | ⟨b, _ | ⟨a, s⟩⟩
    · simp at h
    · simp at h
    · exact hcons b a s

/-- Three operands: the short stacks are those of up to two items. -/
theorem three (hnil : operation [] = missing []) (hone : ∀ c, operation [c] = missing [c])
    (htwo : ∀ c b, operation [c, b] = missing [c, b])
    (hcons : ∀ c b a s, (operation (c :: b :: a :: s)).Takes (c :: b :: a :: s)) :
    Needs 3 operation where
  few {s} h := by
    rcases s with _ | ⟨c, _ | ⟨b, _ | ⟨a, s⟩⟩⟩
    · exact hnil
    · exact hone c
    · exact htwo c b
    · simp only [List.length_cons] at h
      omega
  takes {s} h := by
    rcases s with _ | ⟨c, _ | ⟨b, _ | ⟨a, s⟩⟩⟩
    · simp at h
    · simp at h
    · simp at h
    · exact hcons c b a s

end Needs

/-! ### Rearrangements -/

/-- With its operands there, a rearrangement does not fail. -/
theorem shuffle_of_le {kind : Shuffle} {s : Stack} (h : kind.operands ≤ s.length) :
    ∃ s', shuffle kind s = .ok s' := by
  obtain ⟨s', happly⟩ := Option.isSome_iff_exists.mp ((kind.isSome_apply_iff s).mpr h)
  exact ⟨s', by rw [shuffle, happly]⟩

theorem needs_shuffle (kind : Shuffle) : Needs kind.operands (shuffle kind) where
  few {s} h := by
    have hnone : kind.apply s = none := by
      rw [← Option.not_isSome_iff_eq_none, kind.isSome_apply_iff]
      exact Nat.not_le.mpr h
    rw [shuffle, hnone]
  takes h := by
    obtain ⟨s', hs'⟩ := shuffle_of_le h
    rw [hs']
    trivial

theorem dupIfTrue_of_cons (a : Bytes) (s : Stack) : ∃ s', dupIfTrue (a :: s) = .ok s' := by
  unfold dupIfTrue
  dsimp only
  split
  · exact ⟨_, rfl⟩
  · exact ⟨_, rfl⟩

theorem needs_dupIfTrue : Needs 1 dupIfTrue :=
  .one rfl fun a s => by
    obtain ⟨s', hs'⟩ := dupIfTrue_of_cons a s
    rw [hs']
    trivial

/-- Only the depth is needed. If there is no item at that depth, the depth has been taken
already, so the refusal can be told from one for want of an operand. -/
theorem needs_pick : Needs 1 pick :=
  .one rfl fun a s => by
    rcases depth_cases (a :: s) with h | ⟨n, rest, h, -, hpick, -⟩ | ⟨n, front, _, back, h, hcount⟩
    · cases h
    · cases h
      rw [hpick]
      exact Popped.takes_one a
    · rw [h, pick_of_count hcount]
      trivial

/-- As for a copy: a depth beyond the stack is refused when it is taken. -/
theorem needs_roll : Needs 1 roll :=
  .one rfl fun a s => by
    rcases depth_cases (a :: s) with h | ⟨n, rest, h, -, -, hroll⟩ | ⟨n, front, _, back, h, hcount⟩
    · cases h
    · cases h
      rw [hroll]
      exact Popped.takes_one a
    · rw [h, roll_of_count hcount]
      trivial

/-! ### Operations that refuse some of their operands -/

theorem needs_verify : Needs 1 verify :=
  .one rfl fun a s => by
    unfold verify
    dsimp only
    split
    · trivial
    · exact Popped.takes_one a

theorem needs_left : Needs 2 left :=
  .two rfl (fun _ => rfl) fun length data s => by
    unfold left
    dsimp only
    cases Number.toCount? (Number.decode length) with
    | none => exact Popped.takes_two length data
    | some n =>
      dsimp only
      split
      · trivial
      · exact Popped.takes_two length data

theorem needs_right : Needs 2 right :=
  .two rfl (fun _ => rfl) fun length data s => by
    unfold right
    dsimp only
    cases Number.toCount? (Number.decode length) with
    | none => exact Popped.takes_two length data
    | some n =>
      dsimp only
      split
      · trivial
      · exact Popped.takes_two length data

theorem needs_bitwise (kind : Bitwise) : Needs 2 (bitwise kind) :=
  .two rfl (fun _ => rfl) fun b a s => by
    unfold bitwise
    dsimp only
    split
    · trivial
    · exact Popped.takes_two b a

theorem needs_equalVerify : Needs 2 equalVerify :=
  .two rfl (fun _ => rfl) fun b a s => by
    unfold equalVerify
    dsimp only
    split
    · trivial
    · exact Popped.takes_two b a

theorem needs_binary (kind : Binary) : Needs 2 (binary kind) :=
  .two rfl (fun _ => rfl) fun b a s => by
    unfold binary
    dsimp only
    split
    · trivial
    · exact Popped.takes_two b a

theorem needs_numEqualVerify : Needs 2 numEqualVerify :=
  .two rfl (fun _ => rfl) fun b a s => by
    unfold numEqualVerify
    dsimp only
    split
    · trivial
    · exact Popped.takes_two b a

/-- Both counts are taken before they are found to be out of range. -/
theorem needs_substr : Needs 3 substr :=
  .three rfl (fun _ => rfl) (fun _ _ => rfl) fun length start data s => by
    unfold substr
    dsimp only
    split
    · split
      · trivial
      · exact Popped.takes_three length start data
    · exact Popped.takes_three length start data

end Stack

/-! ## Opcodes -/

namespace Machine

variable {env : Setting} {m : Machine} {code : Opcode} {k : Nat}

/-- What an operation on the stack alone leaves of the machine. -/
theorem onStack_ok {operation : Stack → Popped} {s : Stack} (h : operation m.stack = .ok s) :
    m.onStack operation = .next { m with stack := s } := by
  rw [onStack, h]

/-- The refusal of too short a stack is the only one that leaves the stack as it was. This
is where it counts that any other refusal has taken something. -/
theorem onStack_eq_missing_iff {operation : Stack → Popped} (h : Stack.Needs k operation) :
    m.onStack operation = .fail .invalidStackOperation m ↔ m.stack.length < k := by
  refine ⟨fun hfail => Nat.not_le.mp fun hle => ?_, fun hlt => ?_⟩
  · unfold onStack at hfail
    have htakes := h.takes hle
    cases hs : operation m.stack with
    | ok s =>
      rw [hs] at hfail
      cases hfail
    | fail error s =>
      rw [hs] at hfail htakes
      have hstack : s = m.stack := congrArg stack (Visit.fail.inj hfail).2
      exact Nat.lt_irrefl _ (hstack ▸ htakes)
  · rw [onStack, h.few hlt]
    rfl

theorem toAlt_eq_missing_iff :
    m.toAlt = .fail .invalidStackOperation m ↔ m.stack.length < 1 := by
  obtain ⟨_ | ⟨a, s⟩, alt, conditions, position, opCount, cache⟩ := m <;> simp [toAlt]

theorem checkLockAbs_eq_missing_iff :
    m.checkLockAbs env = .fail .invalidStackOperation m ↔ m.stack.length < 1 := by
  obtain ⟨_ | ⟨a, s⟩, alt, conditions, position, opCount, cache⟩ := m
  · simp [checkLockAbs]
  · simp only [checkLockAbs]
    split <;> simp

/-- A lock that is not reached is refused with another error, and so is a transaction
without the input. -/
theorem checkLockRel_eq_missing_iff :
    m.checkLockRel env = .fail .invalidStackOperation m ↔ m.stack.length < 1 := by
  obtain ⟨_ | ⟨a, s⟩, alt, conditions, position, opCount, cache⟩ := m
  · simp [checkLockRel]
  · simp only [checkLockRel]
    repeat' split
    all_goals simp

/-- A key or a signature of another size has an error of its own. -/
theorem checkSig_eq_missing_iff (thenVerify : Bool) :
    m.checkSig env thenVerify = .fail .invalidStackOperation m ↔ m.stack.length < 2 := by
  obtain ⟨_ | ⟨key, _ | ⟨sig, s⟩⟩, alt, conditions, position, opCount, cache⟩ := m
  · simp [checkSig]
  · simp [checkSig]
  · simp only [checkSig, conclude]
    repeat' split
    all_goals simp

/-- An opcode refuses the stack as it is if and only if there are too few items on it. -/
theorem exec_eq_missing_iff (env : Setting) (hk : code.operands? = some k) :
    m.exec env code = .fail .invalidStackOperation m ↔ m.stack.length < k := by
  cases code with
  | shuffle kind =>
    cases hk
    exact onStack_eq_missing_iff (Stack.needs_shuffle kind)
  | dupIfTrue =>
    cases hk
    exact onStack_eq_missing_iff Stack.needs_dupIfTrue
  | pick =>
    cases hk
    exact onStack_eq_missing_iff Stack.needs_pick
  | roll =>
    cases hk
    exact onStack_eq_missing_iff Stack.needs_roll
  | verify =>
    cases hk
    exact onStack_eq_missing_iff Stack.needs_verify
  | left =>
    cases hk
    exact onStack_eq_missing_iff Stack.needs_left
  | right =>
    cases hk
    exact onStack_eq_missing_iff Stack.needs_right
  | bitwise kind =>
    cases hk
    exact onStack_eq_missing_iff (Stack.needs_bitwise kind)
  | equalVerify =>
    cases hk
    exact onStack_eq_missing_iff Stack.needs_equalVerify
  | binary kind =>
    cases hk
    exact onStack_eq_missing_iff (Stack.needs_binary kind)
  | numEqualVerify =>
    cases hk
    exact onStack_eq_missing_iff Stack.needs_numEqualVerify
  | substr =>
    cases hk
    exact onStack_eq_missing_iff Stack.needs_substr
  -- these accept whatever items they find
  | size | invert | unary _ | blake3 | doubleBlake3 =>
    cases hk
    exact onStack_eq_missing_iff (.one rfl fun _ _ => trivial)
  | cat | equal =>
    cases hk
    exact onStack_eq_missing_iff (.two rfl (fun _ => rfl) fun _ _ _ => trivial)
  | within =>
    cases hk
    exact onStack_eq_missing_iff
      (.three rfl (fun _ => rfl) (fun _ _ => rfl) fun _ _ _ _ => trivial)
  | toAlt =>
    cases hk
    exact toAlt_eq_missing_iff
  | checkSig =>
    cases hk
    exact checkSig_eq_missing_iff false
  | checkSigVerify =>
    cases hk
    exact checkSig_eq_missing_iff true
  | checkLockAbs =>
    cases hk
    exact checkLockAbs_eq_missing_iff
  | checkLockRel =>
    cases hk
    exact checkLockRel_eq_missing_iff
  | _ => cases hk

/-- With as many items as it needs, an opcode that only moves items goes on. -/
theorem exec_of_enough (hmoves : code.movesOnly = true) (hk : code.operands? = some k)
    (h : k ≤ m.stack.length) : ∃ next, m.exec env code = .next next := by
  cases code with
  | shuffle kind =>
    cases hk
    obtain ⟨s, hs⟩ := Stack.shuffle_of_le h
    exact ⟨_, onStack_ok hs⟩
  | dupIfTrue =>
    cases hk
    obtain ⟨_ | ⟨a, s⟩, alt, conditions, position, opCount, cache⟩ := m
    · cases h
    · obtain ⟨s', hs'⟩ := Stack.dupIfTrue_of_cons a s
      exact ⟨_, onStack_ok hs'⟩
  | toAlt =>
    cases hk
    obtain ⟨_ | ⟨a, s⟩, alt, conditions, position, opCount, cache⟩ := m
    · cases h
    · exact ⟨_, rfl⟩
  | _ => cases hmoves

theorem fromAlt_nil (h : m.alt = []) : m.fromAlt = .fail .invalidStackOperation m := by
  rw [fromAlt, h]

/-- The main stack may be as short as it likes. -/
theorem fromAlt_of_ne_nil (h : m.alt ≠ []) : ∃ next, m.fromAlt = .next next := by
  obtain ⟨a, rest, halt⟩ := List.exists_cons_of_ne_nil h
  exact ⟨_, by rw [fromAlt, halt]⟩

/-- Counting an opcode changes nothing else. -/
theorem tally_eq (m : Machine) (chunk : Chunk) :
    m.tally chunk = { m with opCount := (m.tally chunk).opCount } := by
  unfold tally
  split <;> rfl

/-- A conditional that finds no item has an error of its own, and takes nothing either. -/
theorem openGroup_nil (hon : m.isExecuting = true) (hnil : m.stack = []) (wanted : Bool) :
    m.openGroup wanted = .fail .unbalancedConditional m := by
  rw [openGroup, if_pos hon, hnil]

end Machine

/-! ## The evaluation -/

namespace Evaluation

/-- The evaluation has failed, with the machine as the opcode found it, which it has counted.
What it returns is the top item that the opcode found. -/
structure FailsAsFound (e : Evaluation) (found : Machine) (error : ScriptError) : Prop where
  error_eq : e.error = some error
  success_eq : e.success = some false
  machine_eq : e.machine = { found with opCount := e.machine.opCount }
  returned_eq : e.returned = some (found.stack.headD [])

variable {env : Setting} {e : Evaluation} {code : Opcode} {noData : code.lengthWidth? = none}
  {m : Machine}

/-- A refusal of the machine as it was found is a failure of the whole run, wherever it
comes. -/
theorem failsAsFound_of_exec {error : ScriptError}
    (hmet : Executes env (env.script.chunks.drop e.machine.position) e.machine
      (.op code noData) m)
    (hexec : (m.tally (.op code noData)).exec env code = .fail error (m.tally (.op code noData))) :
    (e.run env).FailsAsFound m error := by
  have hrun := hmet.runFrom_of_fail hexec
  constructor <;> simp only [run, hrun]
  · rfl
  · exact m.tally_eq _
  · rw [Machine.tally_stack]

/-- **Missing operands are reported and harmless.** Wherever a run comes to execute an opcode
that needs `k` items, it refuses the machine as it is exactly if there are fewer, and the
evaluation then fails with both stacks as they were and returns the old top. An opcode that
only moves items goes on if they are there. The opcode that takes from the second stack does
likewise if that is empty, and so do those that open a conditional, with an error of their
own. -/
theorem missing_operands_are_harmless (env : Setting) (e : Evaluation) (code : Opcode)
    (noData : code.lengthWidth? = none) (m : Machine)
    (hmet : Executes env (env.script.chunks.drop e.machine.position) e.machine
      (.op code noData) m) :
    (∀ k, code.operands? = some k → 1 ≤ k ∧ k ≤ 6 ∧
      (m.stack.length < k → (e.run env).FailsAsFound m .invalidStackOperation) ∧
      (k ≤ m.stack.length →
        m.visit env (.op code noData) ≠
          .fail .invalidStackOperation (m.tally (.op code noData))) ∧
      (code.movesOnly = true → k ≤ m.stack.length →
        ∃ next, m.visit env (.op code noData) = .next next)) ∧
    (code = .fromAlt →
      (m.alt = [] → (e.run env).FailsAsFound m .invalidStackOperation) ∧
      (m.alt ≠ [] → ∃ next, m.visit env (.op code noData) = .next next)) ∧
    (code = .branch .ifTrue ∨ code = .branch .ifFalse → m.stack = [] →
      (e.run env).FailsAsFound m .unbalancedConditional) := by
  have hvisit : m.visit env (.op code noData) = (m.tally (.op code noData)).exec env code :=
    hmet.visit_eq
  have hstack : (m.tally (.op code noData)).stack = m.stack := m.tally_stack _
  refine ⟨fun k hk => ?_, ?_, ?_⟩
  · have hiff := (m.tally (.op code noData)).exec_eq_missing_iff env hk
    rw [hstack] at hiff
    obtain ⟨hpos, hle⟩ := Opcode.operands?_range hk
    refine ⟨hpos, hle, fun hlt => failsAsFound_of_exec hmet (hiff.mpr hlt), ?_, ?_⟩
    · intro henough hmissing
      exact Nat.not_lt.mpr henough (hiff.mp (hvisit ▸ hmissing))
    · intro hmoves henough
      rw [hvisit]
      exact Machine.exec_of_enough hmoves hk (hstack ▸ henough)
  · rintro rfl
    have halt : (m.tally (.op .fromAlt noData)).alt = m.alt := by rw [m.tally_eq]
    refine ⟨fun hnil => failsAsFound_of_exec hmet ?_, fun hcons => ?_⟩
    · exact Machine.fromAlt_nil (halt ▸ hnil)
    · rw [hvisit]
      exact Machine.fromAlt_of_ne_nil (halt ▸ hcons)
  · intro hopening hnil
    have hon : (m.tally (.op code noData)).isExecuting = true := by
      rw [Machine.isExecuting, Machine.tally_conditions]
      exact hmet.isExecuting_eq
    refine failsAsFound_of_exec hmet ?_
    rcases hopening with rfl | rfl
    · exact Machine.openGroup_nil hon (hstack.trans hnil) true
    · exact Machine.openGroup_nil hon (hstack.trans hnil) false

/-! ### Six items on the stack

Five are left for an opcode that needs six. -/

namespace OperandsSample

def chunks : List Chunk := [.op (.shuffle .drop) rfl, .op (.shuffle .rot2) rfl]

def setting : Setting := ⟨⟨chunks⟩, ⟨0, [], [], 0⟩, 0, 0⟩

def evaluation : Evaluation := start [[6], [5], [4], [3], [2], [1]] .empty

def found : Machine := ⟨[[5], [4], [3], [2], [1]], [], [], 1, 1, .empty⟩

theorem met :
    Executes setting (chunks.drop 0) evaluation.machine (.op (.shuffle .rot2) rfl) found :=
  .later rfl (.here rfl)

end OperandsSample

open OperandsSample in
/-- The rotation lacks one item. The five that are there stay. -/
theorem missing_operands_are_harmless_sample :
    (∃ next, evaluation.machine.visit setting (.op (.shuffle .drop) rfl) = .next next) ∧
      (evaluation.run setting).FailsAsFound found .invalidStackOperation ∧
        (evaluation.run setting).returned = some [5] := by
  obtain ⟨hdrop, -, -⟩ := missing_operands_are_harmless setting evaluation (.shuffle .drop) rfl
    evaluation.machine (.here rfl)
  obtain ⟨-, -, -, -, hnext⟩ := hdrop 1 rfl
  obtain ⟨hrot, -, -⟩ := missing_operands_are_harmless setting evaluation (.shuffle .rot2) rfl
    found met
  obtain ⟨-, -, hfew, -⟩ := hrot 6 rfl
  have hfails := hfew (by decide)
  exact ⟨hnext rfl (by decide), hfails, hfails.returned_eq⟩

end Evaluation

end UtxoLedger
