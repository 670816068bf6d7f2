/-
UtxoLedger.Proofs.Script.Truth — an item counts as true exactly if it is not zero.

A conditional looks for a byte that is not zero and arithmetic reads a number. The two
could part at the other spellings of zero and at the sign of a number, and they do not:
zero bytes write zero, however many there are, and all other bytes write something else
(`Number.decode_eq_zero_iff`). So an item may be put in its shortest form, negated or
compared with zero as a number, and what is then on the stack tells a conditional the same
as the item itself did.

The four statements about opcodes are of a machine at the opcode, under any conditionals
that are on. Where an opcode more is visited the machine is one further on and has counted
one more; this is all that differs.
-/
import UtxoLedger.Proofs.Script.NumberForms
import UtxoLedger.Proofs.Script.RunAgain

namespace UtxoLedger

/-! ## Items -/

namespace Number

theorem isTrue_eq (bs : Bytes) : isTrue bs = decide (decode bs ≠ 0) := by
  rw [Bool.eq_iff_iff, decide_eq_true_iff, ne_eq, decode_eq_zero_iff, isTrue, List.any_eq_true]
  simp

theorem isTrue_encode (z : Int) : isTrue (encode z) = decide (z ≠ 0) := by
  rw [isTrue_eq, decode_encode]

theorem ofBool_ne_zero_iff (b : Bool) : ofBool b ≠ 0 ↔ b = true := by
  cases b <;> decide

/-- Comparing with zero keeps the truth of an item. -/
theorem isTrue_encode_notZero (bs : Bytes) :
    isTrue (encode (Unary.notZero.apply (decode bs))) = isTrue bs := by
  rw [isTrue_encode, isTrue_eq, Unary.apply]
  simp [ofBool_ne_zero_iff]

/-- Negation turns the truth of an item over. -/
theorem isTrue_encode_not (bs : Bytes) :
    isTrue (encode (Unary.not.apply (decode bs))) = !isTrue bs := by
  rw [isTrue_encode, isTrue_eq, Unary.apply]
  simp [ofBool_ne_zero_iff]

end Number

/-! ## Opcodes -/

namespace Machine

variable {env : Setting} {m : Machine} {top : Bytes} {below : Stack}

/-- An opcode that works on the stack alone, where it is executed. -/
theorem visit_onStack (hon : m.isExecuting = true) {code : Opcode}
    {noData : code.lengthWidth? = none} {operation : Stack → Popped}
    (hcode : ∀ m : Machine, m.exec env code = m.onStack operation)
    (hcounted : lastUncounted < code.toByte) :
    m.visit env (.op code noData) = (m.countMore 1).onStack operation := by
  have htally : m.tally (.op code noData) = m.countMore 1 := if_pos hcounted
  rw [m.visit_of_executing _ env hon, htally]
  exact hcode _

theorem visit_unary (hon : m.isExecuting = true) (hstack : m.stack = top :: below) {kind : Unary}
    {noData : (Opcode.unary kind).lengthWidth? = none} :
    m.visit env (.op (.unary kind) noData) =
      .next { m with
        stack := Number.encode (kind.apply (Number.decode top)) :: below
        opCount := m.opCount + 1 } := by
  have hstack : (m.countMore 1).stack = top :: below := hstack
  rw [visit_onStack hon (fun _ => rfl) (by cases kind <;> decide), onStack, hstack]
  rfl

/-- What is zero is not verified. -/
theorem visit_verify (hon : m.isExecuting = true) (hstack : m.stack = top :: below)
    {noData : Opcode.verify.lengthWidth? = none} :
    m.visit env (.op .verify noData) =
      if Number.decode top = 0
      then .fail .verifyFailed { m with stack := below, opCount := m.opCount + 1 }
      else .next { m with stack := below, opCount := m.opCount + 1 } := by
  have hstack : (m.countMore 1).stack = top :: below := hstack
  rw [visit_onStack hon (fun _ => rfl) (by decide), onStack, hstack, Stack.verify, Number.isTrue_eq]
  by_cases hzero : Number.decode top = 0 <;> simp [hzero, countMore]

/-- What is not zero is duplicated. -/
theorem visit_dupIfTrue (hon : m.isExecuting = true) (hstack : m.stack = top :: below)
    {noData : Opcode.dupIfTrue.lengthWidth? = none} :
    m.visit env (.op .dupIfTrue noData) =
      .next { m with
        stack := if Number.decode top = 0 then top :: below else top :: top :: below
        opCount := m.opCount + 1 } := by
  have hstack : (m.countMore 1).stack = top :: below := hstack
  rw [visit_onStack hon (fun _ => rfl) (by decide), onStack, hstack, Stack.dupIfTrue,
    Number.isTrue_eq]
  by_cases hzero : Number.decode top = 0 <;> simp [hzero, countMore]

/-- A number is computed from the top, and a conditional looks at it. -/
theorem visitAll_unary_opening (hon : m.isExecuting = true) (hstack : m.stack = top :: below)
    {kind : Unary} {noData : (Opcode.unary kind).lengthWidth? = none} (wanted wanted' : Bool)
    (hsame : (Number.isTrue (Number.encode (kind.apply (Number.decode top))) == wanted) =
      (Number.isTrue top == wanted')) :
    m.visitAll env [.op (.unary kind) noData, .branch (.opening wanted)] =
      (m.visitAll env [.branch (.opening wanted')]).map fun m' => (m'.countMore 1).advance := by
  let computed : Machine :=
    { m with
      stack := Number.encode (kind.apply (Number.decode top)) :: below
      opCount := m.opCount + 1 }
  have hcomputed : computed.advance.isExecuting = true := hon
  rw [visitAll, visit_unary hon hstack]
  show visitAll env _ computed.advance = _
  rw [visitAll, visit_opening_on hcomputed rfl, hsame, visitAll, visit_opening_on hon hstack]
  rfl

/-- Verifying fails where negation would push one. -/
theorem verify_fails_iff (hon : m.isExecuting = true) (hstack : m.stack = top :: below)
    {noData : Opcode.verify.lengthWidth? = none}
    {noData' : (Opcode.unary .not).lengthWidth? = none} :
    (∃ error m', m.visit env (.op .verify noData) = .fail error m') ↔
      ∃ m', m.visit env (.op (.unary .not) noData') = .next m' ∧ m'.stack = [1] :: below := by
  rw [visit_verify hon hstack, visit_unary hon hstack, Unary.apply]
  by_cases hzero : Number.decode top = 0
  · have hone : Number.encode (Number.ofBool true) = [1] := by decide +kernel
    simp [hzero, hone]
  · have hnone : Number.encode (Number.ofBool false) = [] := rfl
    simp [hzero, beq_eq_false_iff_ne.mpr hzero, hnone]

/-- **What counts as true is what is not zero.** A byte string has a byte other than zero
exactly if the number that it writes is not zero. So on a stack with an item a conditional
takes the branch that it takes behind a comparison of the item with zero, and the inverted
conditional the one that a conditional takes behind a negation. Verifying fails exactly where
negation would push one, and an item is duplicated exactly if it is not zero as a number. -/
theorem truth_is_being_nonzero :
    (∀ bs, Number.isTrue bs = true ↔ Number.decode bs ≠ 0) ∧
      ∀ (env : Setting) (m : Machine) (top : Bytes) (below : Stack),
        m.isExecuting = true → m.stack = top :: below →
          m.visitAll env [.op (.unary .notZero) rfl, .branch .ifTrue] =
            (m.visitAll env [.branch .ifTrue]).map (fun m' => (m'.countMore 1).advance) ∧
          m.visitAll env [.op (.unary .not) rfl, .branch .ifTrue] =
            (m.visitAll env [.branch .ifFalse]).map (fun m' => (m'.countMore 1).advance) ∧
          ((∃ error m', m.visit env (.op .verify rfl) = .fail error m') ↔
            ∃ m', m.visit env (.op (.unary .not) rfl) = .next m' ∧ m'.stack = [1] :: below) ∧
          m.visit env (.op .dupIfTrue rfl) =
            .next { m with
              stack := if Number.decode top = 0 then top :: below else top :: top :: below
              opCount := m.opCount + 1 } := by
  refine ⟨fun bs => by rw [Number.isTrue_eq, decide_eq_true_iff], ?_⟩
  intro env m top below hon hstack
  refine ⟨?_, ?_, verify_fails_iff hon hstack, visit_dupIfTrue hon hstack⟩
  · refine visitAll_unary_opening hon hstack true true ?_
    rw [Number.isTrue_encode_notZero]
  · refine visitAll_unary_opening hon hstack true false ?_
    rw [Number.isTrue_encode_not]
    cases Number.isTrue top <;> rfl

/-! ### A long zero

The machine is inside a group that is on. The item is not the shortest form of zero. -/

namespace TruthSample

def setting : Setting := ⟨.empty, ⟨0, [], [], 0⟩, 0, 0⟩

def met : Machine := ⟨[[0, 0, 0], [7]], [], [true], 3, 1, .empty⟩

end TruthSample

open TruthSample in
theorem truth_is_being_nonzero_sample :
    met.isExecuting = true ∧ met.stack = [0, 0, 0] :: [[7]] ∧
      met.visitAll setting [.op (.unary .notZero) rfl, .branch .ifTrue] =
        .next ⟨[[7]], [], [false, true], 5, 3, .empty⟩ ∧
      met.visitAll setting [.op (.unary .not) rfl, .branch .ifTrue] =
        .next ⟨[[7]], [], [true, true], 5, 3, .empty⟩ ∧
      met.visit setting (.op .dupIfTrue rfl) =
        .next ⟨[[0, 0, 0], [7]], [], [true], 3, 2, .empty⟩ ∧
      ∃ m', met.visit setting (.op (.unary .not) rfl) = .next m' ∧ m'.stack = [[1], [7]] := by
  obtain ⟨-, hopcodes⟩ := truth_is_being_nonzero
  obtain ⟨hif, hnotIf, hverify, hdup⟩ := hopcodes setting met [0, 0, 0] [[7]] rfl rfl
  refine ⟨rfl, rfl, hif.trans (by decide), hnotIf.trans (by decide), hdup.trans ?_, ?_⟩
  · have hzero : Number.decode [0, 0, 0] = 0 := by decide +kernel
    rw [hzero]
    rfl
  · exact hverify.mp ⟨.verifyFailed, _, rfl⟩

end Machine

end UtxoLedger
