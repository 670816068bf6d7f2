/-
UtxoLedger.Proofs.Script.Arithmetic — what division, shifts and comparison leave on the stack.

Numbers have no bound, so what an opcode leaves is the exact result in its shortest form
(`Machine.visit_binary`), and what there is to say is about integers. Division rounds toward
zero and a shift to the right rounds down, which is not the same below zero: `IsDivision` is
the law of the one, and the other is the floor.

An item is compared by its bytes and a number by its value, and of one number there are many
forms. What arithmetic leaves is the shortest (`Number.exists_encode_of_computed`), of which
there is one, so on such items the two comparisons agree.
-/
import Mathlib.Algebra.Ring.Int.Defs
import UtxoLedger.Proofs.Script.Pushes
import UtxoLedger.Proofs.Script.Truth

namespace UtxoLedger

/-! ## Integers -/

namespace Number

theorem pow2_eq (bits : Nat) : (pow2 bits : Int) = 2 ^ bits := by
  rw [pow2, Nat.one_shiftLeft, Int.natCast_pow]
  rfl

/-- Quotient and remainder of a division that rounds toward zero. -/
structure IsDivision (a b q r : Int) : Prop where
  eq : a = q * b + r
  natAbs_lt : r.natAbs < b.natAbs
  sign : r = 0 ∨ r.sign = a.sign

/-- The library's truncated division has the three properties; the sign of its remainder is
that of the dividend, or the remainder is zero. -/
theorem isDivision_tdiv (a : Int) {b : Int} (hb : b ≠ 0) :
    IsDivision a b (a.tdiv b) (a.tmod b) where
  eq := (Int.tdiv_mul_add_tmod a b).symm
  natAbs_lt := by
    rw [Int.natAbs_tmod]
    exact Nat.mod_lt _ (Int.natAbs_pos.mpr hb)
  sign := by
    have hsign := Int.sign_tmod a b
    split at hsign
    · exact Or.inl (Int.sign_eq_zero_iff_zero.mp hsign)
    · exact Or.inr hsign

/-- A shift to the right gives the largest whole number that is not above the quotient. -/
theorem fdiv_pow2_bounds (a : Int) (n : Nat) :
    Int.fdiv a (pow2 n) * 2 ^ n ≤ a ∧ a < (Int.fdiv a (pow2 n) + 1) * 2 ^ n := by
  have hpos : (0 : Int) < 2 ^ n := Int.pow_pos (by decide)
  rw [pow2_eq, Int.fdiv_eq_ediv_of_nonneg a (Int.le_of_lt hpos)]
  exact ⟨Int.ediv_mul_le a (Int.ne_of_gt hpos), Int.lt_ediv_add_one_mul_self a hpos⟩

/-- A shift to the right undoes a shift to the left. -/
theorem fdiv_mul_pow2 (a : Int) (n : Nat) : Int.fdiv (a * pow2 n) (pow2 n) = a :=
  Int.mul_fdiv_cancel a (Int.natCast_ne_zero.mpr (Nat.ne_of_gt (pow2_pos n)))

theorem encode_injective {y z : Int} (h : encode y = encode z) : y = z := by
  rw [← decode_encode y, h, decode_encode]

end Number

open Number

theorem shiftAmount_eq_ok_iff {b : Int} {n : Nat} :
    shiftAmount b = .ok n ↔ b = n ∧ n ≤ maxShift := by
  unfold shiftAmount
  split
  · rw [Except.ok.injEq]
    omega
  · simp only [reduceCtorEq, false_iff]
    omega

/-- Nothing else can be wrong with an amount. -/
theorem shiftAmount_eq_error_iff {b : Int} :
    shiftAmount b = .error .invalidShift ↔ b < 0 ∨ (maxShift : Int) < b := by
  unfold shiftAmount
  split
  · simp only [reduceCtorEq, false_iff]
    omega
  · simp only [true_iff]
    omega

namespace Binary

variable {kind : Binary} {a b : Int}

theorem division_fails_iff (hkind : kind ∈ [div, mod]) :
    kind.apply a b = .error .divisionByZero ↔ b = 0 := by
  simp only [List.mem_cons, List.not_mem_nil, or_false] at hkind
  rcases hkind with rfl | rfl <;>
  · rw [apply]
    split <;> simp_all

theorem shift_fails_iff (hkind : kind ∈ [shiftLeft, shiftRight]) :
    kind.apply a b = .error .invalidShift ↔ b < 0 ∨ (maxShift : Int) < b := by
  rw [← shiftAmount_eq_error_iff]
  simp only [List.mem_cons, List.not_mem_nil, or_false] at hkind
  rcases hkind with rfl | rfl <;>
  · rw [apply]
    cases shiftAmount b <;> simp [Except.map]

theorem apply_shiftLeft {n : Nat} (hn : n ≤ maxShift) :
    shiftLeft.apply a n = .ok (a * 2 ^ n) := by
  rw [apply, shiftAmount_eq_ok_iff.mpr ⟨rfl, hn⟩, ← pow2_eq]
  rfl

theorem apply_shiftRight {n : Nat} (hn : n ≤ maxShift) :
    shiftRight.apply a n = .ok (Int.fdiv a (pow2 n)) := by
  rw [apply, shiftAmount_eq_ok_iff.mpr ⟨rfl, hn⟩]
  rfl

end Binary

/-! ## Opcodes -/

/-- The visit ends the run with this error. -/
def Visit.FailsWith (v : Visit) (error : ScriptError) : Prop := ∃ m, v = .fail error m

namespace Machine

/-- The machine behind an opcode that was counted and left this stack. -/
def leaving (m : Machine) (stack : Stack) : Machine :=
  { m with stack := stack, opCount := m.opCount + 1 }

variable {env : Setting} {m : Machine} {x y : Bytes} {below : Stack}

/-- Both operands are taken, also where the operation refuses them, and the result is the
exact one. -/
theorem visit_binary (hon : m.isExecuting = true) (hstack : m.stack = y :: x :: below)
    {kind : Binary} {noData : (Opcode.binary kind).lengthWidth? = none} :
    m.visit env (.op (.binary kind) noData) =
      match kind.apply (decode x) (decode y) with
      | .ok z => .next (m.leaving (encode z :: below))
      | .error error => .fail error (m.leaving below) := by
  have hstack : (m.countMore 1).stack = y :: x :: below := hstack
  rw [visit_onStack hon (fun _ => rfl) (by cases kind <;> decide), onStack, hstack, Stack.binary]
  cases kind.apply (decode x) (decode y) <;> rfl

theorem visit_binary_of_ok (hon : m.isExecuting = true) (hstack : m.stack = y :: x :: below)
    {kind : Binary} {noData : (Opcode.binary kind).lengthWidth? = none} {z : Int}
    (h : kind.apply (decode x) (decode y) = .ok z) :
    m.visit env (.op (.binary kind) noData) = .next (m.leaving (encode z :: below)) := by
  rw [visit_binary hon hstack, h]

theorem failsWith_binary_iff (hon : m.isExecuting = true) (hstack : m.stack = y :: x :: below)
    {kind : Binary} {noData : (Opcode.binary kind).lengthWidth? = none} {error : ScriptError} :
    (m.visit env (.op (.binary kind) noData)).FailsWith error ↔
      kind.apply (decode x) (decode y) = .error error := by
  rw [visit_binary hon hstack, Visit.FailsWith]
  cases kind.apply (decode x) (decode y) <;> simp

/-- An opcode for two numbers on a two is an opcode for one number. -/
theorem visitAll_two_binary (hon : m.isExecuting = true) (hstack : m.stack = x :: below)
    {one : Unary} {two : Binary} {noData : (Opcode.unary one).lengthWidth? = none}
    {noData' : (Opcode.binary two).lengthWidth? = none}
    (hsame : two.apply (decode x) 2 = .ok (one.apply (decode x))) :
    m.visitAll env [.smallNat 2 (by decide), .op (.binary two) noData'] =
      (m.visitAll env [.op (.unary one) noData]).map advance := by
  obtain ⟨item, hpushed, hitem⟩ := Chunk.pushed?_smallNat (n := 2) (by decide)
  have hpush : (m.push item).advance.stack = item :: x :: below := congrArg (item :: ·) hstack
  have hon' : (m.push item).advance.isExecuting = true := hon
  rw [← show decode item = 2 from hitem] at hsame
  rw [visitAll, visit_of_pushed hon hpushed, visitAll, visit_unary hon hstack]
  show visitAll env _ (m.push item).advance = _
  rw [visitAll, visit_binary_of_ok hon' hpush hsame]
  rfl

end Machine

/-! ## Items that arithmetic leaves -/

/-- The opcodes that leave the result of a computation with numbers. -/
def Opcode.computes : Opcode → Bool
  | .unary _ | .binary _ | .within => true
  | _ => false

/-- The item is what some opcode has computed from numbers and left on top. -/
def Number.Computed (item : Bytes) : Prop :=
  ∃ (env : Setting) (m m' : Machine) (code : Opcode) (noData : code.lengthWidth? = none)
    (below : Stack), code.computes = true ∧ m.isExecuting = true ∧
      m.visit env (.op code noData) = .next m' ∧ m'.stack = item :: below

namespace Stack

/-- The items for true and false are the shortest forms of one and zero. -/
theorem ofBool_eq (b : Bool) : ofBool b = encode (Number.ofBool b) := by
  cases b <;> decide +kernel

/-- What the operation puts on top, where it succeeds, is a number in its shortest form. -/
def LeavesNumber (operation : Stack → Popped) : Prop :=
  ∀ s s', operation s = .ok s' → ∃ z below, s' = encode z :: below

theorem leavesNumber_unary (kind : Unary) : LeavesNumber (unary kind)
  | _ :: _, _, rfl => ⟨_, _, rfl⟩

/-- An operation that refuses its operands leaves nothing, so there is nothing to say of it. -/
theorem leavesNumber_binary (kind : Binary) : LeavesNumber (binary kind) := by
  intro s s' h
  rcases s with _ | ⟨b, _ | ⟨a, s⟩⟩
  · cases h
  · cases h
  · rw [binary] at h
    cases happly : kind.apply (decode a) (decode b) with
    | error error =>
      rw [happly] at h
      cases h
    | ok z =>
      rw [happly] at h
      cases h
      exact ⟨z, s, rfl⟩

theorem leavesNumber_within : LeavesNumber within
  | _ :: _ :: _ :: _, _, rfl => ⟨_, _, congrArg (· :: _) (ofBool_eq _)⟩

/-- What holds of the operation holds of the machine that carries it out. -/
theorem LeavesNumber.of_onStack {operation : Stack → Popped} (h : LeavesNumber operation)
    {m m' : Machine} (hnext : m.onStack operation = .next m') :
    ∃ z below, m'.stack = encode z :: below := by
  unfold Machine.onStack at hnext
  cases hs : operation m.stack with
  | ok s =>
    rw [hs] at hnext
    cases hnext
    exact h _ _ hs
  | fail error s =>
    rw [hs] at hnext
    cases hnext

end Stack

/-- So a computed item has been written by the shortest form, whichever opcode made it. -/
theorem Number.exists_encode_of_computed {item : Bytes} (h : Computed item) :
    ∃ z, item = encode z := by
  obtain ⟨env, m, m', code, noData, below, hcomputes, hon, hvisit, hstack⟩ := h
  rw [m.visit_of_executing _ env hon] at hvisit
  have hleft : ∃ z below, m'.stack = encode z :: below := by
    cases code with
    | unary kind => exact (Stack.leavesNumber_unary kind).of_onStack hvisit
    | binary kind => exact (Stack.leavesNumber_binary kind).of_onStack hvisit
    | within => exact Stack.leavesNumber_within.of_onStack hvisit
    | _ => cases hcomputes
  obtain ⟨z, below', hz⟩ := hleft
  exact ⟨z, (List.cons.inj (hstack.symm.trans hz)).1⟩

namespace Machine

variable {env : Setting} {m : Machine} {x y : Bytes} {below : Stack}

/-- Among computed items, comparing items is comparing numbers. -/
theorem visit_equal_of_computed (hon : m.isExecuting = true) (hstack : m.stack = y :: x :: below)
    (hx : Computed x) (hy : Computed y) {noData : Opcode.equal.lengthWidth? = none}
    {noData' : (Opcode.binary .equal).lengthWidth? = none} :
    m.visit env (.op .equal noData) = m.visit env (.op (.binary .equal) noData') := by
  obtain ⟨a, rfl⟩ := exists_encode_of_computed hx
  obtain ⟨b, rfl⟩ := exists_encode_of_computed hy
  have hsame : (encode a == encode b) = (a == b) := by
    rw [Bool.eq_iff_iff, beq_iff_eq, beq_iff_eq]
    exact ⟨encode_injective, congrArg encode⟩
  have hstack' : (m.countMore 1).stack = encode b :: encode a :: below := hstack
  rw [visit_binary hon hstack, decode_encode, decode_encode,
    visit_onStack hon (fun _ => rfl) (by decide), onStack, hstack', Stack.equal, hsame,
    Stack.ofBool_eq]
  rfl

/-! ## The laws -/

/-- Quotient and remainder come from one division, though two opcodes compute them. -/
theorem visit_division (hon : m.isExecuting = true) (hstack : m.stack = y :: x :: below)
    (hy : decode y ≠ 0) :
    ∃ q r, IsDivision (decode x) (decode y) q r ∧
      m.visit env (.op (.binary .div) rfl) = .next (m.leaving (encode q :: below)) ∧
      m.visit env (.op (.binary .mod) rfl) = .next (m.leaving (encode r :: below)) :=
  ⟨_, _, isDivision_tdiv _ hy, visit_binary_of_ok hon hstack (if_neg hy),
    visit_binary_of_ok hon hstack (if_neg hy)⟩

/-- A shift to the left is exact, and one to the right rounds down, below zero as well. -/
theorem visit_shift (hon : m.isExecuting = true) (hstack : m.stack = y :: x :: below) {n : Nat}
    (hy : decode y = n) (hn : n ≤ maxShift) :
    ∃ q : Int, q * 2 ^ n ≤ decode x ∧ decode x < (q + 1) * 2 ^ n ∧
      m.visit env (.op (.binary .shiftLeft) rfl) =
        .next (m.leaving (encode (decode x * 2 ^ n) :: below)) ∧
      m.visit env (.op (.binary .shiftRight) rfl) = .next (m.leaving (encode q :: below)) := by
  obtain ⟨hle, hlt⟩ := fdiv_pow2_bounds (decode x) n
  refine ⟨_, hle, hlt, visit_binary_of_ok hon hstack ?_, visit_binary_of_ok hon hstack ?_⟩
  · rw [hy]
    exact Binary.apply_shiftLeft hn
  · rw [hy]
    exact Binary.apply_shiftRight hn

/-- The amount may come back in another form. -/
theorem visit_shift_back {m' : Machine} {y' : Bytes} (hon : m.isExecuting = true)
    (hstack : m.stack = y :: x :: below)
    (hleft : m.visit env (.op (.binary .shiftLeft) rfl) = .next m') (hy' : decode y' = decode y) :
    (m'.push y').visit env (.op (.binary .shiftRight) rfl) =
      .next (m'.leaving (encode (decode x) :: below)) := by
  have hleft := (visit_binary hon hstack).symm.trans hleft
  rw [Binary.apply] at hleft
  cases hamount : shiftAmount (decode y) with
  | error error =>
    rw [hamount] at hleft
    cases hleft
  | ok n =>
    obtain ⟨hy, hn⟩ := shiftAmount_eq_ok_iff.mp hamount
    rw [hamount] at hleft
    cases hleft
    let m' := m.leaving (encode (decode x * pow2 n) :: below)
    have hon' : (m'.push y').isExecuting = true := hon
    have hstack' : (m'.push y').stack = y' :: encode (decode x * pow2 n) :: below := rfl
    refine visit_binary_of_ok hon' hstack' ?_
    rw [hy', hy, decode_encode, Binary.apply_shiftRight hn, fdiv_mul_pow2]

/-- **Division, shifts and equality.** Division and remainder fail exactly on a zero, and leave
quotient and remainder of a division that rounds toward zero. Shifts fail exactly where the
amount is negative or above 65536; they leave the multiple by the power of two and the floor of
the quotient, so a shift back gives the number in its shortest form. Doubling and halving are
multiplication and division by two. Of items that arithmetic has left the bytes are compared
as the numbers are. -/
theorem division_shift_and_equality_laws :
    (∀ (env : Setting) (m : Machine) (x y : Bytes) (below : Stack),
      m.isExecuting = true → m.stack = y :: x :: below →
        (∀ kind ∈ [Binary.div, .mod],
          (m.visit env (.op (.binary kind) rfl)).FailsWith .divisionByZero ↔ decode y = 0) ∧
        (decode y ≠ 0 → ∃ q r, IsDivision (decode x) (decode y) q r ∧
          m.visit env (.op (.binary .div) rfl) = .next (m.leaving (encode q :: below)) ∧
          m.visit env (.op (.binary .mod) rfl) = .next (m.leaving (encode r :: below))) ∧
        (∀ kind ∈ [Binary.shiftLeft, .shiftRight],
          (m.visit env (.op (.binary kind) rfl)).FailsWith .invalidShift ↔
            decode y < 0 ∨ 65536 < decode y) ∧
        (∀ n : Nat, decode y = n → n ≤ 65536 →
          ∃ q : Int, q * 2 ^ n ≤ decode x ∧ decode x < (q + 1) * 2 ^ n ∧
            m.visit env (.op (.binary .shiftLeft) rfl) =
              .next (m.leaving (encode (decode x * 2 ^ n) :: below)) ∧
            m.visit env (.op (.binary .shiftRight) rfl) =
              .next (m.leaving (encode q :: below))) ∧
        ∀ m', m.visit env (.op (.binary .shiftLeft) rfl) = .next m' →
          ∀ y', decode y' = decode y →
            (m'.push y').visit env (.op (.binary .shiftRight) rfl) =
              .next (m'.leaving (encode (decode x) :: below))) ∧
    (∀ (env : Setting) (m : Machine) (x : Bytes) (below : Stack),
      m.isExecuting = true → m.stack = x :: below →
        m.visitAll env [.smallNat 2 (by decide), .op (.binary .div) rfl] =
          (m.visitAll env [.op (.unary .div2) rfl]).map advance ∧
        m.visitAll env [.smallNat 2 (by decide), .op (.binary .mul) rfl] =
          (m.visitAll env [.op (.unary .mul2) rfl]).map advance) ∧
    ∀ (env : Setting) (m : Machine) (x y : Bytes) (below : Stack),
      m.isExecuting = true → m.stack = y :: x :: below → Computed x → Computed y →
        m.visit env (.op .equal rfl) = m.visit env (.op (.binary .equal) rfl) := by
  refine ⟨fun env m x y below hon hstack => ?_, fun env m x below hon hstack => ?_,
    fun env m x y below hon hstack hx hy => visit_equal_of_computed hon hstack hx hy⟩
  · refine ⟨fun kind hkind => ?_, visit_division hon hstack, fun kind hkind => ?_,
      fun n => visit_shift hon hstack, fun m' hleft y' => visit_shift_back hon hstack hleft⟩
    · exact (failsWith_binary_iff hon hstack).trans (Binary.division_fails_iff hkind)
    · exact (failsWith_binary_iff hon hstack).trans (Binary.shift_fails_iff hkind)
  · have hdiv : Binary.div.apply (decode x) 2 = .ok (Unary.div2.apply (decode x)) := rfl
    exact ⟨visitAll_two_binary hon hstack hdiv, visitAll_two_binary hon hstack rfl⟩

/-! ### Minus seven and two

The two is not in its shortest form, and the machine is inside a group that is on. Division
gives minus three, and a shift by two places minus two. -/

namespace ArithmeticSample

def setting : Setting := ⟨.empty, ⟨0, [], [], 0⟩, 0, 0⟩

def met : Machine := ⟨[[0, 2], [0xf9], [7]], [], [true], 3, 1, .empty⟩

def shifted : Machine := met.leaving [[0xe4], [7]]

end ArithmeticSample

open ArithmeticSample in
/-- The dividend is negative, and the divisor is not in its shortest form. -/
theorem division_shift_and_equality_laws_sample :
    met.isExecuting = true ∧ met.stack = [[0, 2], [0xf9], [7]] ∧ decode [0, 2] = 2 ∧
      (∃ q r, IsDivision (decode [0xf9]) (decode [0, 2]) q r ∧
        met.visit setting (.op (.binary .div) rfl) = .next (met.leaving [encode q, [7]]) ∧
        met.visit setting (.op (.binary .mod) rfl) = .next (met.leaving [encode r, [7]])) ∧
      met.visit setting (.op (.binary .shiftLeft) rfl) = .next shifted ∧
      (shifted.push [2]).visit setting (.op (.binary .shiftRight) rfl) =
        .next (shifted.leaving [[0xf9], [7]]) ∧
      Computed [0xe4] ∧
      (shifted.push [0xe4]).visit setting (.op .equal rfl) =
        (shifted.push [0xe4]).visit setting (.op (.binary .equal) rfl) := by
  obtain ⟨htwo, -, hequal⟩ := division_shift_and_equality_laws
  obtain ⟨-, hdivision, -, -, hback⟩ := htwo setting met [0xf9] [0, 2] [[7]] rfl rfl
  have hleft : met.visit setting (.op (.binary .shiftLeft) rfl) = .next shifted := by
    decide +kernel
  have hcomputed : Computed [0xe4] :=
    ⟨setting, met, shifted, .binary .shiftLeft, rfl, [[7]], rfl, rfl, hleft, rfl⟩
  refine ⟨rfl, rfl, by decide +kernel, hdivision (by decide +kernel), hleft, ?_, hcomputed, ?_⟩
  · have hseven : encode (decode [0xf9]) = [0xf9] := by decide +kernel
    exact hseven ▸ hback shifted hleft [2] (by decide +kernel)
  · exact hequal setting _ [0xe4] [0xe4] [[7]] rfl rfl hcomputed hcomputed

end Machine

end UtxoLedger
