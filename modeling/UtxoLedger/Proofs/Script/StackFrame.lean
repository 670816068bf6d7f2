/-
UtxoLedger.Proofs.Script.StackFrame — items below what a script needs do not influence it.

Except for the opcode that counts the items, nothing in a script can see how far down the
stack reaches. An operation that succeeds does the same above other items
(`Stack.LeavesBelow`), and one that fails may fail for want of items, so of failures
nothing is said. Most operations take a fixed number of operands and are covered by
`leavesBelow_one`, `leavesBelow_two` and `leavesBelow_three`, which ask only what happens
when the operands are there. Three look further down: the copy and the move of an item at
a given depth, and the check of several signatures (`takeSized_below`).

`Visit.Above` compares two visits of one chunk, and `runFrom_above` two runs: by induction on
the chunks, the machine on the higher stack is at every chunk the other one with the same
items below (`Machine.above`).
-/
import UtxoLedger.Proofs.Script.CacheIndependence
import UtxoLedger.Proofs.Script.Segments

namespace UtxoLedger

/-! ## Operations on the stack -/

/-- The same outcome with items below. -/
def Popped.above (base : Stack) : Popped → Popped
  | .ok s => .ok (s ++ base)
  | .fail error s => .fail error (s ++ base)

/-- A rearrangement names its items by their distance from the top, so what is added at the
bottom is left there. -/
theorem Shuffle.apply_append {kind : Shuffle} {s s' : Stack} (base : Stack)
    (h : kind.apply s = some s') : kind.apply (s ++ base) = some (s' ++ base) := by
  unfold Shuffle.apply at h
  split at h <;>
  · cases h
    try rfl

namespace Stack

/-- Where the operation succeeds, it does the same above other items. -/
def LeavesBelow (operation : Stack → Popped) : Prop :=
  ∀ s s' base : Stack, operation s = .ok s' → operation (s ++ base) = .ok (s' ++ base)

section Operands

variable {operation : Stack → Popped}

/-- An operation that fails on the empty stack has to be looked at only where its operand is
on top. It may still fail there: it then does so above the other items as well. -/
theorem leavesBelow_one (hnil : operation [] = missing [])
    (h : ∀ a s base, operation (a :: (s ++ base)) = (operation (a :: s)).above base) :
    LeavesBelow operation := by
  intro s s' base hok
  cases s with
  | nil =>
    rw [hnil] at hok
    cases hok
  | cons a s => rw [List.cons_append, h, hok, Popped.above]

/-- With two operands there are two stacks on which the operation fails for want of them. -/
theorem leavesBelow_two (hnil : operation [] = missing [])
    (hone : ∀ b, operation [b] = missing [b])
    (h : ∀ b a s base,
      operation (b :: a :: (s ++ base)) = (operation (b :: a :: s)).above base) :
    LeavesBelow operation := by
  intro s s' base hok
  rcases s with _ | ⟨b, _ | ⟨a, s⟩⟩
  · rw [hnil] at hok
    cases hok
  · rw [hone] at hok
    cases hok
  · rw [List.cons_append, List.cons_append, h, hok, Popped.above]

/-- With three there are three. -/
theorem leavesBelow_three (hnil : operation [] = missing [])
    (hone : ∀ c, operation [c] = missing [c]) (htwo : ∀ c b, operation [c, b] = missing [c, b])
    (h : ∀ c b a s base,
      operation (c :: b :: a :: (s ++ base)) = (operation (c :: b :: a :: s)).above base) :
    LeavesBelow operation := by
  intro s s' base hok
  rcases s with _ | ⟨c, _ | ⟨b, _ | ⟨a, s⟩⟩⟩
  · rw [hnil] at hok
    cases hok
  · rw [hone] at hok
    cases hok
  · rw [htwo] at hok
    cases hok
  · rw [List.cons_append, List.cons_append, List.cons_append, h, hok, Popped.above]

end Operands

/-- The number of operands differs from member to member, so this one goes by
`Shuffle.apply_append` and not by counting them. -/
theorem leavesBelow_shuffle (kind : Shuffle) : LeavesBelow (shuffle kind) := by
  intro s s' base hok
  unfold shuffle at hok ⊢
  cases happly : kind.apply s with
  | none =>
    rw [happly] at hok
    cases hok
  | some left =>
    rw [happly] at hok
    cases hok
    rw [Shuffle.apply_append base happly]

theorem leavesBelow_dupIfTrue : LeavesBelow dupIfTrue :=
  leavesBelow_one rfl fun a s base => by
    dsimp only [dupIfTrue]
    split <;> rfl

theorem leavesBelow_verify : LeavesBelow verify :=
  leavesBelow_one rfl fun a s base => by
    dsimp only [verify]
    split <;> rfl

theorem leavesBelow_size : LeavesBelow size := leavesBelow_one rfl fun _ _ _ => rfl

theorem leavesBelow_invert : LeavesBelow invert := leavesBelow_one rfl fun _ _ _ => rfl

theorem leavesBelow_unary (kind : Unary) : LeavesBelow (unary kind) :=
  leavesBelow_one rfl fun _ _ _ => rfl

theorem leavesBelow_blake3 : LeavesBelow blake3 := leavesBelow_one rfl fun _ _ _ => rfl

theorem leavesBelow_doubleBlake3 : LeavesBelow doubleBlake3 :=
  leavesBelow_one rfl fun _ _ _ => rfl

theorem leavesBelow_cat : LeavesBelow cat :=
  leavesBelow_two rfl (fun _ => rfl) fun _ _ _ _ => rfl

/-- Whether the length is one of the data's does not depend on what is below the two. -/
theorem leavesBelow_left : LeavesBelow left :=
  leavesBelow_two rfl (fun _ => rfl) fun length data s base => by
    dsimp only [left]
    cases Number.toCount? (Number.decode length) with
    | none => rfl
    | some n =>
      dsimp only
      split <;> rfl

theorem leavesBelow_right : LeavesBelow right :=
  leavesBelow_two rfl (fun _ => rfl) fun length data s base => by
    dsimp only [right]
    cases Number.toCount? (Number.decode length) with
    | none => rfl
    | some n =>
      dsimp only
      split <;> rfl

theorem leavesBelow_bitwise (kind : Bitwise) : LeavesBelow (bitwise kind) :=
  leavesBelow_two rfl (fun _ => rfl) fun b a s base => by
    dsimp only [bitwise]
    split <;> rfl

theorem leavesBelow_equal : LeavesBelow equal :=
  leavesBelow_two rfl (fun _ => rfl) fun _ _ _ _ => rfl

theorem leavesBelow_equalVerify : LeavesBelow equalVerify :=
  leavesBelow_two rfl (fun _ => rfl) fun b a s base => by
    dsimp only [equalVerify]
    split <;> rfl

/-- A refused number, such as a zero divisor, is refused above other items too. -/
theorem leavesBelow_binary (kind : Binary) : LeavesBelow (binary kind) :=
  leavesBelow_two rfl (fun _ => rfl) fun b a s base => by
    dsimp only [binary]
    cases kind.apply (Number.decode a) (Number.decode b) <;> rfl

theorem leavesBelow_numEqualVerify : LeavesBelow numEqualVerify :=
  leavesBelow_two rfl (fun _ => rfl) fun b a s base => by
    dsimp only [numEqualVerify]
    split <;> rfl

theorem leavesBelow_substr : LeavesBelow substr :=
  leavesBelow_three rfl (fun _ => rfl) (fun _ _ => rfl) fun length start data s base => by
    dsimp only [substr]
    cases Number.toCount? (Number.decode start) with
    | none => rfl
    | some i =>
      cases Number.toCount? (Number.decode length) with
      | none => rfl
      | some n =>
        dsimp only
        split <;> rfl

theorem leavesBelow_within : LeavesBelow within :=
  leavesBelow_three rfl (fun _ => rfl) (fun _ _ => rfl) fun _ _ _ _ _ => rfl

/-- A depth at which there is an item is counted from the top. -/
theorem leavesBelow_pick : LeavesBelow pick := by
  intro s s' base hok
  rcases depth_cases s with rfl | ⟨n, rest, rfl, -, hpick, -⟩ | ⟨n, front, a, back, rfl, hcount⟩
  · cases hok
  · cases hpick.symm.trans hok
  · cases (pick_of_count hcount).symm.trans hok
    simpa only [List.cons_append, List.append_assoc] using pick_of_count hcount

/-- The moved item comes from the part of the stack that is at hand, so the items below stay
below. -/
theorem leavesBelow_roll : LeavesBelow roll := by
  intro s s' base hok
  rcases depth_cases s with rfl | ⟨n, rest, rfl, -, -, hroll⟩ | ⟨n, front, a, back, rfl, hcount⟩
  · cases hok
  · cases hroll.symm.trans hok
  · cases (roll_of_count hcount).symm.trans hok
    simpa only [List.cons_append, List.append_assoc] using roll_of_count hcount

end Stack

/-! ## One visit -/

namespace Machine

/-- The machine with items below its stack. -/
def above (base : Stack) (m : Machine) : Machine := { m with stack := m.stack ++ base }

end Machine

/-- The second visit comes to what the first comes to, above the items, unless the first
fails. -/
inductive Visit.Above (base : Stack) : Visit → Visit → Prop where
  | next (m : Machine) : Visit.Above base (.next m) (.next (m.above base))
  | stop (m : Machine) : Visit.Above base (.stop m) (.stop (m.above base))
  | fail (error : ScriptError) (m : Machine) (v : Visit) : Visit.Above base (.fail error m) v

namespace Machine

variable (base : Stack) (env : Setting) (m : Machine)

/-- An operation on the stack alone touches no other part of the machine. -/
theorem onStack_above {operation : Stack → Popped} (h : Stack.LeavesBelow operation) :
    (m.onStack operation).Above base ((m.above base).onStack operation) := by
  unfold onStack above
  cases hpopped : operation m.stack with
  | ok s =>
    dsimp only
    rw [h _ _ base hpopped]
    exact .next { m with stack := s }
  | fail error s => exact .fail error _ _

/-- A conditional takes its item only where the branch is executed; else it does not look at
the stack at all. -/
theorem openGroup_above (wanted : Bool) :
    (m.openGroup wanted).Above base ((m.above base).openGroup wanted) := by
  have hsame : (m.above base).isExecuting = m.isExecuting := rfl
  unfold openGroup
  rw [hsame]
  split
  · obtain ⟨stack, alt, conditions, position, opCount, cache⟩ := m
    cases stack with
    | nil => exact .fail _ _ _
    | cons a s => exact .next _
  · exact .next _

/-- The other two conditionals turn to the open groups, which are the same in both machines. -/
theorem branch_above (kind : Branch) : (m.branch kind).Above base ((m.above base).branch kind) := by
  cases kind with
  | ifTrue => exact m.openGroup_above base true
  | ifFalse => exact m.openGroup_above base false
  | otherwise | endIf =>
    obtain ⟨stack, alt, conditions, position, opCount, cache⟩ := m
    cases conditions with
    | nil => exact .fail _ _ _
    | cons c cs => exact .next _

theorem toAlt_above : m.toAlt.Above base (m.above base).toAlt := by
  obtain ⟨stack, alt, conditions, position, opCount, cache⟩ := m
  cases stack with
  | nil => exact .fail _ _ _
  | cons a s => exact .next _

/-- Whether there is something to fetch depends on the second stack alone. -/
theorem fromAlt_above : m.fromAlt.Above base (m.above base).fromAlt := by
  obtain ⟨stack, alt, conditions, position, opCount, cache⟩ := m
  cases alt with
  | nil => exact .fail _ _ _
  | cons a rest => exact .next _

/-- The lock stays on the stack, and the items with it. -/
theorem checkLockAbs_above :
    (m.checkLockAbs env).Above base ((m.above base).checkLockAbs env) := by
  obtain ⟨stack, alt, conditions, position, opCount, cache⟩ := m
  cases stack with
  | nil => exact .fail _ _ _
  | cons a s =>
    simp only [checkLockAbs, above, List.cons_append]
    split
    · exact .next _
    · exact .fail _ _ _

theorem checkLockRel_above :
    (m.checkLockRel env).Above base ((m.above base).checkLockRel env) := by
  obtain ⟨stack, alt, conditions, position, opCount, cache⟩ := m
  cases stack with
  | nil => exact .fail _ _ _
  | cons a s =>
    simp only [checkLockRel, above, List.cons_append]
    cases env.tx.inputs[env.index]? with
    | none => exact .fail _ _ _
    | some input =>
      dsimp only
      split
      · exact .next _
      · exact .fail _ _ _

/-! ### Signature opcodes -/

/-- The answer is put on the stack, or it is taken for granted and a failure ends the run. -/
theorem conclude_above (thenVerify success : Bool) :
    (m.conclude thenVerify success).Above base ((m.above base).conclude thenVerify success) := by
  unfold conclude
  split
  · exact .fail _ _ _
  · exact .next _

/-- Key and signature are on top, and the cache and the transaction are the same in both
machines. -/
theorem checkSig_above (thenVerify : Bool) :
    (m.checkSig env thenVerify).Above base ((m.above base).checkSig env thenVerify) := by
  obtain ⟨stack, alt, conditions, position, opCount, cache⟩ := m
  rcases stack with _ | ⟨key, _ | ⟨sig, s⟩⟩
  · exact .fail _ _ _
  · exact .fail _ _ _
  · simp only [checkSig, above, List.cons_append]
    split
    · exact .fail _ _ _
    · split
      · exact .fail _ _ _
      · exact conclude_above base ⟨s, alt, conditions, position, opCount, _⟩ thenVerify _

/-- Items of one size are taken from the top. -/
theorem takeSized_below {size : Nat} : ∀ {count : Nat} {s rest : Stack} {items : List Bytes},
    takeSized size count s = .ok (items, rest) →
      takeSized size count (s ++ base) = .ok (items, rest ++ base)
  | 0, s, rest, items, h => by
      cases h
      rfl
  | count + 1, [], rest, items, h => by cases h
  | count + 1, a :: s, rest, items, h => by
      rw [takeSized] at h
      rw [List.cons_append, takeSized]
      split at h
      · rename_i hsize
        cases htake : takeSized size count s with
        | error left =>
          rw [htake] at h
          cases h
        | ok taken =>
          rw [htake] at h
          cases h
          rw [if_pos hsize, takeSized_below htake]
      · cases h

/-- Two counts are checked against the length of the stack, which is greater with items
below. Where the shorter stack passes the checks, so does the longer one. -/
theorem checkMultiSig_above (thenVerify : Bool) :
    (m.checkMultiSig env thenVerify).Above base ((m.above base).checkMultiSig env thenVerify) := by
  obtain ⟨stack, alt, conditions, position, opCount, cache⟩ := m
  cases stack with
  | nil => exact .fail _ _ _
  | cons top s =>
    simp only [checkMultiSig, above, List.cons_append, List.length_append]
    cases (Number.toCount? (Number.decode top)).filter (decide <| · ≤ Script.maxKeys) with
    | none => exact .fail _ _ _
    | some keyCount =>
      dsimp only
      by_cases hkeys : s.length < keyCount + 1
      · rw [if_pos hkeys]
        exact .fail _ _ _
      -- items below make the stack longer, so the test is passed there too
      · rw [if_neg hkeys, if_neg (by omega)]
        cases htake : takeSized PublicKey.size keyCount s with
        | error s => exact .fail _ _ _
        | ok taken =>
          obtain ⟨keys, _ | ⟨top, s⟩⟩ := taken
          · exact .fail _ _ _
          · rw [takeSized_below base htake]
            dsimp only [List.cons_append]
            cases (Number.toCount? (Number.decode top)).filter (decide <| · ≤ keyCount) with
            | none => exact .fail _ _ _
            | some sigCount =>
              simp only [List.length_append]
              by_cases hsigs : s.length < sigCount
              · rw [if_pos hsigs]
                exact .fail _ _ _
              · rw [if_neg hsigs, if_neg (by omega)]
                cases htake : takeSized TxSignature.size sigCount s with
                | error s => exact .fail _ _ _
                | ok taken =>
                  rw [takeSized_below base htake]
                  exact conclude_above base ⟨taken.2, alt, conditions, position, opCount, _⟩
                    thenVerify _

/-! ### One chunk -/

/-- One line per opcode. The one that counts the items is excluded: it would count those
below too. -/
theorem exec_above {code : Opcode} (hdepth : code ≠ .depth) :
    (m.exec env code).Above base ((m.above base).exec env code) := by
  cases code with
  | depth => exact absurd rfl hdepth
  | zero | negativeOne | small _ => exact .next _
  | pushData _ => exact .fail _ _ _
  | ret => exact .stop _
  | branch kind => exact m.branch_above base kind
  | toAlt => exact m.toAlt_above base
  | fromAlt => exact m.fromAlt_above base
  | checkSig => exact m.checkSig_above base env false
  | checkSigVerify => exact m.checkSig_above base env true
  | checkMultiSig => exact m.checkMultiSig_above base env false
  | checkMultiSigVerify => exact m.checkMultiSig_above base env true
  | checkLockAbs => exact m.checkLockAbs_above base env
  | checkLockRel => exact m.checkLockRel_above base env
  | shuffle kind => exact m.onStack_above base (Stack.leavesBelow_shuffle kind)
  | verify => exact m.onStack_above base Stack.leavesBelow_verify
  | dupIfTrue => exact m.onStack_above base Stack.leavesBelow_dupIfTrue
  | pick => exact m.onStack_above base Stack.leavesBelow_pick
  | roll => exact m.onStack_above base Stack.leavesBelow_roll
  | cat => exact m.onStack_above base Stack.leavesBelow_cat
  | substr => exact m.onStack_above base Stack.leavesBelow_substr
  | left => exact m.onStack_above base Stack.leavesBelow_left
  | right => exact m.onStack_above base Stack.leavesBelow_right
  | size => exact m.onStack_above base Stack.leavesBelow_size
  | invert => exact m.onStack_above base Stack.leavesBelow_invert
  | bitwise kind => exact m.onStack_above base (Stack.leavesBelow_bitwise kind)
  | equal => exact m.onStack_above base Stack.leavesBelow_equal
  | equalVerify => exact m.onStack_above base Stack.leavesBelow_equalVerify
  | unary kind => exact m.onStack_above base (Stack.leavesBelow_unary kind)
  | binary kind => exact m.onStack_above base (Stack.leavesBelow_binary kind)
  | numEqualVerify => exact m.onStack_above base Stack.leavesBelow_numEqualVerify
  | within => exact m.onStack_above base Stack.leavesBelow_within
  | blake3 => exact m.onStack_above base Stack.leavesBelow_blake3
  | doubleBlake3 => exact m.onStack_above base Stack.leavesBelow_doubleBlake3

theorem tally_above (chunk : Chunk) : (m.above base).tally chunk = (m.tally chunk).above base := by
  unfold tally
  split <;> rfl

/-- A chunk in a branch that is not executed leaves the stack alone. -/
theorem visit_above {chunk : Chunk} (hdepth : chunk.opcode? ≠ some .depth) :
    (m.visit env chunk).Above base ((m.above base).visit env chunk) := by
  have hsame : (m.above base).isExecuting = m.isExecuting := rfl
  unfold visit
  rw [hsame]
  split
  · rw [tally_above]
    cases chunk with
    | op code _ => exact (m.tally _).exec_above base env fun hcode => hdepth (congrArg some hcode)
    | unknown _ _ => exact .fail _ _ _
    | push data _ => exact .next _
  · exact .next _

end Machine

/-! ## The run -/

/-- A run that ends without an error ends above other items as it does without them. -/
theorem runFrom_above (base : Stack) (env : Setting) : ∀ (chunks : List Chunk) (m : Machine),
    (∀ chunk ∈ chunks, chunk.opcode? ≠ some .depth) → (runFrom env chunks m).2 = none →
      runFrom env chunks (m.above base) = ((runFrom env chunks m).1.above base, none)
  | [], m, _, hrun => by
      rw [runFrom] at hrun ⊢
      exact congrArg (m.above base, ·) hrun
  | chunk :: rest, m, hdepth, hrun => by
      rw [List.forall_mem_cons] at hdepth
      have hvisit := m.visit_above base env hdepth.1
      rw [runFrom] at hrun ⊢
      rw [runFrom]
      generalize m.visit env chunk = v at hvisit hrun
      generalize (m.above base).visit env chunk = v' at hvisit
      cases hvisit with
      | next m' => exact runFrom_above base env rest m'.advance hdepth.2 hrun
      | stop m' => rfl
      | fail error m' _ => cases hrun

/-- **Junk below does not count.** If a script that never asks for the depth of the stack
runs on a stack without an error, it does so with any other items below that stack. They
are still there at the end, below what it leaves otherwise, and nothing else that the run
leaves is different. -/
theorem Evaluation.run_ignores_items_below {env : Setting} {s : Stack} {cache : SighashCache}
    (hdepth : ∀ chunk ∈ env.script.chunks, chunk.opcode? ≠ some .depth)
    (h : ((start s cache).run env).error = none) (base : Stack) :
    ((start (s ++ base) cache).run env).error = none ∧
      ((start (s ++ base) cache).run env).machine =
        { ((start s cache).run env).machine with
          stack := ((start s cache).run env).machine.stack ++ base } := by
  obtain ⟨final, failure, hrun, heval⟩ := run_start env s cache
  obtain ⟨final', failure', hrun', heval'⟩ := run_start env (s ++ base) cache
  rw [heval] at h ⊢
  rw [heval']
  have hnone : (runFrom env env.script.chunks (start s cache).machine).2 = none := by
    rw [hrun]
    exact h
  have habove := runFrom_above base env _ _ hdepth hnone
  rw [hrun] at habove
  obtain ⟨rfl, rfl⟩ := Prod.mk.inj (hrun'.symm.trans habove)
  exact ⟨rfl, rfl⟩

/-! ### A script that reaches down

It moves the item at depth 2 to the top, copies the top below the next, takes one of them
for a conditional and checks no signatures by no keys. -/

namespace BelowSample

def codes : List Opcode :=
  [.roll, .shuffle .tuck, .branch .ifTrue, .shuffle .drop, .branch .endIf, .zero, .zero,
    .checkMultiSig]

def script : Script := ⟨codes.filterMap fun code => (Chunk.ofOpcode code).toOption⟩

def setting : Setting := ⟨script, ⟨0, [], [], 0⟩, 0, 0⟩

end BelowSample

open BelowSample in
/-- Two items below those that the script works on. -/
theorem Evaluation.run_ignores_items_below_sample :
    (∀ chunk ∈ setting.script.chunks, chunk.opcode? ≠ some .depth) ∧
      ((start [[2], [7], [8], [9]] .empty).run setting).error = none ∧
      ((start ([[2], [7], [8], [9]] ++ [[0xee], []]) .empty).run setting).machine.stack =
        [[1], [9], [8]] ++ [[0xee], []] := by
  have hdepth : ∀ chunk ∈ setting.script.chunks, chunk.opcode? ≠ some .depth := by
    decide +kernel
  have h : ((start [[2], [7], [8], [9]] .empty).run setting).error = none := by decide +kernel
  have hbelow := run_ignores_items_below hdepth h [[0xee], []]
  refine ⟨hdepth, h, ?_⟩
  rw [hbelow.2]
  decide +kernel

end UtxoLedger
