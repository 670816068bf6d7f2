/-
UtxoLedger.Proofs.Script.Depths — rearranging the stack by the depths of its items.

Two opcodes reach for an item at a depth that a number on top gives: the one copies it, the
other moves it to the top. With these and with one another the other rearrangements can be
spelled out (`Shuffle.spelledOut`), and each does what it spells.

`StackMove.apply` is what one move does to a stack and `StackMove.chunks` is how a script
writes it. That the two belong together is shown for each kind of move and then, by induction
on the moves, for any row of them (`StackMove.performs_all`). So nothing is left of a script
but the stack, and on the stack a rearrangement and its spelling differ nowhere: items beyond
the sixth are not touched, and up to there the cases can be gone through
(`Shuffle.applyAll_spelledOut`).
-/
import UtxoLedger.Proofs.Script.Operands
import UtxoLedger.Proofs.Script.Pushes
import UtxoLedger.Proofs.Script.Truth

namespace UtxoLedger

/-! ## Moves -/

/-- A step in the spelling of a rearrangement. -/
inductive StackMove where
  /-- Copies the item at a depth to the top. -/
  | copy (depth : Fin 17)
  /-- Moves the item at a depth to the top. -/
  | raise (depth : Fin 17)
  | plain (kind : Shuffle)

namespace StackMove

def opcode : StackMove → Opcode
  | .copy _ => .pick
  | .raise _ => .roll
  | .plain kind => .shuffle kind

theorem noData_opcode : ∀ move : StackMove, move.opcode.lengthWidth? = none
  | .copy _ | .raise _ | .plain _ => rfl

/-- How a script writes the move. A depth is pushed in front of the opcode that reads it. -/
def chunks (move : StackMove) : List Chunk :=
  match move with
  | .copy depth | .raise depth =>
    [.smallNat depth (Nat.lt_succ_iff.mp depth.isLt), .op move.opcode move.noData_opcode]
  | .plain _ => [.op move.opcode move.noData_opcode]

/-- The stack behind the move, if it is deep enough. -/
def apply : StackMove → Stack → Option Stack
  | .copy depth, s => s[depth.val]?.map (· :: s)
  | .raise depth, s => s[depth.val]?.map (· :: s.eraseIdx depth)
  | .plain kind, s => kind.apply s

/-- The stack behind a row of moves. -/
def applyAll : List StackMove → Stack → Option Stack
  | [], s => some s
  | move :: rest, s => (move.apply s).bind (applyAll rest)

end StackMove

/-- A rearrangement spelled out in moves. -/
def Shuffle.spelledOut : Shuffle → List StackMove
  | .dup => [.copy 0]
  | .over => [.copy 1]
  | .swap => [.raise 1]
  | .rot => [.raise 2]
  | .drop => [.plain .drop]
  | .nip => [.plain .swap, .plain .drop]
  | .tuck => [.plain .swap, .plain .over]
  | .dup2 => [.plain .over, .plain .over]
  | .dup3 => [.copy 2, .copy 2, .copy 2]
  | .drop2 => [.plain .drop, .plain .drop]
  | .over2 => [.copy 3, .copy 3]
  | .swap2 => [.raise 3, .raise 3]
  | .rot2 => [.raise 5, .raise 5]

/-- On the stack a rearrangement is what it spells. -/
theorem Shuffle.applyAll_spelledOut (kind : Shuffle) (s : Stack) :
    StackMove.applyAll kind.spelledOut s = kind.apply s := by
  cases kind <;> rcases s with _ | ⟨_, _ | ⟨_, _ | ⟨_, _ | ⟨_, _ | ⟨_, _ | ⟨_, s⟩⟩⟩⟩⟩⟩ <;> rfl

/-! ## Scripts that change the stack -/

/-- Where it is executed, the segment changes the stack in this way and nothing else but the
position and the count; it lacks operands where the change gives no stack. -/
structure Performs (env : Setting) (segment : List Chunk) (change : Stack → Option Stack) :
    Prop where
  goesOn {m : Machine} {s : Stack} (hon : m.isExecuting = true) (h : change m.stack = some s) :
    ∃ m', m.visitAll env segment = .next m' ∧
      m' = { m with stack := s, position := m'.position, opCount := m'.opCount }
  fails {m : Machine} (hon : m.isExecuting = true) (h : change m.stack = none) :
    ∃ m', m.visitAll env segment = .fail .invalidStackOperation m'

namespace Performs

variable {env : Setting} {front back : List Chunk} {f g : Stack → Option Stack}

theorem nil : Performs env [] some where
  goesOn {m s} _ h := ⟨m, rfl, by rw [← Option.some.inj h]⟩
  fails _ h := nomatch h

/-- One segment behind another. -/
theorem append (hfront : Performs env front f) (hback : Performs env back g) :
    Performs env (front ++ back) fun s => (f s).bind g where
  goesOn {m s} hon h := by
    obtain ⟨mid, hf, hg⟩ := Option.bind_eq_some_iff.mp h
    obtain ⟨m₁, hvisit₁, heq₁⟩ := hfront.goesOn hon hf
    have hon₁ : m₁.isExecuting = true := by
      rw [heq₁]
      exact hon
    have hstack₁ : m₁.stack = mid := by rw [heq₁]
    obtain ⟨m₂, hvisit₂, heq₂⟩ := hback.goesOn hon₁ (hstack₁ ▸ hg)
    refine ⟨m₂, ?_, ?_⟩
    · rw [Machine.visitAll_append, hvisit₁]
      exact hvisit₂
    · rw [heq₂, heq₁]
  fails {m} hon h := by
    cases hf : f m.stack with
    | none =>
      obtain ⟨m₁, hvisit₁⟩ := hfront.fails hon hf
      exact ⟨m₁, by rw [Machine.visitAll_append, hvisit₁, Visit.andThen]⟩
    | some mid =>
      obtain ⟨m₁, hvisit₁, heq₁⟩ := hfront.goesOn hon hf
      have hon₁ : m₁.isExecuting = true := by
        rw [heq₁]
        exact hon
      have hstack₁ : m₁.stack = mid := by rw [heq₁]
      rw [hf, Option.bind_some] at h
      obtain ⟨m₂, hvisit₂⟩ := hback.fails hon₁ (hstack₁ ▸ h)
      refine ⟨m₂, ?_⟩
      rw [Machine.visitAll_append, hvisit₁]
      exact hvisit₂

/-- A chunk that only pushes. -/
theorem push {chunk : Chunk} {item : Bytes} (h : chunk.pushed? = some item) :
    Performs env [chunk] fun s => some (item :: s) where
  goesOn {m s} hon hs := by
    cases hs
    exact ⟨(m.push item).advance, by rw [Machine.visitAll, Machine.visit_of_pushed hon h]; rfl, rfl⟩
  fails _ hnone := nomatch hnone

/-- Two spellings of one change. -/
theorem congr (h : Performs env front f) (hfg : ∀ s, f s = g s) : Performs env front g := by
  rwa [← funext hfg]

end Performs

/-- The stack that an operation gives. -/
def Popped.stack? : Popped → Option Stack
  | .ok s => some s
  | .fail _ _ => none

/-- The operation fails in no other way than for want of items. -/
def Stack.OnlyMisses (operation : Stack → Popped) : Prop :=
  ∀ s error left, operation s = .fail error left → error = .invalidStackOperation

/-- An opcode that works on the stack alone. -/
theorem Performs.opcode {env : Setting} {code : Opcode} {noData : code.lengthWidth? = none}
    {operation : Stack → Popped} (hcode : ∀ m : Machine, m.exec env code = m.onStack operation)
    (hcounted : Machine.lastUncounted < code.toByte) (hmisses : Stack.OnlyMisses operation) :
    Performs env [.op code noData] fun s => (operation s).stack? where
  goesOn {m s} hon h := by
    refine ⟨Machine.advance { m.countMore 1 with stack := s }, ?_, rfl⟩
    have hs : operation (m.countMore 1).stack = .ok s := by
      unfold Popped.stack? at h
      split at h
      · rename_i s' hs'
        rwa [← Option.some.inj h]
      · cases h
    rw [Machine.visitAll, Machine.visit_onStack hon hcode hcounted, Machine.onStack_ok hs]
    rfl
  fails {m} hon h := by
    have hs : ∃ error left, operation (m.countMore 1).stack = .fail error left := by
      unfold Popped.stack? at h
      split at h
      · cases h
      · exact ⟨_, _, ‹_›⟩
    obtain ⟨error, left, hs⟩ := hs
    obtain rfl := hmisses _ _ _ hs
    refine ⟨{ m.countMore 1 with stack := left }, ?_⟩
    rw [Machine.visitAll, Machine.visit_onStack hon hcode hcounted, Machine.onStack, hs]
    rfl

/-! ## What the moves perform -/

namespace Stack

/-- A shuffle fails only for want of items. -/
theorem onlyMisses_shuffle (kind : Shuffle) : OnlyMisses (shuffle kind) := by
  intro s error left h
  unfold shuffle at h
  split at h
  · cases h
  · exact (Popped.fail.inj h).1.symm

theorem onlyMisses_pick : OnlyMisses pick := by
  intro s error left h
  rcases depth_cases s with rfl | ⟨n, rest, rfl, -, hpick, -⟩ | ⟨n, front, a, back, rfl, hcount⟩
  · exact (Popped.fail.inj h).1.symm
  · exact (Popped.fail.inj (hpick.symm.trans h)).1.symm
  · cases (pick_of_count hcount).symm.trans h

/-- A depth at which there is no item, or that is no count, is refused as a missing item is. -/
theorem onlyMisses_roll : OnlyMisses roll := by
  intro s error left h
  rcases depth_cases s with rfl | ⟨n, rest, rfl, -, -, hroll⟩ | ⟨n, front, a, back, rfl, hcount⟩
  · exact (Popped.fail.inj h).1.symm
  · exact (Popped.fail.inj (hroll.symm.trans h)).1.symm
  · cases (roll_of_count hcount).symm.trans h

end Stack

namespace StackMove

variable (env : Setting)

/-- A depth, pushed in front of an opcode that reads it. -/
theorem performs_atDepth {depth : Fin 17} {code : Opcode} {noData : code.lengthWidth? = none}
    {operation : Stack → Popped} {change : Stack → Option Stack}
    (hopcode : Performs env [.op code noData] fun s => (operation s).stack?)
    (hread : ∀ item s, Number.toCount? (Number.decode item) = some depth.val →
      (operation (item :: s)).stack? = change s) :
    Performs env [.smallNat depth (Nat.lt_succ_iff.mp depth.isLt), .op code noData] change := by
  obtain ⟨item, hpushed, hitem⟩ := Chunk.pushed?_smallNat (Nat.lt_succ_iff.mp depth.isLt)
  have hcount : Number.toCount? (Number.decode item) = some depth.val := by
    rw [hitem]
    exact Number.toCount?_natCast (by omega)
  exact ((Performs.push hpushed).append hopcode).congr fun s => hread item s hcount

theorem performs : ∀ move : StackMove, Performs env move.chunks move.apply
  | .copy depth => by
      have hopcode : Performs env [.op .pick rfl] fun s => (s.pick).stack? :=
        .opcode (fun _ => rfl) (by decide) Stack.onlyMisses_pick
      refine performs_atDepth env hopcode fun item s hcount => ?_
      rw [Stack.pick, hcount, apply]
      dsimp only
      cases s[depth.val]? <;> rfl
  | .raise depth => by
      have hopcode : Performs env [.op .roll rfl] fun s => (s.roll).stack? :=
        .opcode (fun _ => rfl) (by decide) Stack.onlyMisses_roll
      refine performs_atDepth env hopcode fun item s hcount => ?_
      rw [Stack.roll, hcount, apply]
      dsimp only
      cases s[depth.val]? <;> rfl
  | .plain kind => by
      refine (Performs.opcode (fun _ => rfl) (by cases kind <;> decide)
        (Stack.onlyMisses_shuffle kind)).congr fun s => ?_
      rw [Stack.shuffle, apply]
      cases kind.apply s <;> rfl

/-- Moves one after another, by induction on the moves. -/
theorem performs_all : ∀ moves : List StackMove,
    Performs env (moves.flatMap chunks) (applyAll moves)
  | [] => .nil
  | move :: rest => (move.performs env).append (performs_all rest)

end StackMove

namespace Shuffle

variable (env : Setting)

/-- A rearrangement and its spelling change the stack in one way. -/
theorem performs_spelledOut (kind : Shuffle) :
    Performs env (kind.spelledOut.flatMap StackMove.chunks) kind.apply :=
  (StackMove.performs_all env kind.spelledOut).congr kind.applyAll_spelledOut

theorem apply_eq_none_iff {kind : Shuffle} {s : Stack} :
    kind.apply s = none ↔ s.length < kind.operands := by
  rw [← Option.not_isSome_iff_eq_none, kind.isSome_apply_iff, Nat.not_le]

end Shuffle

/-! ## Moving an item to the top -/

namespace Machine

variable {env : Setting} {m : Machine} {depth : Bytes} {below : Stack}

/-- The item that is moved leaves the others in their order. -/
theorem roll_cases (depth : Bytes) (below : Stack) :
    (Stack.roll (depth :: below) = Stack.missing below ∧
      ¬ ∃ i, Number.toCount? (Number.decode depth) = some i ∧ i < below.length) ∨
    ∃ front a back, below = front ++ a :: back ∧
      Number.toCount? (Number.decode depth) = some front.length ∧
      Stack.roll (depth :: below) = .ok (a :: (front ++ back)) := by
  rcases Stack.depth_cases (depth :: below) with h | ⟨n, rest, h, hfilter, -, hroll⟩ |
    ⟨n, front, a, back, h, hcount⟩
  · cases h
  · cases h
    refine Or.inl ⟨hroll, fun ⟨i, hi, hlt⟩ => ?_⟩
    rw [hi, Option.filter_some, if_pos (by simpa using hlt)] at hfilter
    cases hfilter
  · cases h
    exact Or.inr ⟨front, a, back, rfl, hcount, Stack.roll_of_count hcount⟩

theorem visit_roll (hon : m.isExecuting = true) (hstack : m.stack = depth :: below)
    {noData : Opcode.roll.lengthWidth? = none} :
    m.visit env (.op .roll noData) =
      match Stack.roll (depth :: below) with
      | .ok s => .next { m with stack := s, opCount := m.opCount + 1 }
      | .fail error s => .fail error { m with stack := s, opCount := m.opCount + 1 } := by
  have hstack : (m.countMore 1).stack = depth :: below := hstack
  rw [visit_onStack hon (fun _ => rfl) (by decide), onStack, hstack]
  rfl

/-- The depth must be that of an item below. -/
theorem visit_roll_eq_next_iff (hon : m.isExecuting = true) (hstack : m.stack = depth :: below)
    {noData : Opcode.roll.lengthWidth? = none} :
    (∃ m', m.visit env (.op .roll noData) = .next m') ↔
      ∃ i, Number.toCount? (Number.decode depth) = some i ∧ i < below.length := by
  rw [visit_roll hon hstack]
  rcases roll_cases depth below with ⟨hroll, hout⟩ | ⟨front, a, back, rfl, hcount, hroll⟩
  · simp [hroll, Stack.missing, hout]
  · rw [hroll]
    exact ⟨fun _ => ⟨front.length, hcount, by simp⟩, fun _ => ⟨_, rfl⟩⟩

/-- No item is lost or made. -/
theorem perm_of_visit_roll {m' : Machine} (hon : m.isExecuting = true)
    (hstack : m.stack = depth :: below) {noData : Opcode.roll.lengthWidth? = none}
    (h : m.visit env (.op .roll noData) = .next m') : m'.stack.Perm below := by
  rw [visit_roll hon hstack] at h
  rcases roll_cases depth below with ⟨hroll, -⟩ | ⟨front, a, back, rfl, -, hroll⟩
  · rw [hroll] at h
    cases h
  · rw [hroll] at h
    cases h
    exact List.perm_middle.symm

/-- **Rearrangements are moves by depth.** On every stack a rearrangement and its spelling both
go on, to machines that differ in the position and the count alone, or both report that items
are missing; which of the two depends on the number of items. Moving an item to the top is
accepted for the depths below that number, and then it permutes the items under the depth. -/
theorem rearrangements_are_moves_by_depth (env : Setting) (m : Machine)
    (hon : m.isExecuting = true) :
    (∀ kind : Shuffle,
      (kind.operands ≤ m.stack.length → ∃ once spelled,
        m.visitAll env [.op (.shuffle kind) rfl] = .next once ∧
        m.visitAll env (kind.spelledOut.flatMap StackMove.chunks) = .next spelled ∧
        spelled = { once with position := spelled.position, opCount := spelled.opCount }) ∧
      (m.stack.length < kind.operands → ∃ once spelled,
        m.visitAll env [.op (.shuffle kind) rfl] = .fail .invalidStackOperation once ∧
        m.visitAll env (kind.spelledOut.flatMap StackMove.chunks) =
          .fail .invalidStackOperation spelled)) ∧
    ∀ depth below, m.stack = depth :: below →
      ((∃ m', m.visit env (.op .roll rfl) = .next m') ↔
        ∃ i, Number.toCount? (Number.decode depth) = some i ∧ i < below.length) ∧
      ∀ m', m.visit env (.op .roll rfl) = .next m' → m'.stack.Perm below := by
  refine ⟨fun kind => ?_, fun depth below hstack => ?_⟩
  · have honce : Performs env [.op (.shuffle kind) rfl] kind.apply :=
      StackMove.performs env (.plain kind)
    have hspelled := kind.performs_spelledOut env
    refine ⟨fun henough => ?_, fun hfew => ?_⟩
    · obtain ⟨s, hs⟩ := Option.isSome_iff_exists.mp ((kind.isSome_apply_iff _).mpr henough)
      obtain ⟨once, hvisit, hleft⟩ := honce.goesOn hon hs
      obtain ⟨spelled, hvisit', hleft'⟩ := hspelled.goesOn hon hs
      refine ⟨once, spelled, hvisit, hvisit', ?_⟩
      rw [hleft', hleft]
    · have hnone := Shuffle.apply_eq_none_iff.mpr hfew
      obtain ⟨once, hvisit⟩ := honce.fails hon hnone
      obtain ⟨spelled, hvisit'⟩ := hspelled.fails hon hnone
      exact ⟨once, spelled, hvisit, hvisit'⟩
  · exact ⟨visit_roll_eq_next_iff hon hstack, fun m' => perm_of_visit_roll hon hstack⟩

/-! ### Six items

They are enough for every rearrangement, and a depth of two is on top. -/

namespace DepthsSample

def setting : Setting := ⟨.empty, ⟨0, [], [], 0⟩, 0, 0⟩

def met : Machine := ⟨[[2], [5], [4], [3], [6], [1]], [], [true], 3, 1, .empty⟩

end DepthsSample

open DepthsSample in
theorem rearrangements_are_moves_by_depth_sample :
    met.isExecuting = true ∧
      (∃ spelled, met.visitAll setting (Shuffle.rot2.spelledOut.flatMap StackMove.chunks) =
        .next spelled ∧ spelled.stack = [[6], [1], [2], [5], [4], [3]]) ∧
      ∃ m', met.visit setting (.op .roll rfl) = .next m' ∧
        m'.stack = [[3], [5], [4], [6], [1]] ∧ m'.stack.Perm [[5], [4], [3], [6], [1]] := by
  obtain ⟨hkinds, hroll⟩ := rearrangements_are_moves_by_depth setting met rfl
  obtain ⟨once, spelled, honce, hspelled, heq⟩ := (hkinds .rot2).1 (by decide)
  obtain ⟨-, hperm⟩ := hroll [2] [[5], [4], [3], [6], [1]] rfl
  have hvisit : met.visit setting (.op .roll rfl) =
      .next { met with stack := [[3], [5], [4], [6], [1]], opCount := 2 } := by
    decide +kernel
  refine ⟨rfl, ⟨spelled, hspelled, ?_⟩, _, hvisit, rfl, hperm _ hvisit⟩
  have hleft : once.stack = [[6], [1], [2], [5], [4], [3]] := by
    cases honce
    rfl
  rw [heq]
  exact hleft

end Machine

end UtxoLedger
