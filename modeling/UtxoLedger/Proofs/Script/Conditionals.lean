/-
UtxoLedger.Proofs.Script.Conditionals — what the conditional groups of a script mean.

The machine knows no groups: it keeps a list of truth values and meets the four
conditional opcodes one at a time, also where it skips. `Script.Balanced` is the
grammar of chunks in which every group ends where it began, but the proofs do not
follow its nesting. They go chunk by chunk, with the number of groups that are still to
be ended (`Script.Closes`); for balanced chunks this number is 0 (`Balanced.closes`).
Three facts about running such a segment follow by induction:

  `conditions_of_visitAll`   behind it the conditionals are those around it
  `visitAll_inside`          conditionals around it that are on do not show
  `visitAll_skipped`         under one that is off it only moves and counts

`Conditional` is a group with two branches. Its meaning (`runs_chosen_branch`) is put
together from a chosen branch, which runs inside the group, and a skipped one.
-/
import UtxoLedger.Proofs.Script.Segments

namespace UtxoLedger

/-- The conditional that opens a group which is on if the top counts as `wanted`. -/
def Branch.opening (wanted : Bool) : Branch := if wanted then .ifTrue else .ifFalse

/-- A conditional as a chunk. -/
def Chunk.branch (kind : Branch) : Chunk := .op (.branch kind) rfl

/-! ## Groups -/

namespace Script

/-- Chunks in which every group is opened, turned and ended. -/
inductive Balanced : List Chunk → Prop where
  | nil : Balanced []
  | plain {chunk : Chunk} {rest : List Chunk} (hplain : chunk.isBranch = false)
    (hrest : Balanced rest) : Balanced (chunk :: rest)
  /-- A group with any number of turns, each in front of another body. -/
  | group (wanted : Bool) {body : List Chunk} {others : List (List Chunk)} {rest : List Chunk}
    (hbody : Balanced body) (hothers : ∀ other ∈ others, Balanced other) (hrest : Balanced rest) :
    Balanced (.branch (.opening wanted) ::
      (body ++ (others.flatMap (.branch .otherwise :: ·) ++ .branch .endIf :: rest)))

/-- Chunks that end every group that they open, and as many more as are given. -/
inductive Closes : Nat → List Chunk → Prop where
  | nil : Closes 0 []
  | plain {n : Nat} {chunk : Chunk} {rest : List Chunk} (hplain : chunk.isBranch = false)
    (hrest : Closes n rest) : Closes n (chunk :: rest)
  | opens (wanted : Bool) {n : Nat} {rest : List Chunk} (hrest : Closes (n + 1) rest) :
    Closes n (.branch (.opening wanted) :: rest)
  | turns {n : Nat} {rest : List Chunk} (hrest : Closes (n + 1) rest) :
    Closes (n + 1) (.branch .otherwise :: rest)
  | ends {n : Nat} {rest : List Chunk} (hrest : Closes n rest) :
    Closes (n + 1) (.branch .endIf :: rest)

/-- Each further body ends the groups that it opens, and the turn in front of it leaves
their number as it is. The hypothesis on the bodies is what the induction over `Balanced`
has at hand for them. -/
theorem closes_others {n : Nat} {back : List Chunk} (hback : Closes (n + 1) back) :
    ∀ others : List (List Chunk),
      (∀ other ∈ others, ∀ back, Closes (n + 1) back → Closes (n + 1) (other ++ back)) →
        Closes (n + 1) (others.flatMap (.branch .otherwise :: ·) ++ back)
  | [], _ => hback
  | other :: others, h => by
      rw [List.forall_mem_cons] at h
      rw [List.flatMap_cons, List.cons_append, List.cons_append, List.append_assoc]
      exact .turns (h.1 _ (closes_others hback others h.2))

/-- Balanced chunks in front change nothing about what is left to be ended. The induction is
on the grammar, and a group is one more to end for all that stands in it. -/
theorem Balanced.closes_append {front : List Chunk} (h : Balanced front) :
    ∀ (n : Nat) (back : List Chunk), Closes n back → Closes n (front ++ back) := by
  induction h with
  | nil => exact fun _ _ hback => hback
  | plain hplain _ ih => exact fun n back hback => .plain hplain (ih n back hback)
  | group wanted _ _ _ ihbody ihothers ihrest =>
    intro n back hback
    have hends := Closes.ends (ihrest n back hback)
    have hothers := closes_others hends _ fun other hother => ihothers other hother (n + 1)
    simp only [List.cons_append, List.append_assoc]
    exact .opens wanted (ihbody (n + 1) _ hothers)

/-- Balanced chunks end exactly the groups that they open. -/
theorem Balanced.closes {chunks : List Chunk} (h : Balanced chunks) : Closes 0 chunks := by
  have hclosed := h.closes_append 0 [] .nil
  rwa [List.append_nil] at hclosed

end Script

/-! ## The conditionals of the machine -/

namespace Machine

variable {env : Setting} {m m' : Machine}

theorem tally_branch (m : Machine) (kind : Branch) :
    m.tally (.branch kind) = { m with opCount := m.opCount + 1 } :=
  if_pos (by cases kind <;> decide)

/-- A conditional is never skipped as a whole: it keeps the list of truth values in step. -/
theorem visit_branch (env : Setting) (m : Machine) (kind : Branch) :
    m.visit env (.branch kind) = branch kind { m with opCount := m.opCount + 1 } := by
  rw [visit, show (Chunk.branch kind).isBranch = true from rfl, Bool.or_true, if_pos rfl,
    tally_branch]
  rfl

theorem branch_opening (m : Machine) (wanted : Bool) :
    m.branch (.opening wanted) = m.openGroup wanted := by
  cases wanted <;> rfl

/-- In an executed branch the top is taken and judged. -/
theorem visit_opening_on {top : Bytes} {below : Stack} (hon : m.isExecuting = true)
    (hstack : m.stack = top :: below) (wanted : Bool) :
    m.visit env (.branch (.opening wanted)) =
      .next { m with
        stack := below
        conditions := (Number.isTrue top == wanted) :: m.conditions
        opCount := m.opCount + 1 } := by
  have hcounted : isExecuting { m with opCount := m.opCount + 1 } = true := hon
  rw [visit_branch, branch_opening, openGroup, if_pos hcounted]
  simp only [hstack]

theorem visit_opening_off (hoff : m.isExecuting = false) (wanted : Bool) :
    m.visit env (.branch (.opening wanted)) =
      .next { m with conditions := false :: m.conditions, opCount := m.opCount + 1 } := by
  have hcounted : ¬ isExecuting { m with opCount := m.opCount + 1 } = true :=
    Bool.not_eq_true _ ▸ hoff
  rw [visit_branch, branch_opening, openGroup, if_neg hcounted]

theorem visit_otherwise {on : Bool} {outer : List Bool} (h : m.conditions = on :: outer) :
    m.visit env (.branch .otherwise) =
      .next { m with conditions := (!on) :: outer, opCount := m.opCount + 1 } := by
  rw [visit_branch]
  simp only [branch, h]

theorem visit_endIf {on : Bool} {outer : List Bool} (h : m.conditions = on :: outer) :
    m.visit env (.branch .endIf) =
      .next { m with conditions := outer, opCount := m.opCount + 1 } := by
  rw [visit_branch]
  simp only [branch, h]

theorem opened_of_visit {wanted : Bool}
    (h : m.visit env (.branch (.opening wanted)) = .next m') :
    ∃ on, m'.conditions = on :: m.conditions := by
  cases hon : m.isExecuting with
  | false =>
    rw [visit_opening_off hon] at h
    cases h
    exact ⟨false, rfl⟩
  | true =>
    cases hstack : m.stack with
    | nil =>
      have hcounted : isExecuting { m with opCount := m.opCount + 1 } = true := hon
      rw [visit_branch, branch_opening, openGroup, if_pos hcounted] at h
      simp only [hstack] at h
      cases h
    | cons top below =>
      rw [visit_opening_on hon hstack] at h
      cases h
      exact ⟨_, rfl⟩

/-- Whether the item is judged depends on all truth values. Those around are all on, so only
the inner ones decide. -/
theorem visit_opening_inside (env : Setting) (m : Machine) (wanted : Bool) {outer : List Bool}
    (houter : outer.all id = true) :
    (m.inside outer).visit env (.branch (.opening wanted)) =
      (m.visit env (.branch (.opening wanted))).map (inside outer) := by
  rw [visit_branch, visit_branch, branch_opening, branch_opening]
  show openGroup (inside outer { m with opCount := m.opCount + 1 }) wanted = _
  unfold openGroup
  rw [isExecuting_inside _ houter]
  split
  · obtain ⟨stack, alt, conditions, position, opCount, cache⟩ := m
    cases stack <;> rfl
  · rfl

/-! ## Segments of whole groups -/

theorem conditions_of_visitAll {n : Nat} {chunks : List Chunk} (h : Script.Closes n chunks) :
    ∀ {m m' : Machine}, n ≤ m.conditions.length → m.visitAll env chunks = .next m' →
      m'.conditions = m.conditions.drop n := by
  induction h with
  | nil =>
    intro m m' _ hend
    cases hend
    rfl
  | plain hplain _ ih =>
    intro m m' hlength hend
    obtain ⟨m₁, hvisit, hend⟩ := visitAll_cons_eq_next hend
    have hkept := (m.kept_of_visit env hplain hvisit).1
    rw [ih (by rwa [advance_conditions, hkept]) hend, advance_conditions, hkept]
  | @opens wanted n rest _ ih =>
    intro m m' hlength hend
    obtain ⟨m₁, hvisit, hend⟩ := visitAll_cons_eq_next hend
    obtain ⟨on, hopened⟩ := opened_of_visit hvisit
    have hlength' : n + 1 ≤ m₁.advance.conditions.length := by
      rw [advance_conditions, hopened]
      exact Nat.succ_le_succ hlength
    rw [ih hlength' hend, advance_conditions, hopened, List.drop_succ_cons]
  -- a turn exchanges the innermost truth value, and `drop` does not see which one it is
  | turns _ ih =>
    intro m m' hlength hend
    obtain ⟨on, outer, hopen⟩ := List.exists_cons_of_length_pos (Nat.zero_lt_of_lt hlength)
    rw [visitAll, visit_otherwise hopen] at hend
    rw [hopen] at hlength ⊢
    exact ih hlength hend
  | ends _ ih =>
    intro m m' hlength hend
    obtain ⟨on, outer, hopen⟩ := List.exists_cons_of_length_pos (Nat.zero_lt_of_lt hlength)
    rw [visitAll, visit_endIf hopen] at hend
    rw [hopen] at hlength ⊢
    exact ih (Nat.le_of_succ_le_succ hlength) hend

/-- The step of the two inductions that follow the chunks: a visit that does not see what is
around, and a rest that does not. -/
theorem visitAll_cons_inside {chunk : Chunk} {rest : List Chunk} {outer : List Bool}
    (hvisit : (m.inside outer).visit env chunk = (m.visit env chunk).map (inside outer))
    (hrest : ∀ m', m.visit env chunk = .next m' →
      (m'.advance.inside outer).visitAll env rest =
        (m'.advance.visitAll env rest).map (inside outer)) :
    (m.inside outer).visitAll env (chunk :: rest) =
      (m.visitAll env (chunk :: rest)).map (inside outer) := by
  rw [visitAll, visitAll, hvisit]
  cases hnext : m.visit env chunk with
  | next m' => exact hrest m' hnext
  | stop _ | fail _ _ => rfl

/-- Conditionals that are on around a segment do not show in it. -/
theorem visitAll_inside (env : Setting) {n : Nat} {chunks : List Chunk}
    (h : Script.Closes n chunks) {outer : List Bool} (houter : outer.all id = true) :
    ∀ m : Machine, n ≤ m.conditions.length →
      (m.inside outer).visitAll env chunks = (m.visitAll env chunks).map (inside outer) := by
  induction h with
  | nil => exact fun _ _ => rfl
  | plain hplain _ ih =>
    intro m hlength
    refine visitAll_cons_inside (m.visit_inside env hplain houter) fun m' hvisit => ih _ ?_
    rwa [advance_conditions, (m.kept_of_visit env hplain hvisit).1]
  | opens wanted _ ih =>
    intro m hlength
    refine visitAll_cons_inside (m.visit_opening_inside env wanted houter) fun m' hvisit =>
      ih _ ?_
    obtain ⟨on, hopened⟩ := opened_of_visit hvisit
    rw [advance_conditions, hopened]
    exact Nat.succ_le_succ hlength
  | turns _ ih =>
    intro m hlength
    obtain ⟨on, inner, hopen⟩ := List.exists_cons_of_length_pos (Nat.zero_lt_of_lt hlength)
    have hopen' : (m.inside outer).conditions = on :: (inner ++ outer) := by
      rw [inside, hopen, List.cons_append]
    rw [hopen] at hlength
    rw [visitAll, visitAll, visit_otherwise hopen, visit_otherwise hopen']
    exact ih (advance { m with conditions := (!on) :: inner, opCount := m.opCount + 1 }) hlength
  | ends _ ih =>
    intro m hlength
    obtain ⟨on, inner, hopen⟩ := List.exists_cons_of_length_pos (Nat.zero_lt_of_lt hlength)
    have hopen' : (m.inside outer).conditions = on :: (inner ++ outer) := by
      rw [inside, hopen, List.cons_append]
    rw [hopen] at hlength
    rw [visitAll, visitAll, visit_endIf hopen, visit_endIf hopen']
    exact ih (advance { m with conditions := inner, opCount := m.opCount + 1 })
      (Nat.le_of_succ_le_succ hlength)

/-- In a skipped branch nothing happens but at conditionals. -/
theorem visit_off {chunk : Chunk} (hplain : chunk.isBranch = false)
    (hoff : m.isExecuting = false) : m.visit env chunk = .next m := by
  rw [visit, hplain, hoff]
  rfl

theorem countP_branch (kind : Branch) (rest : List Chunk) :
    (Chunk.branch kind :: rest).countP Chunk.isBranch = 1 + rest.countP Chunk.isBranch := by
  rw [List.countP_cons_of_pos rfl, Nat.add_comm]

/-- A truth value that is off further down is enough to skip. -/
theorem isExecuting_of_drop {n : Nat} (h : (m.conditions.drop n).all id = false) :
    m.isExecuting = false := by
  obtain ⟨on, hmem, hoff⟩ := List.all_eq_false.mp h
  exact List.all_eq_false.mpr ⟨on, List.mem_of_mem_drop hmem, hoff⟩

/-- Where something is off, some group is open. -/
theorem exists_cons_of_drop {n : Nat} (h : (m.conditions.drop n).all id = false) :
    ∃ on outer, m.conditions = on :: outer := by
  cases hopen : m.conditions with
  | nil =>
    rw [hopen, List.drop_nil] at h
    cases h
  | cons on outer => exact ⟨on, outer, rfl⟩

/-- Under a conditional that is off and stays open, a segment changes the position and
the count, and closes what it has to close. -/
theorem visitAll_skipped (env : Setting) {n : Nat} {chunks : List Chunk}
    (h : Script.Closes n chunks) : ∀ m : Machine, (m.conditions.drop n).all id = false →
      m.visitAll env chunks = .next { m with
        conditions := m.conditions.drop n
        position := m.position + chunks.length
        opCount := m.opCount + chunks.countP Chunk.isBranch } := by
  induction h with
  | nil => exact fun _ _ => rfl
  | @plain n chunk rest hplain _ ih =>
    intro m hoff
    have hcount : (chunk :: rest).countP Chunk.isBranch = rest.countP Chunk.isBranch :=
      List.countP_cons_of_neg (Bool.not_eq_true _ ▸ hplain)
    rw [visitAll, visit_off hplain (isExecuting_of_drop hoff), hcount, List.length_cons,
      Nat.add_comm rest.length, ← Nat.add_assoc]
    exact ih m.advance hoff
  | @opens wanted n rest _ ih =>
    intro m hoff
    rw [visitAll, visit_opening_off (isExecuting_of_drop hoff), countP_branch, List.length_cons,
      Nat.add_comm rest.length, ← Nat.add_assoc, ← Nat.add_assoc]
    exact ih (advance { m with conditions := false :: m.conditions, opCount := m.opCount + 1 }) hoff
  -- a turn and an end need an open group, and one is: that which is off
  | @turns n rest _ ih =>
    intro m hoff
    obtain ⟨on, outer, hopen⟩ := exists_cons_of_drop hoff
    rw [hopen] at hoff ⊢
    rw [visitAll, visit_otherwise hopen, countP_branch, List.length_cons,
      Nat.add_comm rest.length, ← Nat.add_assoc, ← Nat.add_assoc]
    exact ih (advance { m with conditions := (!on) :: outer, opCount := m.opCount + 1 }) hoff
  | @ends n rest _ ih =>
    intro m hoff
    obtain ⟨on, outer, hopen⟩ := exists_cons_of_drop hoff
    rw [hopen] at hoff ⊢
    rw [visitAll, visit_endIf hopen, countP_branch, List.length_cons,
      Nat.add_comm rest.length, ← Nat.add_assoc, ← Nat.add_assoc]
    exact ih (advance { m with conditions := outer, opCount := m.opCount + 1 }) hoff

/-! ## Positions -/

/-- Only the loop moves on in the script. -/
theorem position_of_branch {kind : Branch} (h : m.branch kind = .next m') :
    m'.position = m.position := by
  have hopening : ∀ wanted, m.openGroup wanted = .next m' → m'.position = m.position := by
    intro wanted h
    unfold openGroup at h
    split at h
    · split at h
      · cases h
      · cases h
        rfl
    · cases h
      rfl
  cases kind with
  | ifTrue => exact hopening true h
  | ifFalse => exact hopening false h
  | otherwise | endIf =>
    unfold branch at h
    dsimp only at h
    split at h
    · cases h
    · cases h
      rfl

theorem position_of_visit {chunk : Chunk} (h : m.visit env chunk = .next m') :
    m'.position = m.position := by
  cases hbranch : chunk.isBranch with
  | false => exact (m.kept_of_visit env hbranch h).2
  | true =>
    match chunk, hbranch with
    | .op (.branch kind) _, _ =>
      have hcounted := position_of_branch ((visit_branch env m kind).symm.trans h)
      exact hcounted

theorem position_of_visitAll : ∀ {chunks : List Chunk} {m m' : Machine},
    m.visitAll env chunks = .next m' → m'.position = m.position + chunks.length
  | [], m, m', h => by
      cases h
      rfl
  | chunk :: rest, m, m', h => by
      obtain ⟨m₁, hvisit, h⟩ := visitAll_cons_eq_next h
      rw [position_of_visitAll h, advance_position, position_of_visit hvisit, List.length_cons]
      omega

end Machine

/-! ## Two branches -/

/-- A group that is turned once. -/
structure Conditional where
  /-- Whether the first branch is the one for a true item. -/
  wanted : Bool
  first : List Chunk
  second : List Chunk
  first_balanced : Script.Balanced first
  second_balanced : Script.Balanced second

namespace Conditional

variable (c : Conditional)

def chunks : List Chunk :=
  .branch (.opening c.wanted) ::
    (c.first ++ .branch .otherwise :: (c.second ++ [.branch .endIf]))

/-- Whether an item on top chooses the first branch. -/
def takesFirst (top : Bytes) : Bool := Number.isTrue top == c.wanted

def branch (takesFirst : Bool) : List Chunk := if takesFirst then c.first else c.second

/-- The machine at the start of the branch that it chose, with no conditional around
it. In front of the second branch it has counted the first. -/
def enter (takesFirst : Bool) (below : Stack) (m : Machine) : Machine :=
  { m with
    stack := below
    conditions := []
    position := m.position + 1 + if takesFirst then 0 else c.first.length + 1
    opCount := m.opCount + 1 + if takesFirst then 0 else c.first.countP Chunk.isBranch + 1 }

/-- The machine behind the group that was met by `m` and whose chosen branch ended in
`m'`. -/
def leave (takesFirst : Bool) (m m' : Machine) : Machine :=
  { m' with
    conditions := m.conditions
    position := m.position + c.chunks.length
    opCount := m'.opCount + 1 + if takesFirst then c.second.countP Chunk.isBranch + 1 else 0 }

/-- The machine behind the group that it skipped. -/
def skip (m : Machine) : Machine :=
  { m with
    position := m.position + c.chunks.length
    opCount := m.opCount + c.chunks.countP Chunk.isBranch }

theorem closes_chunks : Script.Closes 0 c.chunks := by
  have hends : Script.Closes 1 (.branch .otherwise :: (c.second ++ [.branch .endIf])) :=
    .turns (c.second_balanced.closes_append 1 _ (.ends .nil))
  exact .opens c.wanted (c.first_balanced.closes_append 1 _ hends)

/-- Three conditionals stand around the two branches. -/
theorem length_chunks : c.chunks.length = c.first.length + c.second.length + 3 := by
  simp only [chunks, List.length_cons, List.length_append, List.length_nil]
  omega

variable {env : Setting} {m : Machine} {top : Bytes} {below : Stack}

/-- Under a conditional that is off the whole group is passed over and counted. -/
theorem visitAll_skip (hoff : m.isExecuting = false) :
    m.visitAll env c.chunks = .next (c.skip m) :=
  Machine.visitAll_skipped env c.closes_chunks m hoff

/-- The chosen branch runs inside the group as it does on its own. -/
theorem visitAll_branch {chunks : List Chunk} (h : Script.Balanced chunks) {outer : List Bool}
    (houter : outer.all id = true) (m : Machine) :
    (m.inside outer).visitAll env chunks = (m.visitAll env chunks).map (Machine.inside outer) :=
  Machine.visitAll_inside env h.closes houter m (Nat.zero_le _)

/-- A branch that the script leaves has changed no conditional around it, and stands at
its end. -/
theorem ends_of_visitAll {chunks : List Chunk} (h : Script.Balanced chunks) {m m' : Machine}
    (hend : m.visitAll env chunks = .next m') (hopen : m.conditions = []) (outer : List Bool) :
    (m'.inside outer).conditions = outer ∧ m'.position = m.position + chunks.length := by
  have hclosed : m'.conditions = m.conditions :=
    Machine.conditions_of_visitAll h.closes (Nat.zero_le _) hend
  refine ⟨?_, Machine.position_of_visitAll hend⟩
  rw [Machine.inside, hclosed, hopen, List.nil_append]

theorem visitAll_behind_first {outer : List Bool} (hopen : m.conditions = true :: outer) :
    m.visitAll env (.branch .otherwise :: (c.second ++ [.branch .endIf])) =
      .next { m with
        conditions := outer
        position := m.position + c.second.length + 2
        opCount := m.opCount + c.second.countP Chunk.isBranch + 2 } := by
  have hskip := Machine.visitAll_skipped env c.second_balanced.closes
    (Machine.advance { m with conditions := false :: outer, opCount := m.opCount + 1 }) rfl
  rw [Machine.visitAll, Machine.visit_otherwise hopen]
  show Machine.visitAll env _
    (Machine.advance { m with conditions := false :: outer, opCount := m.opCount + 1 }) = _
  rw [Machine.visitAll_append, hskip, Visit.andThen, Machine.visitAll, Machine.visit_endIf rfl]
  refine congrArg Visit.next ?_
  simp only [Machine.advance, Machine.mk.injEq, true_and, and_true]
  omega

/-- The first branch is executed inside of the group, and the second is skipped. If the
first does not come to its end, neither does the group, and the conditionals are those
inside. -/
theorem visitAll_first (hon : m.isExecuting = true) (hstack : m.stack = top :: below)
    (hfirst : c.takesFirst top = true) :
    m.visitAll env c.chunks =
      match (c.enter true below m).visitAll env c.first with
      | .next m' => .next (c.leave true m m')
      | .stop m' => .stop (m'.inside (true :: m.conditions))
      | .fail error m' => .fail error (m'.inside (true :: m.conditions)) := by
  have houter : (true :: m.conditions).all id = true := hon
  have hfirst : (Number.isTrue top == c.wanted) = true := hfirst
  rw [chunks, Machine.visitAll, Machine.visit_opening_on hon hstack, hfirst]
  show Machine.visitAll env _ ((c.enter true below m).inside (true :: m.conditions)) = _
  rw [Machine.visitAll_append, visitAll_branch c.first_balanced houter]
  cases hend : (c.enter true below m).visitAll env c.first with
  | next m' =>
    obtain ⟨hinside, hposition⟩ :=
      ends_of_visitAll c.first_balanced hend rfl (true :: m.conditions)
    -- the two machines agree in all but their positions, which are counted from both ends
    have hposition : m'.position = m.position + 1 + c.first.length := hposition
    refine (c.visitAll_behind_first hinside).trans (congrArg Visit.next ?_)
    simp only [leave, Machine.inside, c.length_chunks, hposition, Machine.mk.injEq, true_and,
      and_true, if_true]
    omega
  | stop _ | fail _ _ => rfl

/-- The first branch is skipped, the turn turns the group on, and the second is executed. -/
theorem visitAll_second (hon : m.isExecuting = true) (hstack : m.stack = top :: below)
    (hsecond : c.takesFirst top = false) :
    m.visitAll env c.chunks =
      match (c.enter false below m).visitAll env c.second with
      | .next m' => .next (c.leave false m m')
      | .stop m' => .stop (m'.inside (true :: m.conditions))
      | .fail error m' => .fail error (m'.inside (true :: m.conditions)) := by
  have houter : (true :: m.conditions).all id = true := hon
  have hsecond : (Number.isTrue top == c.wanted) = false := hsecond
  let opened : Machine :=
    { m with stack := below, conditions := false :: m.conditions, opCount := m.opCount + 1 }
  -- the group is off from its start to the turn
  have hskip := Machine.visitAll_skipped env c.first_balanced.closes opened.advance rfl
  rw [chunks, Machine.visitAll, Machine.visit_opening_on hon hstack, hsecond]
  show Machine.visitAll env _ opened.advance = _
  rw [Machine.visitAll_append, hskip, Visit.andThen, Machine.visitAll, Machine.visit_otherwise rfl]
  show Machine.visitAll env _ ((c.enter false below m).inside (true :: m.conditions)) = _
  rw [Machine.visitAll_append, visitAll_branch c.second_balanced houter]
  cases hend : (c.enter false below m).visitAll env c.second with
  | next m' =>
    obtain ⟨hinside, hposition⟩ :=
      ends_of_visitAll c.second_balanced hend rfl (true :: m.conditions)
    have hposition : m'.position = m.position + 1 + (c.first.length + 1) + c.second.length :=
      hposition
    show Machine.visitAll env [.branch .endIf] (m'.inside (true :: m.conditions)) = _
    rw [Machine.visitAll, Machine.visit_endIf hinside]
    refine congrArg Visit.next ?_
    simp only [leave, Machine.inside, Machine.advance, c.length_chunks, hposition,
      Machine.mk.injEq, true_and, and_true, Bool.false_eq_true, if_false]
    omega
  | stop _ | fail _ _ => rfl

/-- Both cases in one: the item decides which branch it is. -/
theorem visitAll_chosen (hon : m.isExecuting = true) (hstack : m.stack = top :: below) :
    m.visitAll env c.chunks =
      match (c.enter (c.takesFirst top) below m).visitAll env (c.branch (c.takesFirst top)) with
      | .next m' => .next (c.leave (c.takesFirst top) m m')
      | .stop m' => .stop (m'.inside (true :: m.conditions))
      | .fail error m' => .fail error (m'.inside (true :: m.conditions)) := by
  cases hchoice : c.takesFirst top with
  | true => exact c.visitAll_first hon hstack hchoice
  | false => exact c.visitAll_second hon hstack hchoice

/-- **What a conditional means.** A machine at a group with two branches, none of the
conditionals around it off and an item on top, takes the item and runs the branch that
it chooses as that branch runs with no conditional around it. If the branch ends the
script, the script ends there, with the same error if there is one; else it goes on
behind the group, under the conditionals of before. A machine that skips goes on behind
the group with only the position and the count changed, whatever the branches are. -/
theorem runs_chosen_branch (c : Conditional) {env : Setting} {before after : List Chunk}
    (hscript : env.script.chunks = before ++ (c.chunks ++ after)) {m : Machine}
    (hposition : m.position = before.length) :
    (∀ top below, m.isExecuting = true → m.stack = top :: below →
      runFrom env (env.script.chunks.drop m.position) m =
        match (c.enter (c.takesFirst top) below m).visitAll env (c.branch (c.takesFirst top)) with
        | .next m' => runFrom env after (c.leave (c.takesFirst top) m m')
        | .stop m' => (m'.inside (true :: m.conditions), none)
        | .fail error m' => (m'.inside (true :: m.conditions), some error)) ∧
    (m.isExecuting = false →
      runFrom env (env.script.chunks.drop m.position) m = runFrom env after (c.skip m)) := by
  have hrun : runFrom env (env.script.chunks.drop m.position) m =
      (m.visitAll env c.chunks).thenRun (runFrom env after) := by
    rw [hscript, hposition, List.drop_left, runFrom_append]
  constructor
  · intro top below hon hstack
    rw [hrun, c.visitAll_chosen hon hstack]
    cases (c.enter (c.takesFirst top) below m).visitAll env (c.branch (c.takesFirst top)) <;> rfl
  · intro hoff
    rw [hrun, c.visitAll_skip hoff]
    rfl

/-! ### A group in a group

The inner one is off and turned, and what is skipped has no meaning. -/

namespace Sample

def undefined : Chunk := .unknown 0xff rfl

def counting : Chunk := .op .depth rfl

def outer : Conditional where
  wanted := true
  first := [.branch .ifFalse, undefined, .branch .otherwise, counting, .branch .endIf]
  second := [undefined]
  first_balanced := by
    have hothers : ∀ other ∈ [[counting]], Script.Balanced other := by
      intro other hother
      rw [List.mem_singleton.mp hother]
      exact .plain rfl .nil
    exact .group false (.plain rfl .nil) hothers .nil
  second_balanced := .plain rfl .nil

def setting : Setting := ⟨⟨counting :: outer.chunks⟩, ⟨0, [], [], 0⟩, 0, 0⟩

def met : Machine := ⟨[[1], [1]], [], [], 1, 1, .empty⟩

end Sample

open Sample in
theorem runs_chosen_branch_sample :
    setting.script.chunks = [counting] ++ (outer.chunks ++ []) ∧ met.position = [counting].length ∧
      met.isExecuting = true ∧ met.stack = [1] :: [[1]] ∧
      runFrom setting (setting.script.chunks.drop met.position) met =
        (⟨[[]], [], [], 10, 8, .empty⟩, none) := by
  have hscript : setting.script.chunks = [counting] ++ (outer.chunks ++ []) := rfl
  obtain ⟨hchosen, -⟩ := outer.runs_chosen_branch hscript (show met.position = 1 from rfl)
  exact ⟨hscript, rfl, rfl, rfl, (hchosen [1] [[1]] rfl rfl).trans (by decide)⟩

end Conditional

end UtxoLedger
